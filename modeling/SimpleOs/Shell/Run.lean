import SimpleOs.Proof.FramebufferImage
import SimpleOs.Shell.Commands

/-!
# The shell

`shell_init` and `shell_run` of `kernel/shell/shell.c`, one key at a time. `line` of `shell_run` is the
array that `shell_readline` reads into and `shell_execute` puts its terminators into; it is not cleared
between two lines.
-/

namespace SimpleOs

def shellPrintBanner : List ConsoleCall :=
  [.setColor colorCyan,
   say "========================================\n",
   .setColor colorGreen,
   say "            SimpleOS Shell\n",
   .setColor colorCyan,
   say "========================================\n",
   .setColor colorWhite,
   say "Type 'help' to list commands.\n\n"]

/-- What `shell_readline` holds, or what it held when a command halted the processor; and what
`shell_execute` has found in the lines. -/
structure Shell where
  readline : Readline
  executed : List Executed
  halted : Bool

namespace Shell

/-- The prompt, and `shell_readline` up to its loop. -/
def prompt (w : ShellWorld) (line : ByteMemory) (history : History) (console : Console) : Readline :=
  .start line w.stack history (shellPrompt console)

/-- `shell_init`, and `shell_run` up to the first key. -/
def init (w : ShellWorld) (history : History) (console : Console) : Shell where
  readline := prompt w w.stack history.historyInit (console.run shellPrintBanner)
  executed := []
  halted := false

/-- From the return of `shell_readline` to its next call. -/
def finish (w : ShellWorld) (n : Nat) (s : Shell) (r : Readline) : Option Shell :=
  if r.buf 0 = 0 then some { s with readline := prompt w r.buf r.history r.console }
  else do
    let history := r.history.historyAdd (some r.text)
    let e ← (shellExecute r.buf n).value
    let effect ← w.perform n e
    let console := r.console.run effect.calls
    let executed := s.executed ++ [e]
    if effect.returns then return ⟨prompt w e.line history console, executed, false⟩
    else return ⟨{ r with buf := e.line, history := history, console := console }, executed, true⟩

/-- The character of a key, and what the rest of the kernel is like at this time. Loops are given `n` turns;
`none` says that one of them would go on. -/
def step (n : Nat) (s : Shell) (key : ShellWorld × BitVec 8) : Option Shell :=
  if s.halted then some s
  else
    let r := s.readline.key key.2
    if r.returned then s.finish key.1 n r else some { s with readline := r }

def run (n : Nat) (s : Shell) (keys : List (ShellWorld × BitVec 8)) : Option Shell := keys.foldlM (step n) s

end Shell

end SimpleOs
