import SimpleOs.Lib.Words
import SimpleOs.Proof.HistoryBrowsing
import SimpleOs.Shell.Commands

/-!
# Sessions

What the shell is for: a user edits a line, may go back to one of the lines entered before, and enters it;
the words of the line are a command and its arguments. There are no arrays and no terminators here, and
the history is the list of the lines that were entered.
-/

namespace SimpleOs

theorem zero_notMem_of_mem_words {p : BitVec 8 → Bool} {t : CString} {w : Text}
    (hw : w ∈ Words.words p t.bytes) : 0 ∉ w :=
  fun hzero => t.nonzero (Words.mem_of_mem_words hw hzero)

/-- The words of a string. -/
def wordsOf (t : CString) : List CString :=
  (Words.words isSpace t.bytes).pmap CString.mk fun _ => zero_notMem_of_mem_words

instance (c : BitVec 8) : Decidable (IsArrow c) := inferInstanceAs (Decidable (_ ∨ _))

/-- The line after a key other than Enter. -/
def edited (d : Draft CString historyMaxEntries) (c : BitVec 8) : Draft CString historyMaxEntries :=
  if IsArrow c then d.browse (Readline.move c)
  else if c = ascii '\x08' then d.edit d.line.dropLast
  else if hc : Printable c then
    d.edit (if d.line.length < shellMaxLine - 1 then d.line.snoc c hc.ne_zero else d.line)
  else d

/-- What is printed for the key: a line that is replaced is taken back character by character. -/
def echoed (d : Draft CString historyMaxEntries) (c : BitVec 8) : Text :=
  if IsArrow c then List.replicate d.line.length (ascii '\x08') ++ (edited d c).line.bytes
  else if (edited d c).line = d.line then []
  else [c]

def commandNames : List (String × Command) :=
  [("help", .help), ("clear", .clear), ("echo", .echo), ("version", .version), ("uptime", .uptime),
   ("meminfo", .meminfo), ("ps", .ps), ("hexdump", .hexdump), ("reboot", .reboot),
   ("shutdown", .shutdown)]

def commandNamed (name : Text) : Command :=
  ((commandNames.find? fun entry => name = entry.1.toList.map ascii).map Prod.snd).getD .unknown

/-- The command with its arguments. Loops are given `n` turns; `none` says that one would go on. -/
def ShellWorld.respond (w : ShellWorld) (n : Nat) : List CString → Option Effect
  | [] => some ⟨[], true⟩
  | name :: args =>
      match commandNamed name.bytes with
      | .help => some ⟨cmdHelp, true⟩
      | .clear => some ⟨[.clear], true⟩
      | .echo => some ⟨[.print ([ascii ' '].intercalate (args.map CString.bytes) ++ [ascii '\n'])], true⟩
      | .version => some ⟨cmdVersion, true⟩
      | .uptime => w.cmdUptime.map (⟨·, true⟩)
      | .meminfo => w.cmdMeminfo.map (⟨·, true⟩)
      | .ps => w.cmdPs.map (⟨·, true⟩)
      | .hexdump => (w.observed.cmdHexdump (name :: args) n).map fun printed => ⟨[.print printed], true⟩
      | .reboot => some ⟨cmdReboot, false⟩
      | .shutdown => some ⟨cmdShutdown, false⟩
      | .unknown =>
          some ⟨[.setColor colorRed, say "Unknown command: ", .setColor colorWhite, .print name.bytes,
            .putchar (ascii '\n')], true⟩

def promptCalls : List ConsoleCall :=
  [.setColor colorGreen, say "simpleos", .setColor colorCyan, say "> ", .setColor colorWhite]

/-- The line that is edited, the lines that were entered, and everything that was printed. -/
structure Session where
  draft : Draft CString historyMaxEntries
  entered : List CString
  calls : List ConsoleCall
  halted : Bool

namespace Session

def init (banner : List ConsoleCall) : Session :=
  ⟨.start .empty Recall.empty.reset, [], banner ++ promptCalls, false⟩

/-- The line is entered. An empty line is neither executed nor kept. -/
def enter (w : ShellWorld) (n : Nat) (s : Session) : Option Session :=
  let line := s.draft.line
  let calls := s.calls ++ [.putchar (ascii '\n')]
  if line = .empty then
    some ⟨.start .empty s.draft.history.reset, s.entered, calls ++ promptCalls, false⟩
  else do
    let history := s.draft.history.add line
    let entered := s.entered ++ [line]
    let effect ← w.respond n ((wordsOf line).take shellMaxArgs)
    if effect.returns then
      return ⟨.start .empty history.reset, entered, calls ++ effect.calls ++ promptCalls, false⟩
    else return ⟨.start line history, entered, calls ++ effect.calls, true⟩

def step (n : Nat) (s : Session) (key : ShellWorld × BitVec 8) : Option Session :=
  if s.halted then some s
  else if key.2 = ascii '\n' then s.enter key.1 n
  else some { s with draft := edited s.draft key.2, calls := s.calls ++ [.print (echoed s.draft key.2)] }

def run (n : Nat) (s : Session) (keys : List (ShellWorld × BitVec 8)) : Option Session :=
  keys.foldlM (step n) s

end Session

end SimpleOs
