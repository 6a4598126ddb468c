import SimpleOs.Framebuffer
import SimpleOs.Mm.Heap
import SimpleOs.Proc.Process
import SimpleOs.Shell.Execute

/-!
# The commands

What the commands of `kernel/shell/shell.c` do: the calls of the console that they make, and whether they
return. They read the rest of the kernel and do not change it. `echo` and `hexdump` are given as the text
that they print.
-/

namespace SimpleOs

def colorYellow : BitVec 32 := 0x0000FFFF
def colorRed : BitVec 32 := 0x000000FF

/-- `console_print` of a literal. -/
def say (s : String) : ConsoleCall := .print (s.toList.map ascii)

/-- What a command reads of the rest of the kernel; `stack` is what a local array holds before it is
written. -/
structure ShellWorld where
  stack : ByteMemory
  timerTicks : BitVec 64
  pmm : Pmm
  heap : Heap
  processes : ProcPtr → Process
  observed : Observed

/-- `returns` is false for a command that halts the processor. -/
structure Effect where
  calls : List ConsoleCall
  returns : Bool
deriving DecidableEq

def cmdHelp : List ConsoleCall :=
  [.setColor colorCyan,
   say "Available commands:\n",
   .setColor colorWhite,
   say "  help        - Show this help\n",
   say "  clear       - Clear the screen\n",
   say "  echo [text] - Echo text\n",
   say "  version     - Show kernel version\n",
   say "  uptime      - Show system uptime\n",
   say "  meminfo     - Show memory usage\n",
   say "  ps          - List processes\n",
   say "  hexdump a l - Dump memory at address\n",
   say "  reboot      - Reboot the machine\n",
   say "  shutdown    - Power off the machine\n"]

def cmdVersion : List ConsoleCall :=
  [.setColor colorGreen, say "SimpleOS Kernel v0.2\n", .setColor colorWhite]

def cmdReboot : List ConsoleCall :=
  [.setColor colorYellow, say "Rebooting...\n", .setColor colorWhite]

def cmdShutdown : List ConsoleCall :=
  [.setColor colorYellow, say "Shutting down...\n", .setColor colorWhite]

def stateToStr : ProcState → String
  | .ready => "READY"
  | .running => "RUN"
  | .blocked => "BLOCK"
  | .zombie => "ZOMBIE"
  | .unused => "UNUSED"

/-- The size with its unit: the suffix, the whole part and the tenths. -/
def humanSize (bytes : BitVec 64) : String × BitVec 64 × BitVec 64 :=
  let unit : BitVec 64 := 1024
  if bytes ≥ unit * unit * unit then
    ("GB", bytes / (unit * unit * unit), bytes % (unit * unit * unit) * 10 / (unit * unit * unit))
  else if bytes ≥ unit * unit then ("MB", bytes / (unit * unit), bytes % (unit * unit) * 10 / (unit * unit))
  else if bytes ≥ unit then ("KB", bytes / unit, bytes % unit * 10 / unit)
  else ("B", bytes, 0)

namespace ShellWorld

variable (w : ShellWorld)

/-- `print_dec`; `none` if its loop went on. -/
def dec (num : BitVec 64) : Option ConsoleCall := (printDec w.stack num).value.map .print

def printBytesHuman (bytes : BitVec 64) : Option (List ConsoleCall) := do
  let (suffix, whole, frac) := humanSize bytes
  let whole ← w.dec whole
  if suffix ≠ "B" then
    let frac ← w.dec frac
    return [say " (", whole, .putchar (ascii '.'), frac, .putchar (ascii ' '), say suffix, say ")"]
  else return [say " (", whole, .putchar (ascii ' '), say suffix, say ")"]

/-- A number with its size in bytes, behind a label. -/
def printAmount (label : String) (num bytes : BitVec 64) : Option (List ConsoleCall) := do
  let num ← w.dec num
  let human ← w.printBytesHuman bytes
  return say label :: num :: human

def cmdUptime : Option (List ConsoleCall) := do
  let seconds ← w.dec (w.timerTicks / 100#64)
  return [say "Uptime: ", seconds, say "s\n"]

def psRow (proc : Process) : Option (List ConsoleCall) := do
  if proc.state = .unused then return []
  let pid ← w.dec proc.pid
  let priority ← w.dec (BitVec.ofInt 64 proc.priority)
  return [pid, say "   ", say (stateToStr proc.state), say "   ", priority, say "    ",
    .print proc.name, .putchar (ascii '\n')]

def cmdPs : Option (List ConsoleCall) := do
  let rows ← (List.finRange 64).mapM fun i => w.psRow (w.processes i)
  return [.setColor colorCyan, say "PID   STATE   PRIO  NAME\n", .setColor colorWhite] ++ rows.flatten

def cmdMeminfo : Option (List ConsoleCall) := do
  let totalPages := w.pmm.pmmGetTotalPages
  let freePages := w.pmm.pmmGetFreePages
  let usedPages := w.pmm.pmmGetUsedPages
  let total ← w.printAmount "  total: " totalPages (totalPages * 4096)
  let free ← w.printAmount "\n  free:  " freePages (freePages * 4096)
  let used ← w.printAmount "\n  used:  " usedPages (usedPages * 4096)
  let heapTotal := BitVec.ofNat 64 w.heap.heapGetTotalSize
  let heapFree := BitVec.ofNat 64 w.heap.heapGetFreeSize
  let heapUsed := BitVec.ofNat 64 w.heap.heapGetUsedSize
  let total' ← w.printAmount "  total: " heapTotal heapTotal
  let free' ← w.printAmount "\n  free:  " heapFree heapFree
  let used' ← w.printAmount "\n  used:  " heapUsed heapUsed
  return [.setColor colorCyan, say "Memory (pages):\n", .setColor colorWhite] ++ total ++ free ++ used ++
    [say "\n", .setColor colorCyan, say "Heap (bytes):\n", .setColor colorWhite] ++
    total' ++ free' ++ used' ++ [say "\n"]

/-- The strings that `argv` points to, of at most `n` bytes. -/
def arguments (e : Executed) (n : Nat) : List CString :=
  e.argv.map fun p => CString.ofArray (fun i => e.line (p + i)) n

/-- The command that `shell_execute` calls. Loops are given `n` turns; `none` says that one would go on. -/
def perform (n : Nat) (e : Executed) : Option Effect :=
  match e.command with
  | none => some ⟨[], true⟩
  | some .help => some ⟨cmdHelp, true⟩
  | some .clear => some ⟨[.clear], true⟩
  | some .echo => (cmdEcho e.line n e.argv).value.map fun printed => ⟨[.print printed], true⟩
  | some .version => some ⟨cmdVersion, true⟩
  | some .uptime => w.cmdUptime.map (⟨·, true⟩)
  | some .meminfo => w.cmdMeminfo.map (⟨·, true⟩)
  | some .ps => w.cmdPs.map (⟨·, true⟩)
  | some .hexdump =>
      (w.observed.cmdHexdump (arguments e n) n).map fun printed => ⟨[.print printed], true⟩
  | some .reboot => some ⟨cmdReboot, false⟩
  | some .shutdown => some ⟨cmdShutdown, false⟩
  | some .unknown =>
      some ⟨[.setColor colorRed, say "Unknown command: ", .setColor colorWhite] ++
        (arguments e n).head?.toList.map (fun name => .print name.bytes) ++ [.putchar (ascii '\n')], true⟩

end ShellWorld

end SimpleOs
