import SimpleOs.Numerals
import SimpleOs.Shell.Readline

/-!
# Executing a line

`shell_execute` of `kernel/shell/shell.c` up to the command that it calls, and the commands `echo` and
`hexdump`. The line is given as the memory from its first byte on; what is printed, as its characters.
-/

namespace SimpleOs

open Traced

def shellMaxArgs : Nat := 8

def isSpace (c : BitVec 8) : Bool := c = ascii ' ' || c = ascii '\t'

/-- The array `line` of `shell_run`. -/
inductive ShellBuffer where
  | line
deriving Repr, DecidableEq

inductive Command where
  | help
  | clear
  | echo
  | version
  | uptime
  | meminfo
  | ps
  | hexdump
  | reboot
  | shutdown
  | unknown
deriving Repr, DecidableEq

/-- The loop of `shell_execute`, with the number of arguments for which `argv` still has room. The loops
inside it are given `n` turns; `none` says that one of them would go on. -/
def tokenize (m : ByteMemory) (p n : Nat) :
    Nat → Traced ShellBuffer (Option (ByteMemory × List Nat))
  | 0 => do
      let _ ← load .line m p 8
      pure (some (m, []))
  | room + 1 => do
      let c ← load .line m p 8
      if c = 0 then return some (m, [])
      let some p ← scanWhile (fun c => c ≠ 0 && isSpace c) .line m p n | return none
      let c ← load .line m p 8
      if c = 0 then return some (m, [])
      let some q ← scanWhile (fun c => c ≠ 0 && !isSpace c) .line m p n | return none
      let c ← load .line m q 8
      if c ≠ 0 then
        let m ← store .line m q 0#8
        let rest ← tokenize m (q + 1) n room
        return rest.map fun (m, argv) => (m, p :: argv)
      else
        let rest ← tokenize m q n room
        return rest.map fun (m, argv) => (m, p :: argv)

/-- The comparisons of `shell_execute`. -/
def commandOf (name : Nat → BitVec 8) : Command :=
  if strEqual name ("help".toList.map ascii) then .help
  else if strEqual name ("clear".toList.map ascii) then .clear
  else if strEqual name ("echo".toList.map ascii) then .echo
  else if strEqual name ("version".toList.map ascii) then .version
  else if strEqual name ("uptime".toList.map ascii) then .uptime
  else if strEqual name ("meminfo".toList.map ascii) then .meminfo
  else if strEqual name ("ps".toList.map ascii) then .ps
  else if strEqual name ("hexdump".toList.map ascii) then .hexdump
  else if strEqual name ("reboot".toList.map ascii) then .reboot
  else if strEqual name ("shutdown".toList.map ascii) then .shutdown
  else .unknown

/-- `argc` is the length of `argv`, whose elements are given as indices in the line. -/
structure Executed where
  line : ByteMemory
  argv : List Nat
  command : Option Command

def shellExecute (m : ByteMemory) (n : Nat) : Traced ShellBuffer (Option Executed) := do
  let some (line, argv) ← tokenize m 0 n shellMaxArgs | return none
  match argv with
  | [] => return some ⟨line, [], none⟩
  | p :: _ => return some ⟨line, argv, some (commandOf fun i => line (p + i))⟩

/-- The loop of `cmd_echo` over the arguments that are left. -/
def echoArgs (line : ByteMemory) (n : Nat) : List Nat → Traced ShellBuffer (Option Text)
  | [] => return some []
  | [p] => loadString .line line p n
  | p :: argv => do
      let some s ← loadString .line line p n | return none
      let some rest ← echoArgs line n argv | return none
      return some (s ++ ascii ' ' :: rest)

def cmdEcho (line : ByteMemory) (n : Nat) (argv : List Nat) : Traced ShellBuffer (Option Text) := do
  let printed ← echoArgs line n argv.tail
  return printed.map (· ++ [ascii '\n'])

/-- What memory holds, and what the array of `print_hex` does, once a text has been printed. -/
structure Observed where
  memory : Text → ByteMemory
  stack : Text → ByteMemory

namespace Observed

variable (o : Observed) (addr len : BitVec 64)

/-- The inner loop of `cmd_hexdump`, for `n` turns from `i` on. -/
def dumpBytes (offset : BitVec 64) (i : Nat) (printed : Text) : Nat → Text
  | 0 => printed
  | n + 1 =>
      if offset + BitVec.ofNat 64 i < len then
        let byte := o.memory printed (addr + (offset + BitVec.ofNat 64 i)).toNat
        dumpBytes offset (i + 1)
          (printed ++ [hexChar ((byte >>> 4) &&& 0xF#8).toNat, hexChar (byte &&& 0xF#8).toNat] ++
            [ascii ' ']) n
      else printed

/-- The outer loop of `cmd_hexdump`, for the number of turns it is given; `none` says that it would go
on. -/
def dumpRows (offset : BitVec 64) (printed : Text) : Nat → Option Text
  | 0 => none
  | turns + 1 =>
      if offset < len then do
        let text ← (printHex (o.stack printed) (addr + offset)).value
        let printed := printed ++ text ++ ": ".toList.map ascii
        let printed := o.dumpBytes addr len offset 0 printed 16 ++ [ascii '\n']
        dumpRows (offset + 16#64) printed turns
      else some printed

/-- `cmd_hexdump`; the arguments are given as strings. -/
def cmdHexdump (argv : List CString) (turns : Nat) : Option Text :=
  if argv.length < 3 then some ("Usage: hexdump <addr> <len>\n".toList.map ascii)
  else
    let (addr, okAddr) := parseUint argv[1]?
    let (len, okLen) := parseUint argv[2]?
    if okAddr = false ∨ okLen = false ∨ len = 0#64 then
      some ("Invalid arguments.\n".toList.map ascii)
    else o.dumpRows addr len 0#64 [] turns

end Observed

end SimpleOs
