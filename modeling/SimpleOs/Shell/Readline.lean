import SimpleOs.Console
import SimpleOs.Drivers.Keyboard
import SimpleOs.Shell.History

/-!
# Reading a line

`shell_readline` of `kernel/shell/shell.c`, one key at a time, with `replace_input` and the prompt.
-/

namespace SimpleOs

def shellMaxLine : Nat := 128

/-- `str_len`, of the bytes before the terminator. -/
def strLen : List (BitVec 8) → Nat
  | [] => 0
  | c :: s => if c ≠ 0 then strLen s + 1 else 0

def strCopy (dst : Nat → BitVec 8) (src : CString) (max : Nat) : Nat → BitVec 8 :=
  if max = 0 then dst else copyFrom dst src.byte 0 (max - 1)

def shellPrompt (k : Console) : Console :=
  let k := (k.consoleSetColor colorGreen).consolePrint ("simpleos".toList.map ascii)
  let k := (k.consoleSetColor colorCyan).consolePrint ("> ".toList.map ascii)
  k.consoleSetColor colorWhite

/-- The variables of `shell_readline`, with the history and the console. -/
structure Readline where
  buf : Nat → BitVec 8
  len : Nat
  saved : Nat → BitVec 8
  savedValid : Bool
  history : History
  console : Console
  returned : Bool

namespace Readline

/-- What `buf` holds. -/
def text (s : Readline) : CString := .ofArray s.buf shellMaxLine

/-- `shell_readline` up to its loop. -/
def start (buf saved : Nat → BitVec 8) (history : History) (console : Console) : Readline where
  buf := Function.update buf 0 0
  len := 0
  saved := saved
  savedValid := false
  history := history.historyResetNav
  console := console
  returned := false

/-- `size` is `sizeof(line)`; `new_text` is never `NULL`. -/
def replaceInput (s : Readline) (newText : CString) : Readline :=
  let console := (Console.consolePutchar · (ascii '\x08'))^[s.len] s.console
  let buf := Function.update s.buf 0 0
  if newText.byte 0 ≠ 0 then
    let buf := strCopy buf newText shellMaxLine
    let text := CString.ofArray buf shellMaxLine
    { s with buf := buf, len := strLen text.bytes, console := console.consolePrint text.bytes }
  else { s with buf := buf, len := 0, console := console }

/-- The line is saved, if it is not already. -/
def save (s : Readline) : Readline :=
  if s.savedValid then s
  else { s with saved := strCopy s.saved s.text shellMaxLine, savedValid := true }

/-- The line is replaced by an entry of the history, or by what was saved if there is none. -/
def browse (s : Readline) (entry : Option Nat × History) : Readline :=
  let s := { s with history := entry.2 }
  match entry.1 with
  | some i => s.replaceInput (s.history.line i)
  | none =>
      s.replaceInput
        (if s.savedValid then .ofArray s.saved shellMaxLine else .empty)

/-- The body of the loop of `shell_readline`, for the character of a key. -/
def key (s : Readline) (c : BitVec 8) : Readline :=
  if s.returned then s
  else if c = keyUp ∨ c = keyDown then
    let s := s.save
    s.browse (if c = keyUp then s.history.historyPrev else s.history.historyNext)
  else if c = ascii '\n' then
    { s with
      console := s.console.consolePutchar (ascii '\n')
      buf := Function.update s.buf s.len 0
      returned := true }
  else if c = ascii '\x08' then
    if s.len > 0 then
      { s with
        len := s.len - 1
        buf := Function.update s.buf (s.len - 1) 0
        console := s.console.consolePutchar (ascii '\x08')
        savedValid := false }
    else { s with savedValid := false }
  else if 32 ≤ c.toNat ∧ c.toNat < 127 then
    if s.len < shellMaxLine - 1 then
      { s with
        len := s.len + 1
        buf := Function.update (Function.update s.buf s.len c) (s.len + 1) 0
        console := s.console.consolePutchar c
        savedValid := false }
    else { s with savedValid := false }
  else s

def run (s : Readline) (keys : List (BitVec 8)) : Readline := keys.foldl key s

end Readline

end SimpleOs
