import SimpleOs.Lib.CString
import SimpleOs.Lib.Ring

/-!
# The keyboard driver

`kernel/drivers/keyboard.c`: the handler of the interrupt, and the functions that read the buffer, one
access to memory at a time.
-/

namespace SimpleOs

def keyboardBufferSize : Nat := 256

def scancodeLShift : BitVec 8 := 0x2A
def scancodeRShift : BitVec 8 := 0x36
def scancodeLCtrl : BitVec 8 := 0x1D
def scancodeLAlt : BitVec 8 := 0x38
def scancodeCapsLock : BitVec 8 := 0x3A
def scancodeRelease : BitVec 8 := 0x80
def scancodeExtended : BitVec 8 := 0xE0

def keyUp : BitVec 8 := 0x80
def keyDown : BitVec 8 := 0x81
def keyLeft : BitVec 8 := 0x82
def keyRight : BitVec 8 := 0x83

def scancodeToAscii : List Char :=
  ['\x00', '\x1b', '1', '2', '3', '4', '5', '6', '7', '8', '9', '0', '-', '=', '\x08',
   '\t', 'q', 'w', 'e', 'r', 't', 'y', 'u', 'i', 'o', 'p', '[', ']', '\n',
   '\x00', 'a', 's', 'd', 'f', 'g', 'h', 'j', 'k', 'l', ';', '\x27', '\x60',
   '\x00', '\x5c', 'z', 'x', 'c', 'v', 'b', 'n', 'm', ',', '.', '/', '\x00',
   '*', '\x00', ' '] ++ List.replicate 70 '\x00'

def scancodeToAsciiShifted : List Char :=
  ['\x00', '\x1b', '!', '@', '#', '$', '%', '^', '&', '*', '(', ')', '_', '+', '\x08',
   '\t', 'Q', 'W', 'E', 'R', 'T', 'Y', 'U', 'I', 'O', 'P', '\x7b', '\x7d', '\n',
   '\x00', 'A', 'S', 'D', 'F', 'G', 'H', 'J', 'K', 'L', ':', '\x22', '~',
   '\x00', '|', 'Z', 'X', 'C', 'V', 'B', 'N', 'M', '<', '>', '?', '\x00',
   '*', '\x00', ' '] ++ List.replicate 70 '\x00'

structure Modifiers where
  shiftPressed : Bool
  ctrlPressed : Bool
  altPressed : Bool
  capslockOn : Bool
  extendedScancode : Bool
deriving Repr, DecidableEq

/-- The static variables. The indices are never negative. -/
structure Keyboard where
  keyBuffer : Nat → BitVec 8
  bufferHead : Nat
  bufferTail : Nat
  modifiers : Modifiers

/-- `c >= low && c <= high`. -/
def charBetween (c : BitVec 8) (low high : Char) : Prop :=
  (ascii low).toInt ≤ c.toInt ∧ c.toInt ≤ (ascii high).toInt

instance (c : BitVec 8) (low high : Char) : Decidable (charBetween c low high) :=
  inferInstanceAs (Decidable (_ ∧ _))

namespace Modifiers

/-- The character of a key that is pressed; 0 if it has none. -/
def translate (m : Modifiers) (scancode : BitVec 8) : BitVec 8 :=
  if scancode.toNat < 128 then
    let table := if m.shiftPressed then scancodeToAsciiShifted else scancodeToAscii
    let c := ascii (table.getD scancode.toNat '\x00')
    let c :=
      if m.capslockOn ∧ charBetween c 'a' 'z' then c - ascii 'a' + ascii 'A'
      else if m.capslockOn ∧ charBetween c 'A' 'Z' then c - ascii 'A' + ascii 'a'
      else c
    if m.ctrlPressed ∧ charBetween c 'a' 'z' then c - ascii 'a' + 1 else c
  else 0

/-- `keyboard_handler`, up to the character that it puts into the buffer. -/
def keyPress (m : Modifiers) (scancode : BitVec 8) : Modifiers × Option (BitVec 8) :=
  if scancode = scancodeExtended then ({ m with extendedScancode := true }, none)
  else if scancode &&& scancodeRelease ≠ 0 then
    let released := scancode &&& 0x7F
    if m.extendedScancode then ({ m with extendedScancode := false }, none)
    else if released = scancodeLShift ∨ released = scancodeRShift then
      ({ m with shiftPressed := false }, none)
    else if released = scancodeLCtrl then ({ m with ctrlPressed := false }, none)
    else if released = scancodeLAlt then ({ m with altPressed := false }, none)
    else (m, none)
  else if m.extendedScancode then
    let special :=
      match scancode.toNat with
      | 0x48 => keyUp
      | 0x50 => keyDown
      | 0x4B => keyLeft
      | 0x4D => keyRight
      | _ => 0
    ({ m with extendedScancode := false }, if special ≠ 0 then some special else none)
  else if scancode = scancodeLShift ∨ scancode = scancodeRShift then
    ({ m with shiftPressed := true }, none)
  else if scancode = scancodeLCtrl then ({ m with ctrlPressed := true }, none)
  else if scancode = scancodeLAlt then ({ m with altPressed := true }, none)
  else if scancode = scancodeCapsLock then ({ m with capslockOn := !m.capslockOn }, none)
  else
    let c := m.translate scancode
    (m, if c ≠ 0 then some c else none)

end Modifiers

namespace Keyboard

def bufferPut (k : Keyboard) (c : BitVec 8) : Keyboard :=
  let next := (k.bufferHead + 1) % keyboardBufferSize
  if next ≠ k.bufferTail then
    { k with
      keyBuffer := Function.update k.keyBuffer k.bufferHead c
      bufferHead := next }
  else k

def keyboardInit (k : Keyboard) : Keyboard :=
  { k with
    bufferHead := 0
    bufferTail := 0
    modifiers :=
      { k.modifiers with
        shiftPressed := false, ctrlPressed := false, altPressed := false, capslockOn := false } }

def keyboardHandler (k : Keyboard) (scancode : BitVec 8) : Keyboard :=
  match k.modifiers.keyPress scancode with
  | (modifiers, none) => { k with modifiers := modifiers }
  | (modifiers, some c) => { k with modifiers := modifiers }.bufferPut c

end Keyboard

/-- The function that was called; `keyboard_read` with what it was asked for and what it has read. -/
inductive KeyboardCall where
  | getchar
  | read (n count : Nat)
deriving Repr, DecidableEq

/-- What has been read so far of the two variables that are compared. -/
inductive Operands where
  | none
  | head (value : Nat)
  | tail (value : Nat)
deriving Repr, DecidableEq

/-- What the consumer reads or writes next. -/
inductive Phase where
  /-- The comparison of `keyboard_available`. -/
  | available (operands : Operands)
  /-- The comparison of `buffer_get`. -/
  | get (operands : Operands)
  /-- The index of the character. -/
  | index
  | char (tail : Nat)
  /-- The index to move. -/
  | next (c : BitVec 8)
  | advance (c : BitVec 8) (tail : Nat)
deriving Repr, DecidableEq

/-- The driver, where the consumer is in which call, the characters that `buffer_put` has stored and
those that the consumer has been given. -/
structure KeyboardSystem where
  keyboard : Keyboard
  consumer : Option (KeyboardCall × Phase)
  accepted : List (BitVec 8)
  returned : List (BitVec 8)

inductive KeyboardEvent where
  | scancode (value : BitVec 8)
  | getchar
  | read (n : Nat)
  /-- The consumer's next access. C leaves open which of two operands is read first. -/
  | access (headFirst : Bool)
deriving Repr, DecidableEq

namespace KeyboardSystem

/-- The other operand, and the comparison; or the first operand. -/
def compare (k : Keyboard) (headFirst : Bool) : Operands → Operands ⊕ Bool
  | .none => .inl (if headFirst then .head k.bufferHead else .tail k.bufferTail)
  | .head value => .inr (value ≠ k.bufferTail)
  | .tail value => .inr (k.bufferHead ≠ value)

/-- `buffer_get` returns. -/
def receive (s : KeyboardSystem) (call : KeyboardCall) (c : BitVec 8) : KeyboardSystem :=
  { s with
    returned := s.returned ++ [c]
    consumer :=
      match call with
      | .getchar => none
      | .read n count =>
          if count + 1 < n then some (.read n (count + 1), .available .none) else none }

def access (s : KeyboardSystem) (headFirst : Bool) : KeyboardSystem :=
  match s.consumer with
  | none => s
  | some (call, .available operands) =>
      match compare s.keyboard headFirst operands with
      | .inl operands => { s with consumer := some (call, .available operands) }
      | .inr true => { s with consumer := some (call, .get .none) }
      | .inr false =>
          match call with
          | .getchar => { s with consumer := some (.getchar, .available .none) }
          | .read _ _ => { s with consumer := none }
  | some (call, .get operands) =>
      match compare s.keyboard headFirst operands with
      | .inl operands => { s with consumer := some (call, .get operands) }
      | .inr true => { s with consumer := some (call, .index) }
      | .inr false => s.receive call 0
  | some (call, .index) => { s with consumer := some (call, .char s.keyboard.bufferTail) }
  | some (call, .char tail) => { s with consumer := some (call, .next (s.keyboard.keyBuffer tail)) }
  | some (call, .next c) => { s with consumer := some (call, .advance c s.keyboard.bufferTail) }
  | some (call, .advance c tail) =>
      { s with
        keyboard :=
          { s.keyboard with bufferTail := (tail + 1) % keyboardBufferSize } }.receive call c

/-- A call while another one has not returned is not one that a single consumer makes. -/
def step (s : KeyboardSystem) : KeyboardEvent → KeyboardSystem
  | .scancode value =>
      { s with
        keyboard := s.keyboard.keyboardHandler value
        accepted :=
          match (s.keyboard.modifiers.keyPress value).2 with
          | none => s.accepted
          | some c =>
              if (s.keyboard.bufferPut c).bufferHead ≠ s.keyboard.bufferHead then s.accepted ++ [c]
              else s.accepted }
  | .getchar =>
      if s.consumer = none then { s with consumer := some (.getchar, .available .none) } else s
  | .read n =>
      if s.consumer = none ∧ 0 < n then { s with consumer := some (.read n 0, .available .none) }
      else s
  | .access headFirst => s.access headFirst

def run (s : KeyboardSystem) (events : List KeyboardEvent) : KeyboardSystem := events.foldl step s

def start (k : Keyboard) : KeyboardSystem := ⟨k.keyboardInit, none, [], []⟩

end KeyboardSystem

end SimpleOs
