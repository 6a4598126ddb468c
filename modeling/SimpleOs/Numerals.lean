import SimpleOs.Drivers.Keyboard
import SimpleOs.Lib.Text
import SimpleOs.Lib.Word

/-!
# Numbers as text

`print_dec` and `print_hex` of `kernel/kernel.c`, `int_to_str` of `boot/graphics.h` and `parse_uint` of
`kernel/shell/shell.c`. What is printed is given as the characters that `console_print` reads.
-/

namespace SimpleOs

/-- The arrays `buf` of the two functions that print, the array `tmp` and the parameter `buf` of
`int_to_str`. -/
inductive TextBuffer where
  | buf
  | tmp
  | out
deriving Repr, DecidableEq

abbrev Text := List (BitVec 8)

def hexChars : Text := "0123456789ABCDEF".toList.map ascii

def hexChar (digit : Nat) : BitVec 8 := hexChars.getD digit 0

open Traced

/-- `'0' + (num % 10)`. -/
def lastDigit (num : BitVec 64) : BitVec 8 := ((ascii '0').setWidth 64 + num % 10#64).setWidth 8

theorem toNat_div_ten_lt {num : BitVec 64} (h : num > 0#64) : (num / 10#64).toNat < num.toNat :=
  Nat.div_lt_self h (by decide)

/-- The loop of `print_dec`, with `p` as the index in `buf`. -/
def decDigits (num : BitVec 64) (p : Nat) (m : ByteMemory) : Traced TextBuffer (ByteMemory × Nat) :=
  if num > 0#64 then do
    let p := wsub p 1
    let m ← store .buf m p (lastDigit num)
    decDigits (num / 10#64) p m
  else pure (m, p)
termination_by num.toNat
decreasing_by exact toNat_div_ten_lt ‹_›

/-- `stack` is what `buf` holds before it is written. -/
def printDec (stack : ByteMemory) (num : BitVec 64) : Traced TextBuffer (Option Text) := do
  let m ← store .buf stack 20 0#8
  if num = 0#64 then pure (some ("0".toList.map ascii))
  else do
    let (m, p) ← decDigits num 20 m
    loadString .buf m p 21

/-- The loop of `print_hex` that fills `buf`, for the indices below the one given. -/
def hexDigits (m : ByteMemory) (num : BitVec 64) : Nat → Traced TextBuffer ByteMemory
  | 0 => pure m
  | i + 1 => do
      let m ← store .buf m i (hexChar (num &&& 0xF#64).toNat)
      hexDigits m (num >>> 4) i

/-- The loop of `print_hex` that skips zeros. -/
def skipZeros (m : ByteMemory) (p : Nat) : Nat → Traced TextBuffer (Option Nat)
  | 0 => pure none
  | n + 1 => do
      let c ← load .buf m p 8
      if c = ascii '0' then
        let next ← load .buf m (p + 1) 8
        if next ≠ 0 then skipZeros m (p + 1) n else pure (some p)
      else pure (some p)

/-- `stack` is what `buf` holds before it is written. -/
def printHex (stack : ByteMemory) (num : BitVec 64) : Traced TextBuffer (Option Text) := do
  let m ← store .buf stack 16 0#8
  let m ← hexDigits m num 16
  match ← skipZeros m 0 17 with
  | none => pure none
  | some p =>
      let text ← loadString .buf m p 17
      pure (text.map ("0x".toList.map ascii ++ ·))

/-- The first loop of `int_to_str`. -/
def fillTmp (num : BitVec 64) (i : Nat) (tmp : ByteMemory) : Traced TextBuffer (ByteMemory × Nat) :=
  if num > 0#64 then do
    let tmp ← store .tmp tmp i (lastDigit num)
    fillTmp (num / 10#64) (i + 1) tmp
  else pure (tmp, i)
termination_by num.toNat
decreasing_by exact toNat_div_ten_lt ‹_›

/-- The second loop of `int_to_str`, with the index it leaves in `j`. -/
def copyBack (tmp : ByteMemory) : Nat → Nat → ByteMemory → Traced TextBuffer (ByteMemory × Nat)
  | 0, j, buf => pure (buf, j)
  | i + 1, j, buf => do
      let c ← load .tmp tmp i 8
      let buf ← store .out buf j c
      copyBack tmp i (j + 1) buf

/-- `tmp` and `buf` are what the two arrays hold before they are written. -/
def intToStr (tmp buf : ByteMemory) (num : BitVec 64) : Traced TextBuffer ByteMemory :=
  if num = 0#64 then do
    let buf ← store .out buf 0 (ascii '0')
    store .out buf 1 0#8
  else do
    let (tmp, i) ← fillTmp num 0 tmp
    let (buf, j) ← copyBack tmp i 0 buf
    store .out buf j 0#8

/-- The digit of a character of `parse_uint`, if it is one in that base. -/
def digitOf (base : Nat) (c : BitVec 8) : Option (BitVec 8) :=
  if charBetween c '0' '9' then some (c - ascii '0')
  else if base = 16 ∧ charBetween c 'a' 'f' then some (10 + c - ascii 'a')
  else if base = 16 ∧ charBetween c 'A' 'F' then some (10 + c - ascii 'A')
  else none

/-- The loop of `parse_uint` and what follows it: the value that is returned, and `*ok`. -/
def parseDigits (base : Nat) : Text → BitVec 64 → BitVec 64 × Bool
  | [], value => (value, true)
  | c :: s, value =>
      match digitOf base c with
      | some digit => parseDigits base s (value * BitVec.ofNat 64 base + digit.setWidth 64)
      | none => (0#64, false)

/-- `none` is `NULL`. -/
def parseUint : Option CString → BitVec 64 × Bool
  | none => (0#64, false)
  | some s =>
      if s.byte 0 = 0 then (0#64, false)
      else if s.byte 0 = ascii '0' ∧ (s.byte 1 = ascii 'x' ∨ s.byte 1 = ascii 'X') then
        parseDigits 16 (s.bytes.drop 2) 0#64
      else parseDigits 10 s.bytes 0#64

end SimpleOs
