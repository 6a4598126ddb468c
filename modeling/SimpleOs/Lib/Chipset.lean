import SimpleOs.Lib.PortDevice
import SimpleOs.Lib.Pic8259

/-!
# The chipset of a PC

The interrupt controllers, channel 0 of the 8254 timer and the keyboard controller behind their ports. Other
ports do nothing.
-/

/-- Channel 0 of the timer: its control word, the low byte of a count of which the high byte is still to
come, and the count. -/
structure Pit8254 where
  control : BitVec 8
  low : Option (BitVec 8)
  count : Option (BitVec 16)
deriving Repr, DecidableEq

namespace Pit8254

/-- Words for the other channels and those that latch a count change nothing here. -/
def writeControl (t : Pit8254) (v : BitVec 8) : Pit8254 :=
  if v.extractLsb' 6 2 = 0 ∧ v.extractLsb' 4 2 ≠ 0 then ⟨v, none, none⟩ else t

def writeCounter (t : Pit8254) (v : BitVec 8) : Pit8254 :=
  match (t.control.extractLsb' 4 2).toNat with
  | 1 => { t with count := some (0#8 ++ v) }
  | 2 => { t with count := some (v ++ 0#8) }
  | 3 =>
      match t.low with
      | none => { t with low := some v }
      | some low => { t with low := none, count := some (v ++ low) }
  | _ => t

end Pit8254

structure Chipset where
  pics : PicPair
  pit : Pit8254
  /-- The bytes of the keyboard that have not been read. -/
  scancodes : List (BitVec 8)
deriving Repr, DecidableEq

namespace Chipset

/-- The keyboard sends a byte. The request is for the byte at the front. -/
def key (c : Chipset) (scancode : BitVec 8) : Chipset :=
  { c with
    scancodes := c.scancodes ++ [scancode]
    pics := if c.scancodes = [] then c.pics.request 1 else c.pics }

/-- A device other than the keyboard requests an interrupt. -/
def request (c : Chipset) (line : Nat) : Chipset :=
  if line = 1 then c else { c with pics := c.pics.request line }

def readKeyboard (c : Chipset) : Chipset :=
  { c with
    scancodes := c.scancodes.tail
    pics := if c.scancodes.tail = [] then c.pics else c.pics.request 1 }

/-- The ports 0x20, 0x21, 0xA0 and 0xA1 are those of the controllers, 0x40 and 0x43 those of the timer and
0x60 that of the keyboard. -/
def device : PortDevice Chipset where
  answer c port _ :=
    match port.toNat with
    | 0x20 => c.pics.master.irr.toNat
    | 0x21 => c.pics.master.imr.toNat
    | 0xA0 => c.pics.slave.irr.toNat
    | 0xA1 => c.pics.slave.imr.toNat
    | 0x60 => (c.scancodes.headD 0).toNat
    | _ => 0
  access c
    | .read port _ => if port = 0x60 then c.readKeyboard else c
    | .write port _ value =>
        let v := BitVec.ofNat 8 value
        match port.toNat with
        | 0x20 => { c with pics := { c.pics with master := c.pics.master.writeCommand v } }
        | 0x21 => { c with pics := { c.pics with master := c.pics.master.writeData v } }
        | 0xA0 => { c with pics := { c.pics with slave := c.pics.slave.writeCommand v } }
        | 0xA1 => { c with pics := { c.pics with slave := c.pics.slave.writeData v } }
        | 0x40 => { c with pit := c.pit.writeCounter v }
        | 0x43 => { c with pit := c.pit.writeControl v }
        | _ => c

end Chipset
