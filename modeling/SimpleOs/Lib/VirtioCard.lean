import SimpleOs.Lib.PciConfig

/-!
# A network card behind ports

A legacy virtio network card as a function on a PCI bus. It is at the ports that its first base address
register names, as long as its command register lets it, and a driver tells it through them how far it has
got.
-/

/-- The registers of the card's function that can be written are `command` and `pciStatus`, of which the
bits that are written are cleared; `registers` are all others of all functions. -/
structure VirtioCard where
  bus : BitVec 8
  device : BitVec 5
  func : BitVec 3
  registers : PciRegister → BitVec 32
  command : BitVec 16
  pciStatus : BitVec 16
  hostFeatures : BitVec 32
  guestFeatures : BitVec 32
  status : BitVec 8
  mac : Nat → BitVec 8

namespace VirtioCard

variable (c : VirtioCard)

def register (number : BitVec 6) : PciRegister := ⟨c.bus, c.device, c.func, number⟩

def bar0 : BitVec 32 := c.registers (c.register 4)

/-- The first of the card's ports. -/
def base : BitVec 16 := (c.bar0 &&& 0xFFFC#32).setWidth 16

def commandAndStatus : BitVec 32 := (c.pciStatus.setWidth 32 <<< 16) ||| c.command.setWidth 32

def space : PciSpace VirtioCard where
  read c r := if r = c.register 1 then c.commandAndStatus else c.registers r
  write c r v :=
    if r = c.register 1 then
      { c with command := v.setWidth 16, pciStatus := c.pciStatus &&& ~~~v.extractLsb' 16 16 }
    else c

/-- The card answers to accesses of its ports. -/
def Enabled : Prop := c.bar0.getLsbD 0 = true ∧ c.command.getLsbD 0 = true

instance : Decidable c.Enabled := inferInstanceAs (Decidable (_ ∧ _))

def writeStatus (v : BitVec 8) : VirtioCard :=
  if v = 0 then { c with status := 0, guestFeatures := 0 } else { c with status := v }

def ports : PortDevice VirtioCard where
  answer c port w :=
    if ¬c.Enabled then 2 ^ w - 1
    else if w = 32 ∧ port = c.base + 0x00 then c.hostFeatures.toNat
    else if w = 32 ∧ port = c.base + 0x04 then c.guestFeatures.toNat
    else if w = 8 ∧ port = c.base + 0x12 then c.status.toNat
    else if w = 8 ∧ 0x14 ≤ (port - c.base).toNat ∧ (port - c.base).toNat < 0x14 + 6 then
      (c.mac ((port - c.base).toNat - 0x14)).toNat
    else 2 ^ w - 1
  access c a :=
    match a with
    | .read _ _ => c
    | .write port w value =>
        if ¬c.Enabled then c
        else if w = 32 ∧ port = c.base + 0x04 then { c with guestFeatures := BitVec.ofNat 32 value }
        else if w = 8 ∧ port = c.base + 0x12 then c.writeStatus (BitVec.ofNat 8 value)
        else c

/-- The machine with the card. -/
abbrev host : PortDevice (BitVec 32 × VirtioCard) := space.host ports

variable {c} {α β : Type}

/-- Accesses that are not of PCI registers go to the card. -/
abbrev Gives (x : Ported α) (c : VirtioCard) (a : α) (c' : VirtioCard) : Prop := space.Gives ports x c a c'

/-- The ports of a card are aligned. -/
structure Ready (c : VirtioCard) : Prop where
  enabled : c.Enabled
  aligned : c.base &&& 0x1F = 0

namespace Ready

/-- None of the card's ports is one that is aligned in another way. -/
theorem base_add_ne (h : c.Ready) {n port : BitVec 16} (hport : (port - n) &&& 0x1F ≠ 0) : c.base + n ≠ port := by
  rintro rfl
  rw [BitVec.add_sub_cancel] at hport
  exact hport h.aligned

theorem features (h : c.Ready) : Gives (Ported.inl (c.base + 0x00)) c c.hostFeatures c := by
  have hport : c.base + 0x00 ≠ 0xCFC := h.base_add_ne (by decide)
  have hgives : Gives (Ported.inl (c.base + 0x00)) c _ _ := PciSpace.gives_input (Or.inl hport)
  have hanswer : ports.answer c (c.base + 0x00) 32 = c.hostFeatures.toNat := by
    simp only [ports, h.enabled, not_true_eq_false, if_false, and_self, if_true]
  rwa [hanswer, PortDevice.ofNat_toNat_self] at hgives

theorem acceptFeatures (h : c.Ready) (v : BitVec 32) :
    Gives (Ported.outl (c.base + 0x04) v) c () { c with guestFeatures := v } := by
  have haddress : c.base + 0x04 ≠ 0xCF8 := h.base_add_ne (by decide)
  have hdata : c.base + 0x04 ≠ 0xCFC := h.base_add_ne (by decide)
  have hgives : Gives (Ported.outl (c.base + 0x04) v) c _ _ := PciSpace.gives_output (Or.inl ⟨haddress, hdata⟩)
  have haccess : ports.access c (.write (c.base + 0x04) 32 v.toNat) = { c with guestFeatures := v } := by
    simp only [ports, h.enabled, not_true_eq_false, if_false, and_self, if_true, PortDevice.ofNat_toNat_self]
  rwa [haccess] at hgives

theorem status (h : c.Ready) (v : BitVec 8) : Gives (Ported.outb (c.base + 0x12) v) c () (c.writeStatus v) := by
  have hgives : Gives (Ported.outb (c.base + 0x12) v) c _ _ := PciSpace.gives_output (Or.inr (by decide))
  have haccess : ports.access c (.write (c.base + 0x12) 8 v.toNat) = c.writeStatus v := by
    simp [ports, h.enabled]
  rwa [haccess] at hgives

theorem reset (h : c.Ready) :
    Gives (Ported.outb (c.base + 0x12) 0) c () { c with status := 0, guestFeatures := 0 } := h.status 0

theorem setStatus (h : c.Ready) {v : BitVec 8} (hv : v ≠ 0) :
    Gives (Ported.outb (c.base + 0x12) v) c () { c with status := v } := by
  have hgives := h.status v
  rwa [writeStatus, if_neg hv] at hgives

/-- A write to another port that is not aligned as the status is. -/
theorem elsewhere (h : c.Ready) {port : BitVec 16} (hport : (port - 0x12) &&& 0x1F ≠ 0) (v : BitVec 8) :
    Gives (Ported.outb port v) c () c := by
  have hgives : Gives (Ported.outb port v) c _ _ := PciSpace.gives_output (Or.inr (by decide))
  have haccess : ports.access c (.write port 8 v.toNat) = c := by
    have hne : port ≠ c.base + 0x12 := (h.base_add_ne hport).symm
    simp only [ports, h.enabled, hne, not_true_eq_false, and_false, if_false]
    exact if_neg fun hword => absurd hword.1 (by decide)
  rwa [haccess] at hgives

theorem macByte (h : c.Ready) {n : Nat} (hn : n < 6) :
    Gives (Ported.inb (c.base + (0x14 + BitVec.ofNat 16 n))) c (c.mac n) c := by
  have hgives : Gives (Ported.inb (c.base + (0x14 + BitVec.ofNat 16 n))) c _ _ :=
    PciSpace.gives_input (Or.inr (by decide))
  have hoffset : (c.base + (0x14 + BitVec.ofNat 16 n) - c.base).toNat = 0x14 + n := by
    rw [BitVec.add_comm, BitVec.add_sub_cancel]
    interval_cases n <;> rfl
  have hne : c.base + (0x14 + BitVec.ofNat 16 n) ≠ c.base + 0x12 := by
    intro heq
    have hsub : (c.base + (0x14 + BitVec.ofNat 16 n) - c.base).toNat = (c.base + 0x12 - c.base).toNat :=
      congrArg (fun port : BitVec 16 => (port - c.base).toNat) heq
    rw [hoffset, BitVec.add_comm, BitVec.add_sub_cancel] at hsub
    change 20 + n = 18 at hsub
    omega
  have hanswer : ports.answer c (c.base + (0x14 + BitVec.ofNat 16 n)) 8 = (c.mac n).toNat := by
    have hword : ¬(8 = 32) := by decide
    have hin : 0x14 ≤ 0x14 + n ∧ 0x14 + n < 0x14 + 6 := ⟨Nat.le_add_right _ _, Nat.add_lt_add_left hn _⟩
    simp only [ports, h.enabled, not_true_eq_false, if_false, hword, false_and, hne, and_false, hoffset, hin,
      and_self, if_true, Nat.add_sub_cancel_left]
  rwa [hanswer, PortDevice.ofNat_toNat_self] at hgives

end Ready

end VirtioCard
