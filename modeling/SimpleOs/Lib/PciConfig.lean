import SimpleOs.Lib.PortDevice

/-!
# Configuration space

The registers that the functions on PCI buses have, and the two ports by which a PC gets at them: an address
is written to the first one, and the second one is then the register at that address. Every other access
goes to the rest of the machine.
-/

/-- Where a register is. The numbers count registers of 32 bits. -/
structure PciRegister where
  bus : BitVec 8
  device : BitVec 5
  func : BitVec 3
  number : BitVec 6
deriving Repr, DecidableEq

/-- The register that an address selects. -/
def PciRegister.ofAddress (a : BitVec 32) : PciRegister where
  bus := a.extractLsb' 16 8
  device := a.extractLsb' 11 5
  func := a.extractLsb' 8 3
  number := a.extractLsb' 2 6

/-- What the functions make of accesses of their registers. -/
structure PciSpace (σ : Type) where
  read : σ → PciRegister → BitVec 32
  write : σ → PciRegister → BitVec 32 → σ

namespace PciSpace

open PortDevice (ofNat_toNat_self)

variable {σ α β : Type} (space : PciSpace σ) (rest : PortDevice σ)

/-- The machine with the address that was written last. The highest bit of an address enables it. -/
def host : PortDevice (BitVec 32 × σ) where
  answer s port w :=
    if port = 0xCFC ∧ w = 32 then
      if s.1.msb then (space.read s.2 (.ofAddress s.1)).toNat else 2 ^ 32 - 1
    else rest.answer s.2 port w
  access s a :=
    match a with
    | .write port w value =>
        if port = 0xCF8 ∧ w = 32 then (BitVec.ofNat 32 value, s.2)
        else if port = 0xCFC ∧ w = 32 then
          (s.1, if s.1.msb then space.write s.2 (.ofAddress s.1) (BitVec.ofNat 32 value) else s.2)
        else (s.1, rest.access s.2 a)
    | .read port w => if port = 0xCFC ∧ w = 32 then s else (s.1, rest.access s.2 a)

/-- Whatever address was written last, the computation comes to `a` and takes the machine from `s` to
`s'`. -/
def Gives (x : Ported α) (s : σ) (a : α) (s' : σ) : Prop :=
  ∀ address, ∃ address', (space.host rest).Yields x (address, s) a (address', s')

variable {space rest} {s s' s'' : σ} {a : α} {b : β} {x : Ported α} {f : α → Ported β}

theorem gives_pure : space.Gives rest (pure a) s a s := fun address => ⟨address, PortDevice.yields_pure⟩

theorem Gives.bind (hx : space.Gives rest x s a s') (hf : space.Gives rest (f a) s' b s'') :
    space.Gives rest (x >>= f) s b s'' := by
  intro address
  obtain ⟨address', hfirst⟩ := hx address
  obtain ⟨address'', hsecond⟩ := hf address'
  exact ⟨address'', hfirst.bind hsecond⟩

theorem Gives.map (hx : space.Gives rest x s a s') (g : α → β) :
    space.Gives rest (g <$> x) s (g a) s' := by
  rw [map_eq_pure_bind]
  exact hx.bind gives_pure

theorem Gives.exec (h : space.Gives rest x s a s') (address : BitVec 32) :
    ((space.host rest).exec x (address, s)).1 = a ∧ ((space.host rest).exec x (address, s)).2.2 = s' := by
  obtain ⟨address', hyields⟩ := h address
  rw [hyields.exec_eq]
  exact ⟨rfl, rfl⟩

variable {before address v : BitVec 32}

theorem yields_address : (space.host rest).Yields (Ported.outl 0xCF8 address) (before, s) () (address, s) := by
  have hwritten : (space.host rest).access (before, s) (.write 0xCF8 32 address.toNat) = (address, s) :=
    congrArg (·, s) (ofNat_toNat_self address)
  have hyields : (space.host rest).Yields (Ported.outl 0xCF8 address) (before, s) () _ :=
    PortDevice.yields_output
  rwa [hwritten] at hyields

theorem yields_data (henabled : address.msb = true) : (space.host rest).Yields (Ported.inl 0xCFC)
    (address, s) (space.read s (.ofAddress address)) (address, s) := by
  have hvalue : (space.host rest).answer (address, s) 0xCFC 32 =
      (space.read s (.ofAddress address)).toNat := if_pos henabled
  have hyields : (space.host rest).Yields (Ported.input 32 0xCFC) (address, s)
      (BitVec.ofNat 32 ((space.host rest).answer (address, s) 0xCFC 32)) (address, s) :=
    PortDevice.yields_input
  rwa [hvalue, ofNat_toNat_self] at hyields

theorem yields_writeData (henabled : address.msb = true) : (space.host rest).Yields (Ported.outl 0xCFC v)
    (address, s) () (address, space.write s (.ofAddress address) v) := by
  have hstate : (space.host rest).access (address, s) (.write 0xCFC 32 v.toNat) =
      (address, space.write s (.ofAddress address) v) := by
    change (address, if address.msb then _ else _) = _
    rw [if_pos henabled, ofNat_toNat_self]
  have hyields : (space.host rest).Yields (Ported.outl 0xCFC v) (address, s) () _ :=
    PortDevice.yields_output
  rwa [hstate] at hyields

theorem gives_read (henabled : address.msb = true) (g : BitVec 32 → α) :
    space.Gives rest (do
        Ported.outl 0xCF8 address
        let value ← Ported.inl 0xCFC
        return g value) s
      (g (space.read s (.ofAddress address))) s :=
  fun _ => ⟨address, yields_address.bind ((yields_data henabled).bind PortDevice.yields_pure)⟩

/-- The register is read, and then written. -/
theorem gives_modify (henabled : address.msb = true) (g : BitVec 32 → BitVec 32) :
    space.Gives rest (do
        Ported.outl 0xCF8 address
        let value ← Ported.inl 0xCFC
        Ported.outl 0xCFC (g value)) s ()
      (space.write s (.ofAddress address) (g (space.read s (.ofAddress address)))) :=
  fun _ => ⟨address, yields_address.bind ((yields_data henabled).bind (yields_writeData henabled))⟩

variable {port : BitVec 16} {w : Nat}

theorem gives_input (hport : port ≠ 0xCFC ∨ w ≠ 32) :
    space.Gives rest (Ported.input w port) s (BitVec.ofNat w (rest.answer s port w))
      (rest.access s (.read port w)) := by
  intro address
  have hnot : ¬(port = 0xCFC ∧ w = 32) := not_and_or.mpr hport
  have hyields : (space.host rest).Yields (Ported.input w port) (address, s) _ _ := PortDevice.yields_input
  simp only [host, if_neg hnot] at hyields
  exact ⟨address, hyields⟩

theorem gives_output {v : BitVec w} (hport : port ≠ 0xCF8 ∧ port ≠ 0xCFC ∨ w ≠ 32) :
    space.Gives rest (Ported.output port v) s () (rest.access s (.write port w v.toNat)) := by
  intro address
  have hnot : ¬(port = 0xCF8 ∧ w = 32) ∧ ¬(port = 0xCFC ∧ w = 32) := by
    obtain ⟨haddress, hdata⟩ | hw := hport
    · exact ⟨fun h => haddress h.1, fun h => hdata h.1⟩
    · exact ⟨fun h => hw h.2, fun h => hw h.2⟩
  have hyields : (space.host rest).Yields (Ported.output port v) (address, s) _ _ := PortDevice.yields_output
  simp only [host, if_neg hnot.1, if_neg hnot.2] at hyields
  exact ⟨address, hyields⟩

theorem take_append_of_take {l l' : List α} {n : Nat} : (l.take n ++ l').take n = (l ++ l').take n := by
  rw [List.take_append, List.take_append, List.take_take, min_self, List.length_take]
  congr 2
  omega

/-- A loop that appends to a list as long as there is room. -/
theorem gives_foldlM_take {ι : Type} {step : List α → ι → Ported (List α)} {chunk : ι → List α} {n : Nat}
    {is : List ι} {l : List α} (hl : l.length ≤ n)
    (hstep : ∀ i ∈ is, ∀ l : List α, l.length ≤ n →
      space.Gives rest (step l i) s ((l ++ chunk i).take n) s) :
    space.Gives rest (is.foldlM step l) s ((l ++ is.flatMap chunk).take n) s := by
  induction is generalizing l with
  | nil =>
      rw [List.flatMap_nil, List.append_nil, List.take_of_length_le hl]
      exact gives_pure
  | cons i is ih =>
      have hfirst := hstep i List.mem_cons_self l hl
      have hrest := ih (List.length_take_le n (l ++ chunk i)) fun j hj => hstep j (List.mem_cons_of_mem i hj)
      rw [take_append_of_take, List.append_assoc] at hrest
      rw [List.foldlM_cons, List.flatMap_cons]
      exact hfirst.bind hrest

end PciSpace
