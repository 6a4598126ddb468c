import SimpleOs.Lib.X86

/-!
# The page walk of x86-64

Translation through four levels of tables, from level 3 (PML4) down to level 0 (PT), as the processor
does it on tables whose reserved bits are clear. `entries` are the entries that one walk reads, and
`lay` puts the entries of a walk into a memory at the places where a given address looks for them.
-/

namespace X86.Paging

def Present (e : Word) : Prop := e &&& 1#64 ≠ 0

/-- Bits 12 to 51 of an entry or of CR3. -/
def address (e : Word) : Word := e &&& 0x000FFFFFFFFFF000#64

/-- The entry of level `n` maps a page: of 4 KiB in level 0, and with bit 7 of 2 MiB in level 1 and of
1 GiB in level 2. -/
def MapsPage (n : Nat) (e : Word) : Prop := n = 0 ∨ (n = 1 ∨ n = 2) ∧ e &&& 0x80#64 ≠ 0

/-- Bits 47 to 63 are all the same. -/
def Canonical (virt : Word) : Prop := virt.toNat < 2 ^ 47 ∨ 2 ^ 64 - 2 ^ 47 ≤ virt.toNat

def index (n : Nat) (virt : Word) : Word := (virt >>> (12 + 9 * n)) &&& 0x1FF#64

/-- The bits of an address that a page mapped in level `n` does not translate. -/
def offsetMask (n : Nat) : Word := BitVec.ofNat 64 (2 ^ (12 + 9 * n) - 1)

/-- Where `virt` looks in the table of level `n` that `t` points to. -/
def cell (t : Word) (n : Nat) (virt : Word) : Word := address t + 8#64 * index n virt

instance (e : Word) : Decidable (Present e) := inferInstanceAs (Decidable (_ ≠ _))

instance (virt : Word) : Decidable (Canonical virt) := inferInstanceAs (Decidable (_ ∨ _))

instance (n : Nat) (e : Word) : Decidable (MapsPage n e) := inferInstanceAs (Decidable (_ ∨ _))

def frame (n : Nat) (e virt : Word) : Word :=
  (address e &&& ~~~offsetMask n) ||| (virt &&& offsetMask n)

/-- The physical address of `virt`, from the table of level `n` that `t` points to. -/
def walk (m : ByteMemory) (virt : Word) : Nat → Word → Option Word
  | 0, t =>
      let e := load m (cell t 0 virt)
      if Present e then some (frame 0 e virt) else none
  | n + 1, t =>
      let e := load m (cell t (n + 1) virt)
      if Present e then
        if MapsPage (n + 1) e then some (frame (n + 1) e virt) else walk m virt n e
      else none

/-- The entries that the walk reads. -/
def entries (m : ByteMemory) (virt : Word) : Nat → Word → List Word
  | 0, t => [load m (cell t 0 virt)]
  | n + 1, t =>
      let e := load m (cell t (n + 1) virt)
      if Present e ∧ ¬MapsPage (n + 1) e then e :: entries m virt n e else [e]

/-- Access is what all entries of the walk allow: in user mode with bit 2, for writing with bit 1, and
for execution without bit 63. -/
def UserAllowed (es : List Word) : Prop := ∀ e ∈ es, e.getLsbD 2 = true

def WriteAllowed (es : List Word) : Prop := ∀ e ∈ es, e.getLsbD 1 = true

def ExecuteAllowed (es : List Word) : Prop := ∀ e ∈ es, e.getLsbD 63 = false

variable {m m' : ByteMemory} {virt virt' t e p a : Word} {n j : Nat} {es : List Word}

theorem toNat_and_ones {k : Nat} (hk : k < 64) (x : Word) :
    (x &&& BitVec.ofNat 64 (2 ^ k - 1)).toNat = x.toNat % 2 ^ k := by
  have hlt : 2 ^ k - 1 < 2 ^ 64 := by
    have hpow := Nat.pow_lt_pow_right (a := 2) (by decide) hk
    omega
  rw [BitVec.toNat_and, BitVec.toNat_ofNat, Nat.mod_eq_of_lt hlt, Nat.and_two_pow_sub_one_eq_mod]

theorem toNat_index (n : Nat) (virt : Word) :
    (index n virt).toNat = virt.toNat / 2 ^ (12 + 9 * n) % 512 := by
  have hlow : (index n virt).toNat = (virt >>> (12 + 9 * n)).toNat % 512 :=
    toNat_and_ones (k := 9) (by decide) _
  rw [hlow, BitVec.toNat_ushiftRight, Nat.shiftRight_eq_div_pow]

theorem toNat_address (e : Word) : (address e).toNat = e.toNat % 2 ^ 52 / 2 ^ 12 * 2 ^ 12 := by
  have hmask : (0x000FFFFFFFFFF000#64 : Word) =
      BitVec.ofNat 64 (2 ^ 52 - 1) &&& (BitVec.allOnes 64 <<< 12) := by decide
  have hlt := e.isLt
  rw [address, hmask, ← BitVec.and_assoc, ← BitVec.shiftLeft_ushiftRight, BitVec.toNat_shiftLeft,
    BitVec.toNat_ushiftRight, toNat_and_ones (by decide), Nat.shiftLeft_eq,
    Nat.shiftRight_eq_div_pow]
  omega

/-- A table is in a page of its own below `2 ^ 52`, and its entries follow each other. -/
theorem toNat_cell (t : Word) (n : Nat) (virt : Word) :
    (cell t n virt).toNat = (address t).toNat + 8 * (index n virt).toNat := by
  have haddress := toNat_address t
  have hindex := toNat_index n virt
  rw [cell, BitVec.toNat_add, BitVec.toNat_mul, BitVec.toNat_ofNat]
  omega

theorem and_twoPow_eq_zero (x : Word) {k : Nat} (hk : k < 64) :
    x &&& BitVec.twoPow 64 k = 0 ↔ x.getLsbD k = false := by
  have hne : BitVec.twoPow 64 k ≠ 0#64 := by
    intro hzero
    have hbit := congrArg (BitVec.getLsbD · k) hzero
    simp [hk] at hbit
  rw [BitVec.and_twoPow]
  cases x.getLsbD k <;> simp [hne]

theorem present_iff : Present e ↔ e.getLsbD 0 = true := by
  rw [Present, ne_eq, show (1#64 : Word) = BitVec.twoPow 64 0 from rfl,
    and_twoPow_eq_zero e (by decide), Bool.not_eq_false]

/-- The lowest bit of each byte of a word. -/
theorem getLsbD_load (m : ByteMemory) (a : Word) {i : Nat} (hi : i < 8) :
    (load m a).getLsbD (8 * i) = (m ((a.toNat + i) % 2 ^ 64)).getLsbD 0 := by
  have hbits : 8 * i < 64 := by omega
  rw [load, BitVec.getLsbD_ofNat, ByteMemory.testBit_read hi]
  simp [hbits]

theorem toNat_offset (n : Nat) (hn : n ≤ 3) (virt : Word) :
    (virt &&& offsetMask n).toNat = virt.toNat % 2 ^ (12 + 9 * n) :=
  toNat_and_ones (by omega) virt

theorem frame_lt (hn : n ≤ 3) (e virt : Word) : (frame n e virt).toNat < 2 ^ 52 := by
  have hbase : (address e &&& ~~~offsetMask n).toNat ≤ (address e).toNat := by
    rw [BitVec.toNat_and]
    exact Nat.and_le_left
  have haddress := toNat_address e
  have hoffset := toNat_offset n hn virt
  have hpow : 2 ^ (12 + 9 * n) ≤ 2 ^ 52 := Nat.pow_le_pow_right (by decide) (by omega)
  have hmod : virt.toNat % 2 ^ (12 + 9 * n) < 2 ^ (12 + 9 * n) := Nat.mod_lt _ (by positivity)
  rw [frame, BitVec.toNat_or]
  apply Nat.or_lt_two_pow <;> omega

theorem getLsbD_frame (hn : n ≤ 3) (e virt : Word) : (frame n e virt).getLsbD 0 = virt.getLsbD 0 := by
  have hlow : (offsetMask n).getLsbD 0 = true := by
    interval_cases n <;> decide
  rw [frame, BitVec.getLsbD_or, BitVec.getLsbD_and, BitVec.getLsbD_and, BitVec.getLsbD_not, hlow]
  simp

theorem exists_frame_of_walk (h : walk m virt n t = some p) :
    ∃ j ≤ n, ∃ e, p = frame j e virt := by
  induction n generalizing t with
  | zero =>
      rw [walk, Option.ite_none_right_eq_some] at h
      exact ⟨0, le_rfl, _, (Option.some_inj.mp h.2).symm⟩
  | succ n ih =>
      rw [walk, Option.ite_none_right_eq_some] at h
      obtain ⟨-, h⟩ := h
      split at h
      · exact ⟨n + 1, le_rfl, _, (Option.some_inj.mp h).symm⟩
      · obtain ⟨j, hj, e, he⟩ := ih h
        exact ⟨j, by omega, e, he⟩

theorem walk_eq_none_iff : walk m virt n t = none ↔ ∃ e ∈ entries m virt n t, ¬Present e := by
  induction n generalizing t with
  | zero => simp [walk, entries]
  | succ n ih =>
      rw [walk, entries]
      by_cases hpresent : Present (load m (cell t (n + 1) virt))
      · by_cases hpage : MapsPage (n + 1) (load m (cell t (n + 1) virt)) <;>
          simp [hpresent, hpage, ih]
      · simp [hpresent]

theorem length_entries_le : (entries m virt n t).length ≤ n + 1 := by
  induction n generalizing t with
  | zero => simp [entries]
  | succ n ih =>
      rw [entries]
      split
      · simpa using ih
      · simp

/-- The places where the walk of `virt` looks if it reads the entries, with the entries. -/
def places (virt : Word) : Nat → Word → List Word → List (Word × Word)
  | _, _, [] => []
  | n, t, e :: es => (cell t n virt, e) :: places virt (n - 1) e es

def lay (m : ByteMemory) (ps : List (Word × Word)) : ByteMemory :=
  ps.foldr (fun p m => store m p.1 p.2) m

/-- A walk of another address reads the same entries if they lie where it looks for them. -/
theorem entries_eq_of_places
    (h : ∀ p ∈ places virt' n t (entries m virt n t), load m' p.1 = p.2) :
    entries m' virt' n t = entries m virt n t := by
  induction n generalizing t with
  | zero =>
      have hhead := h (cell t 0 virt', load m (cell t 0 virt)) (by simp [entries, places])
      simp only [entries, hhead]
  | succ n ih =>
      have hhead : load m' (cell t (n + 1) virt') = load m (cell t (n + 1) virt) := by
        apply h (cell t (n + 1) virt', load m (cell t (n + 1) virt))
        rw [entries]
        split <;> simp [places]
      rw [entries, entries, hhead]
      split
      · rename_i hgoes
        congr 1
        apply ih
        intro p hp
        apply h
        rw [entries, if_pos hgoes]
        exact List.mem_cons_of_mem _ hp
      · rfl

theorem exists_cell_of_mem_places {p : Word × Word} (hlen : es.length ≤ n + 1)
    (h : p ∈ places virt n t es) :
    ∃ t' j, j ≤ n ∧ n < j + es.length ∧ (j = n → t' = t) ∧ p.1 = cell t' j virt := by
  induction es generalizing n t with
  | nil => cases h
  | cons e es ih =>
      rw [List.length_cons] at hlen ⊢
      rw [places, List.mem_cons] at h
      obtain rfl | h := h
      · exact ⟨t, n, le_rfl, by omega, fun _ => rfl, rfl⟩
      · obtain ⟨t', j, hj, hlast, -, heq⟩ := ih (by omega) h
        exact ⟨t', j, by omega, by omega, by omega, heq⟩

theorem cell_ne (h : index n virt ≠ index j virt') (t t' : Word) :
    cell t n virt ≠ cell t' j virt' := by
  intro heq
  apply h
  have hnat := congrArg BitVec.toNat heq
  rw [toNat_cell, toNat_cell] at hnat
  have haddress := toNat_address t
  have haddress' := toNat_address t'
  have hindex := toNat_index n virt
  have hindex' := toNat_index j virt'
  apply BitVec.eq_of_toNat_eq
  omega

/-- Different cells do not overlap, since all of them are at multiples of 8. -/
theorem cell_apart {t' : Word} (h : cell t n virt ≠ cell t' j virt') :
    (cell t n virt).toNat + 8 ≤ (cell t' j virt').toNat ∨
      (cell t' j virt').toNat + 8 ≤ (cell t n virt).toNat := by
  have hne := mt BitVec.eq_of_toNat_eq h
  have haddress := toNat_address t
  have haddress' := toNat_address t'
  rw [toNat_cell, toNat_cell] at hne ⊢
  omega

theorem cell_lt (t : Word) (n : Nat) (virt : Word) : (cell t n virt).toNat + 8 ≤ 2 ^ 52 := by
  have haddress := toNat_address t
  have hindex := toNat_index n virt
  rw [toNat_cell]
  omega

theorem load_store_cell {t' v : Word} (h : cell t n virt ≠ cell t' j virt') :
    load (store m (cell t' j virt') v) (cell t n virt) = load m (cell t n virt) := by
  have hcell := cell_lt t n virt
  have hcell' := cell_lt t' j virt'
  rw [load, store, load, ByteMemory.read_write_of_apart]
  exact ByteMemory.apart_of_le (by omega) (by omega) (cell_apart h)

theorem load_lay_of_mem {q : Word × Word} (hlen : es.length ≤ n + 1)
    (hindex : ∀ i j, i ≤ n → j < i → index i virt ≠ index j virt)
    (hq : q ∈ places virt n t es) : load (lay m (places virt n t es)) q.1 = q.2 := by
  induction es generalizing n t with
  | nil => cases hq
  | cons e es ih =>
      rw [List.length_cons] at hlen
      rw [places, List.mem_cons] at hq
      change load (store (lay m (places virt (n - 1) e es)) (cell t n virt) e) q.1 = q.2
      obtain rfl | hq := hq
      · exact load_store_self
      · obtain ⟨t', j, hj, hlast, -, heq⟩ := exists_cell_of_mem_places (by omega) hq
        have hne : cell t' j virt ≠ cell t n virt := (cell_ne (hindex n j le_rfl (by omega)) t t').symm
        rw [heq, load_store_cell hne, ← heq]
        exact ih (by omega) (fun i j hi hj => hindex i j (by omega) hj) hq

/-- Every list of entries that some walk reads is read by the walk of any other address whose indices
differ from each other. -/
theorem entries_lay (m m' : ByteMemory) (virt t : Word)
    (hindex : ∀ i j, i ≤ n → j < i → index i virt' ≠ index j virt') :
    entries (lay m' (places virt' n t (entries m virt n t))) virt' n t = entries m virt n t :=
  entries_eq_of_places fun _ hp => load_lay_of_mem length_entries_le hindex hp

/-- A byte outside the entries is left as it was. -/
theorem lay_apply (m : ByteMemory) {x : Nat} (hlen : es.length ≤ n + 1)
    (h : ∀ t' j, j ≤ n → n < j + es.length → (j = n → t' = t) →
      x < (cell t' j virt).toNat ∨ (cell t' j virt).toNat + 8 ≤ x) :
    lay m (places virt n t es) x = m x := by
  have hplaces (q : Word × Word) (hq : q ∈ places virt n t es) :=
    exists_cell_of_mem_places hlen hq
  generalize places virt n t es = ps at hplaces
  induction ps with
  | nil => rfl
  | cons q ps ih =>
      rw [← ih fun q hq => hplaces q (List.mem_cons_of_mem _ hq)]
      obtain ⟨t', j, hj, hlast, htop, heq⟩ := hplaces q List.mem_cons_self
      have houtside := h t' j hj hlast htop
      change store (lay m ps) q.1 q.2 x = _
      rw [store, heq]
      apply ByteMemory.write_apply_of_outside
      intro i hi
      have hcell := cell_lt t' j virt
      omega

end X86.Paging
