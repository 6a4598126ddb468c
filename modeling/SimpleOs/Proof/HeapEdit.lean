import SimpleOs.Proof.HeapChain

/-!
# Splitting and coalescing as edits of the block list
-/

namespace SimpleOs.Heap

variable {m : ByteMemory} {a x size nx : Nat} {f : Field}

theorem splitBlock_eq (hfit : size + 48 ≤ getField m a .size)
    (hend : a + 32 + getField m a .size ≤ 2 ^ 64) :
    splitBlock m a size =
      setField (setField (relinkPrev (setField (setField (setField (setField m
        (a + 32 + size) .size (getField m a .size - size - 32))
        (a + 32 + size) .free 1)
        (a + 32 + size) .next (getField m a .next))
        (a + 32 + size) .prev a)
        (getField m a .next) (a + 32 + size))
        a .size size)
        a .next (a + 32 + size) := by
  have hlt := getField_lt m a .size
  have hfits : ¬ getField m a .size < wadd size minBlockSize := by
    rw [wadd_of_lt (by simp only [minBlockSize_eq]; omega), minBlockSize_eq]
    omega
  have hnew : wadd (wadd a headerSize) size = a + 32 + size := by
    rw [headerSize_eq, wadd_of_lt (a := a) (by omega), wadd_of_lt (by omega)]
  have hsize : wsub (wsub (getField m a .size) size) headerSize =
      getField m a .size - size - 32 := by
    rw [headerSize_eq, wsub_of_le (a := getField m a .size) (by omega) hlt,
      wsub_of_le (by omega) (by omega)]
  have hnext : ∀ m' g v, getField m' a .next = getField m a .next →
      getField (setField m' (a + 32 + size) g v) a .next = getField m a .next := by
    intro m' g v hm'
    rw [getField_setField_of_apart ⟨by omega, by omega, by omega⟩, hm']
  simp only [splitBlock, if_neg hfits, hnew, hsize]
  rw [hnext _ .free 1 (hnext m .size _ rfl), hnext _ .prev a (hnext _ .next _
    (hnext _ .free 1 (hnext m .size _ rfl)))]

def NextPast (e nx : Nat) : Prop := nx = 0 ∨ e ≤ nx ∧ nx + 32 ≤ 2 ^ 64

section Split

variable (hfit : size + 48 ≤ getField m a .size) (hend : a + 32 + getField m a .size ≤ 2 ^ 64)
  (hnx : NextPast (a + 32 + getField m a .size) (getField m a .next))

include hfit hend

theorem getField_splitBlock_of_apart (hx : HeadersApart x a) (hnew : HeadersApart x (a + 32 + size))
    (hnext : getField m a .next = 0 ∨ HeadersApart x (getField m a .next)) :
    getField (splitBlock m a size) x f = getField m x f := by
  rw [splitBlock_eq hfit hend, getField_setField_of_apart hx, getField_setField_of_apart hx,
    getField_relinkPrev_of_apart hnext]
  simp only [getField_setField_of_apart hnew]

include hnx

theorem getField_splitBlock_block :
    getField (splitBlock m a size) a f =
      match f with
      | .size => size
      | .next => a + 32 + size
      | .free => getField m a .free
      | .prev => getField m a .prev := by
  have hlt := getField_lt m a .size
  have hnew : HeadersApart a (a + 32 + size) := ⟨by omega, by omega, by omega⟩
  have hnext : getField m a .next = 0 ∨ HeadersApart a (getField m a .next) :=
    hnx.imp_right fun h => ⟨by omega, by omega, by omega⟩
  have hroom : a + 32 ≤ 2 ^ 64 := by omega
  rw [splitBlock_eq hfit hend]
  cases f with
  | next => exact getField_setField_self (by simp only [Field.width]; omega)
  | size =>
      rw [getField_setField_of_ne (by decide) hroom]
      exact getField_setField_self (by simp only [Field.width]; omega)
  | free =>
      rw [getField_setField_of_ne (by decide) hroom, getField_setField_of_ne (by decide) hroom,
        getField_relinkPrev_of_apart hnext]
      simp only [getField_setField_of_apart hnew]
  | prev =>
      rw [getField_setField_of_ne (by decide) hroom, getField_setField_of_ne (by decide) hroom,
        getField_relinkPrev_of_apart hnext]
      simp only [getField_setField_of_apart hnew]

theorem getField_splitBlock_new :
    getField (splitBlock m a size) (a + 32 + size) f =
      match f with
      | .size => getField m a .size - size - 32
      | .free => 1
      | .next => getField m a .next
      | .prev => a := by
  have hlt := getField_lt m a .size
  have hblock : HeadersApart (a + 32 + size) a := ⟨by omega, by omega, by omega⟩
  have hnext : getField m a .next = 0 ∨ HeadersApart (a + 32 + size) (getField m a .next) :=
    hnx.imp_right fun h => ⟨by omega, by omega, by omega⟩
  have hroom : a + 32 + size + 32 ≤ 2 ^ 64 := by omega
  rw [splitBlock_eq hfit hend, getField_setField_of_apart hblock,
    getField_setField_of_apart hblock, getField_relinkPrev_of_apart hnext]
  cases f with
  | prev => exact getField_setField_self (by simp only [Field.width]; omega)
  | next =>
      rw [getField_setField_of_ne (by decide) hroom]
      exact getField_setField_self (getField_lt m a .next)
  | free =>
      rw [getField_setField_of_ne (by decide) hroom, getField_setField_of_ne (by decide) hroom]
      exact getField_setField_self (by decide)
  | size =>
      rw [getField_setField_of_ne (by decide) hroom, getField_setField_of_ne (by decide) hroom,
        getField_setField_of_ne (by decide) hroom]
      exact getField_setField_self (by simp only [Field.width]; omega)

theorem getField_splitBlock_next (hne : getField m a .next ≠ 0) :
    getField (splitBlock m a size) (getField m a .next) f =
      if f = .prev then a + 32 + size else getField m (getField m a .next) f := by
  have hlt := getField_lt m a .size
  obtain ⟨hpast, hroom⟩ := hnx.resolve_left hne
  have hblock : HeadersApart (getField m a .next) a := ⟨by omega, by omega, by omega⟩
  have hnew : HeadersApart (getField m a .next) (a + 32 + size) := ⟨by omega, by omega, by omega⟩
  rw [splitBlock_eq hfit hend, getField_setField_of_apart hblock,
    getField_setField_of_apart hblock]
  split
  · rename_i hprev
    rw [hprev]
    exact getField_relinkPrev_self hne (by omega)
  · rename_i hprev
    rw [getField_relinkPrev_of_ne hprev hroom]
    simp only [getField_setField_of_apart hnew]

end Split

section Chains

variable {prev s : Nat} {b c : Block} {l₁ l₂ : List Block}

theorem nextPast_of_end {e : Nat} (hend : endOf e l₂ ≤ 2 ^ 64) :
    NextPast e (if l₂ = [] then 0 else e) := by
  cases l₂ with
  | nil => exact Or.inl rfl
  | cons c l₃ =>
      have hle := le_endOf (e + 32 + c.size) l₃
      rw [endOf_cons] at hend
      exact Or.inr ⟨le_rfl, by simp only [reduceCtorEq, if_false]; omega⟩

/-- `split_block` cuts a block that is large enough in two, the second part free. -/
theorem chain_splitBlock (h : Chain m prev s (l₁ ++ b :: l₂) 0)
    (hend : endOf s (l₁ ++ b :: l₂) ≤ 2 ^ 64) (hfit : size + 48 ≤ b.size) :
    Chain (splitBlock m (endOf s l₁) size) prev s
      (l₁ ++ ⟨size, b.free⟩ :: ⟨b.size - size - 32, true⟩ :: l₂) 0 := by
  have hheader := h.header
  rw [endOf_append, endOf_cons] at hend
  have hle := le_endOf (endOf s l₁ + 32 + b.size) l₂
  have hfit' : size + 48 ≤ getField m (endOf s l₁) .size := by rw [hheader.size]; exact hfit
  have hend' : endOf s l₁ + 32 + getField m (endOf s l₁) .size ≤ 2 ^ 64 := by
    rw [hheader.size]; omega
  have hnx : NextPast (endOf s l₁ + 32 + getField m (endOf s l₁) .size)
      (getField m (endOf s l₁) .next) := by
    rw [hheader.size, hheader.next]
    exact nextPast_of_end hend
  have hblock := fun f => getField_splitBlock_block (f := f) hfit' hend' hnx
  have hnew := fun f => getField_splitBlock_new (f := f) hfit' hend' hnx
  have hnext : l₂ ≠ [] → getField m (endOf s l₁) .next = endOf s l₁ + 32 + b.size := by
    intro hne
    rw [hheader.next, if_neg hne]
  refine Chain.edit [b] [⟨size, b.free⟩, ⟨b.size - size - 32, true⟩] h (by simp) (by simp) rfl
    (by simp only [endOf_cons, endOf_nil]; omega) ?_
    ⟨⟨hblock .size, ?_, hblock .next, ?_⟩, ⟨?_, ?_, ?_, hnew .prev⟩, trivial⟩ ?_ ?_
  · intro x f hx
    refine getField_splitBlock_of_apart hfit' hend' ⟨by omega, by omega, by omega⟩
      ⟨by omega, by omega, by omega⟩ ?_
    exact hnx.imp_right fun hpast => ⟨by omega, by omega, by omega⟩
  · rw [hblock .free]
    exact hheader.free
  · rw [hblock .prev, hheader.prev]
  · rw [hnew .size, hheader.size]
  · rw [hnew .free]
    simp
  · rw [hnew .next, hheader.next]
    rfl
  · intro x f hcase hx
    simp only [endOf_cons, endOf_nil] at hcase hx
    obtain ⟨rfl, hf⟩ | hlt := hcase
    · have hne : l₂ ≠ [] := by
        rintro rfl
        simp at hx
      have hsame := getField_splitBlock_next (f := f) hfit' hend' hnx (by rw [hnext hne]; omega)
      rwa [hnext hne, if_neg hf] at hsame
    · refine getField_splitBlock_of_apart hfit' hend' ⟨by omega, by omega, by omega⟩
        ⟨by omega, by omega, by omega⟩ ?_
      by_cases hne : l₂ = []
      · exact Or.inl (by rw [hheader.next, if_pos hne])
      · exact Or.inr (by rw [hnext hne]; exact ⟨by omega, by omega, by omega⟩)
  · intro hne
    have hsame := getField_splitBlock_next (f := .prev) hfit' hend' hnx (by rw [hnext hne]; omega)
    rwa [hnext hne, if_pos rfl] at hsame

theorem chain_setFree (v : Bool) (h : Chain m prev s (l₁ ++ b :: l₂) 0)
    (hend : endOf s (l₁ ++ b :: l₂) ≤ 2 ^ 64) :
    Chain (setField m (endOf s l₁) .free v.toNat) prev s (l₁ ++ ⟨b.size, v⟩ :: l₂) 0 := by
  have hheader := h.header
  rw [endOf_append, endOf_cons] at hend
  have hle := le_endOf (endOf s l₁ + 32 + b.size) l₂
  have hroom : endOf s l₁ + 32 ≤ 2 ^ 64 := by omega
  refine Chain.edit [b] [⟨b.size, v⟩] h (by simp) (by simp) rfl rfl (fun x f hx => ?_)
    ⟨⟨?_, ?_, ?_, ?_⟩, trivial⟩ (fun x f hcase hx => ?_) (fun hne => ?_)
  · exact getField_setField_of_apart ⟨by omega, by omega, by omega⟩
  · rw [getField_setField_of_ne (by decide) hroom, hheader.size]
  · rw [getField_setField_self (by cases v <;> decide)]
    cases v <;> simp
  · rw [getField_setField_of_ne (by decide) hroom, hheader.next]
    rfl
  · rw [getField_setField_of_ne (by decide) hroom, hheader.prev]
  · simp only [endOf_cons, endOf_nil] at hcase hx
    exact getField_setField_of_apart ⟨by omega, by omega, by omega⟩
  · obtain ⟨c, l₃, rfl⟩ := List.exists_cons_of_ne_nil hne
    have hlast := le_endOf (endOf s l₁ + 32 + b.size + 32 + c.size) l₃
    rw [endOf_cons] at hend
    simp only [endOf_cons, endOf_nil]
    rw [getField_setField_of_apart ⟨by omega, by omega, by omega⟩]
    exact h.next_prev

/-- The writes that merge the block after `a`, linked on to `nx`, into the one at `a`. -/
def absorb (m : ByteMemory) (a size nx : Nat) : ByteMemory :=
  relinkPrev (setField (setField m a .size size) a .next nx) nx a

theorem getField_absorb_of_apart (ha : HeadersApart x a) (hnext : nx = 0 ∨ HeadersApart x nx) :
    getField (absorb m a size nx) x f = getField m x f := by
  rw [absorb, getField_relinkPrev_of_apart hnext, getField_setField_of_apart ha,
    getField_setField_of_apart ha]

/-- Of the block after them, a merge writes the previous link only. -/
theorem getField_absorb_next (hf : f ≠ .prev) (ha : HeadersApart nx a) :
    getField (absorb m a size nx) nx f = getField m nx f := by
  rw [absorb, getField_relinkPrev_of_ne hf ha.2.1, getField_setField_of_apart ha,
    getField_setField_of_apart ha]

theorem chain_absorb (h : Chain m prev s (l₁ ++ b :: c :: l₂) 0)
    (hend : endOf s (l₁ ++ b :: c :: l₂) ≤ 2 ^ 64) :
    Chain (absorb m (endOf s l₁) (b.size + 32 + c.size)
        (if l₂ = [] then 0 else endOf s l₁ + 32 + b.size + 32 + c.size)) prev s
      (l₁ ++ ⟨b.size + 32 + c.size, b.free⟩ :: l₂) 0 := by
  have hheader := h.header
  rw [endOf_append, endOf_cons, endOf_cons] at hend
  have hle := le_endOf (endOf s l₁ + 32 + b.size + 32 + c.size) l₂
  have hroom : endOf s l₁ + 32 ≤ 2 ^ 64 := by omega
  have hpast := nextPast_of_end hend
  generalize hnx : (if l₂ = [] then 0 else endOf s l₁ + 32 + b.size + 32 + c.size) = nx at hpast ⊢
  have hblock : nx = 0 ∨ HeadersApart (endOf s l₁) nx :=
    hpast.imp_right fun hlt => ⟨by omega, by omega, by omega⟩
  refine Chain.edit [b, c] [⟨b.size + 32 + c.size, b.free⟩] h (by simp) (by simp) rfl
    (by simp only [endOf_cons, endOf_nil]; omega) (fun x f hx => ?_)
    ⟨⟨?_, ?_, ?_, ?_⟩, trivial⟩ (fun x f hcase hx => ?_) (fun hne => ?_)
  · exact getField_absorb_of_apart ⟨by omega, by omega, by omega⟩
      (hpast.imp_right fun hlt => ⟨by omega, by omega, by omega⟩)
  · rw [absorb, getField_relinkPrev_of_apart hblock, getField_setField_of_ne (by decide) hroom]
    exact getField_setField_self (by simp only [Field.width]; omega)
  · rw [absorb, getField_relinkPrev_of_apart hblock, getField_setField_of_ne (by decide) hroom,
      getField_setField_of_ne (by decide) hroom]
    exact hheader.free
  · rw [absorb, getField_relinkPrev_of_apart hblock]
    refine (getField_setField_self ?_).trans hnx.symm
    simp only [Field.width]
    obtain hzero | hlt := hpast <;> omega
  · rw [absorb, getField_relinkPrev_of_apart hblock, getField_setField_of_ne (by decide) hroom,
      getField_setField_of_ne (by decide) hroom, hheader.prev]
  · simp only [endOf_cons, endOf_nil] at hcase hx
    have hA : HeadersApart x (endOf s l₁) := ⟨by omega, by omega, by omega⟩
    have hne : l₂ ≠ [] := by
      rintro rfl
      simp only [endOf_nil] at hx
      omega
    rw [if_neg hne] at hnx
    obtain ⟨rfl, hf⟩ | hlt := hcase
    · obtain rfl : nx = endOf s l₁ + 32 + b.size + 32 + c.size := hnx.symm
      exact getField_absorb_next hf hA
    · exact getField_absorb_of_apart hA (Or.inr ⟨by omega, by omega, by omega⟩)
  · rw [if_neg hne] at hnx
    simp only [endOf_cons, endOf_nil]
    rw [absorb, hnx]
    exact getField_relinkPrev_self (by omega) (by omega)

end Chains

end SimpleOs.Heap
