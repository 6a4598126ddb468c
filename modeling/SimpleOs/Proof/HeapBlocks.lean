import SimpleOs.Proof.HeapChain

/-!
# The heap as a list of blocks

What the allocator does to the block list, with memory left out: an allocation carves the front off a
block, a release marks a block free and merges free neighbours. Merging keeps the extent of the
heap, the blocks in use and the alignment of every size, and leaves no two free neighbours.
-/

namespace SimpleOs

def Block.Fits (size : Nat) (b : Block) : Prop := b.free = true ∧ size ≤ b.size

instance (size : Nat) (b : Block) : Decidable (b.Fits size) := inferInstanceAs (Decidable (_ ∧ _))

/-- A block of `size` bytes in use, with the rest of `b` free if it can hold a block of its own. -/
def carve (size : Nat) (b : Block) : List Block :=
  if size + 48 ≤ b.size then [⟨size, false⟩, ⟨b.size - size - 32, true⟩] else [⟨b.size, false⟩]

/-- Put `b` before `bs`, merged with the first block there if both are free. -/
def joinFree (b : Block) : List Block → List Block
  | [] => [b]
  | c :: bs => if b.free ∧ c.free then ⟨b.size + 32 + c.size, true⟩ :: bs else b :: c :: bs

def coalesce (bs : List Block) : List Block := bs.foldr joinFree []

def usedBytes : List Block → Nat
  | [] => 0
  | b :: bs => (if b.free then 0 else b.size + 32) + usedBytes bs

def payloads (a : Nat) : List Block → List Nat
  | [] => []
  | b :: bs => (if b.free then [] else [a + 32]) ++ payloads (a + 32 + b.size) bs

def Separated (bs : List Block) : Prop :=
  bs.IsChain fun b c => ¬ (b.free = true ∧ c.free = true)

/-- Every size is a multiple of 8, and the last block is not empty. -/
structure Shaped (bs : List Block) : Prop where
  aligned : ∀ b ∈ bs, b.size % 8 = 0
  last : ∀ b ∈ bs.getLast?, 0 < b.size

variable {a size p : Nat} {b c : Block} {bs l₁ l₂ : List Block}

@[simp]
theorem usedBytes_append (l₁ l₂ : List Block) :
    usedBytes (l₁ ++ l₂) = usedBytes l₁ + usedBytes l₂ := by
  induction l₁ with
  | nil => simp [usedBytes]
  | cons b l₁ ih => rw [List.cons_append, usedBytes, usedBytes, ih, add_assoc]

@[simp]
theorem payloads_append (a : Nat) (l₁ l₂ : List Block) :
    payloads a (l₁ ++ l₂) = payloads a l₁ ++ payloads (endOf a l₁) l₂ := by
  induction l₁ generalizing a with
  | nil => rfl
  | cons b l₁ ih => rw [List.cons_append, payloads, payloads, ih, endOf_cons, List.append_assoc]

theorem usedBytes_le_endOf (a : Nat) (bs : List Block) : a + usedBytes bs ≤ endOf a bs := by
  induction bs generalizing a with
  | nil => exact le_rfl
  | cons b bs ih =>
      have htail := ih (a + 32 + b.size)
      rw [usedBytes, endOf_cons]
      split <;> omega

theorem length_le_endOf (a : Nat) (bs : List Block) : a + bs.length ≤ endOf a bs := by
  induction bs generalizing a with
  | nil => exact le_rfl
  | cons b bs ih =>
      have htail := ih (a + 32 + b.size)
      rw [List.length_cons, endOf_cons]
      omega

theorem mem_payloads : p ∈ payloads a bs ↔
    ∃ l₁ b l₂, bs = l₁ ++ b :: l₂ ∧ b.free = false ∧ p = endOf a l₁ + 32 := by
  constructor
  · intro hp
    induction bs generalizing a with
    | nil => exact absurd hp (by simp [payloads])
    | cons b bs ih =>
        rw [payloads, List.mem_append] at hp
        obtain hhead | htail := hp
        · cases hfree : b.free with
          | true => simp [hfree] at hhead
          | false => exact ⟨[], b, bs, rfl, hfree, by simpa [hfree] using hhead⟩
        · obtain ⟨l₁, c, l₂, rfl, hfree, rfl⟩ := ih htail
          exact ⟨b :: l₁, c, l₂, rfl, hfree, rfl⟩
  · rintro ⟨l₁, b, l₂, rfl, hfree, rfl⟩
    simp [payloads, hfree]

theorem le_of_mem_payloads (hp : p ∈ payloads a bs) : a + 32 ≤ p ∧ p ≤ endOf a bs := by
  obtain ⟨l₁, b, l₂, rfl, -, rfl⟩ := mem_payloads.mp hp
  have hstart := le_endOf a l₁
  have hend := le_endOf (endOf a l₁ + 32 + b.size) l₂
  rw [endOf_append, endOf_cons]
  omega

theorem payloads_nodup (a : Nat) (bs : List Block) : (payloads a bs).Nodup := by
  induction bs generalizing a with
  | nil => exact List.nodup_nil
  | cons b bs ih =>
      rw [payloads]
      split
      · exact ih _
      · refine List.nodup_cons.mpr ⟨fun hmem => ?_, ih _⟩
        have hbounds := le_of_mem_payloads hmem
        omega

theorem endOf_carve (size a : Nat) (b : Block) :
    endOf a (carve size b) = a + 32 + b.size := by
  unfold carve
  split
  · simp only [endOf_cons, endOf_nil]
    omega
  · rfl

theorem payloads_carve (size a : Nat) (b : Block) : payloads a (carve size b) = [a + 32] := by
  unfold carve
  split <;> simp [payloads]

theorem carve_cases (size : Nat) (b : Block) :
    (size + 48 ≤ b.size ∧ carve size b = [⟨size, false⟩, ⟨b.size - size - 32, true⟩]) ∨
      (b.size < size + 48 ∧ carve size b = [⟨b.size, false⟩]) := by
  unfold carve
  split
  · exact Or.inl ⟨‹_›, rfl⟩
  · exact Or.inr ⟨by omega, rfl⟩

theorem separated_append : Separated (l₁ ++ l₂) ↔ Separated l₁ ∧ Separated l₂ ∧
    ∀ x ∈ l₁.getLast?, ∀ y ∈ l₂.head?, ¬ (x.free = true ∧ y.free = true) :=
  List.isChain_append

theorem separated_cons : Separated (b :: bs) ↔
    (∀ y ∈ bs.head?, ¬ (b.free = true ∧ y.free = true)) ∧ Separated bs :=
  List.isChain_cons

theorem separated_carve (size : Nat) (h : Separated (l₁ ++ b :: l₂)) (hb : b.free = true) :
    Separated (l₁ ++ (carve size b ++ l₂)) := by
  obtain ⟨hleft, hright, -⟩ := separated_append.mp h
  rw [separated_cons, hb] at hright
  rw [separated_append]
  obtain ⟨-, hcarve⟩ | ⟨-, hcarve⟩ := carve_cases size b
  · simp only [hcarve, List.cons_append, List.nil_append, separated_cons, hleft, hright.2]
    simpa using hright.1
  · simp [hcarve, separated_cons, hleft, hright.2]

theorem shaped_carve (h : Shaped (l₁ ++ b :: l₂)) (hsize : size % 8 = 0) :
    Shaped (l₁ ++ (carve size b ++ l₂)) := by
  have hb := h.aligned b (by simp)
  refine ⟨fun c hc => ?_, ?_⟩
  · rw [List.mem_append, List.mem_append] at hc
    obtain hc | hc | hc := hc
    · exact h.aligned c (by simp [hc])
    · obtain ⟨hfit, hcarve⟩ | ⟨-, hcarve⟩ := carve_cases size b
      · simp only [hcarve, List.mem_cons, List.not_mem_nil, or_false] at hc
        obtain rfl | rfl := hc
        · exact hsize
        · simp only
          omega
      · simp only [hcarve, List.mem_singleton] at hc
        rw [hc]
        exact hb
    · exact h.aligned c (by simp [hc])
  · have hlast := h.last
    obtain rfl | ⟨l₃, c, rfl⟩ := List.eq_nil_or_concat' l₂
    · obtain ⟨hfit, hcarve⟩ | ⟨-, hcarve⟩ := carve_cases size b
      · simp only [hcarve, List.getLast?_append, List.append_nil, List.getLast?_cons_cons,
          List.getLast?_singleton, Option.some_or, Option.mem_some_iff, forall_eq']
        omega
      · simpa [hcarve] using hlast
    · rw [← List.cons_append, ← List.append_assoc, List.getLast?_concat] at hlast
      rwa [← List.append_assoc, ← List.append_assoc, List.getLast?_concat]

theorem shaped_setFree (v : Bool) (h : Shaped (l₁ ++ b :: l₂)) :
    Shaped (l₁ ++ ⟨b.size, v⟩ :: l₂) := by
  refine ⟨fun c hc => ?_, ?_⟩
  · rw [List.mem_append, List.mem_cons] at hc
    obtain hc | rfl | hc := hc
    · exact h.aligned c (by simp [hc])
    · exact h.aligned b (by simp)
    · exact h.aligned c (by simp [hc])
  · have hlast := h.last
    obtain rfl | ⟨l₃, c, rfl⟩ := List.eq_nil_or_concat' l₂
    · simpa using hlast
    · rw [← List.cons_append, ← List.append_assoc, List.getLast?_concat] at hlast ⊢
      exact hlast

theorem joinFree_cases (b : Block) (bs : List Block) :
    (∃ c tl, bs = c :: tl ∧ b.free = true ∧ c.free = true ∧
      joinFree b bs = ⟨b.size + 32 + c.size, true⟩ :: tl) ∨
      ((∀ y ∈ bs.head?, ¬ (b.free = true ∧ y.free = true)) ∧ joinFree b bs = b :: bs) := by
  cases bs with
  | nil => exact Or.inr ⟨by simp, rfl⟩
  | cons c tl =>
      by_cases hfree : b.free = true ∧ c.free = true
      · exact Or.inl ⟨c, tl, rfl, hfree.1, hfree.2, if_pos hfree⟩
      · exact Or.inr ⟨by simpa using hfree, if_neg hfree⟩

theorem endOf_joinFree (a : Nat) (b : Block) (bs : List Block) :
    endOf a (joinFree b bs) = endOf a (b :: bs) := by
  obtain ⟨c, tl, rfl, -, -, hjoin⟩ | ⟨-, hjoin⟩ := joinFree_cases b bs
  · rw [hjoin]
    simp only [endOf_cons]
    congr 1
    omega
  · rw [hjoin]

theorem usedBytes_joinFree (b : Block) (bs : List Block) :
    usedBytes (joinFree b bs) = usedBytes (b :: bs) := by
  obtain ⟨c, tl, rfl, hb, hc, hjoin⟩ | ⟨-, hjoin⟩ := joinFree_cases b bs
  · simp [hjoin, usedBytes, hb, hc]
  · rw [hjoin]

theorem payloads_joinFree (a : Nat) (b : Block) (bs : List Block) :
    payloads a (joinFree b bs) = payloads a (b :: bs) := by
  obtain ⟨c, tl, rfl, hb, hc, hjoin⟩ | ⟨-, hjoin⟩ := joinFree_cases b bs
  · simp only [hjoin, payloads, hb, hc, if_true, List.nil_append]
    congr 1
    omega
  · rw [hjoin]

theorem shaped_joinFree (h : Shaped (b :: bs)) : Shaped (joinFree b bs) := by
  obtain ⟨c, tl, rfl, -, -, hjoin⟩ | ⟨-, hjoin⟩ := joinFree_cases b bs
  · have hb := h.aligned b (by simp)
    have hc := h.aligned c (by simp)
    have hlast := h.last
    rw [hjoin]
    refine ⟨fun d hd => ?_, ?_⟩
    · rw [List.mem_cons] at hd
      obtain rfl | hd := hd
      · simp only
        omega
      · exact h.aligned d (by simp [hd])
    · cases tl with
      | nil => simp
      | cons d tl => simpa using hlast
  · rwa [hjoin]

theorem Shaped.tail (h : Shaped (b :: bs)) : Shaped bs := by
  refine ⟨fun c hc => h.aligned c (List.mem_cons_of_mem _ hc), ?_⟩
  cases bs with
  | nil => simp
  | cons c bs => simpa using h.last

theorem separated_joinFree (b : Block) (h : Separated bs) : Separated (joinFree b bs) := by
  obtain ⟨c, tl, rfl, -, hc, hjoin⟩ | ⟨hhead, hjoin⟩ := joinFree_cases b bs
  · rw [separated_cons, hc] at h
    rw [hjoin, separated_cons]
    exact h
  · rw [hjoin, separated_cons]
    exact ⟨hhead, h⟩

theorem free_of_mem_head_joinFree (b : Block) (bs : List Block) :
    ∀ y ∈ (joinFree b bs).head?, y.free = b.free := by
  obtain ⟨c, tl, -, hb, -, hjoin⟩ | ⟨-, hjoin⟩ := joinFree_cases b bs
  · simp [hjoin, hb]
  · simp [hjoin]

theorem joinFree_ne_nil (b : Block) (bs : List Block) : joinFree b bs ≠ [] := by
  obtain ⟨c, tl, -, -, -, hjoin⟩ | ⟨-, hjoin⟩ := joinFree_cases b bs <;> simp [hjoin]

theorem coalesce_cons (b : Block) (bs : List Block) :
    coalesce (b :: bs) = joinFree b (coalesce bs) := rfl

theorem endOf_coalesce (a : Nat) (bs : List Block) : endOf a (coalesce bs) = endOf a bs := by
  induction bs generalizing a with
  | nil => rfl
  | cons b bs ih => rw [coalesce_cons, endOf_joinFree, endOf_cons, endOf_cons, ih]

theorem usedBytes_coalesce (bs : List Block) : usedBytes (coalesce bs) = usedBytes bs := by
  induction bs with
  | nil => rfl
  | cons b bs ih => rw [coalesce_cons, usedBytes_joinFree, usedBytes, usedBytes, ih]

theorem payloads_coalesce (a : Nat) (bs : List Block) :
    payloads a (coalesce bs) = payloads a bs := by
  induction bs generalizing a with
  | nil => rfl
  | cons b bs ih => rw [coalesce_cons, payloads_joinFree, payloads, payloads, ih]

theorem separated_coalesce (bs : List Block) : Separated (coalesce bs) := by
  induction bs with
  | nil => exact List.isChain_nil
  | cons b bs ih => exact separated_joinFree b ih

theorem coalesce_ne_nil (h : bs ≠ []) : coalesce bs ≠ [] := by
  obtain ⟨b, bs, rfl⟩ := List.exists_cons_of_ne_nil h
  exact joinFree_ne_nil b _

theorem foldr_joinFree (h : Separated (l₁ ++ l₂)) : l₁.foldr joinFree l₂ = l₁ ++ l₂ := by
  induction l₁ with
  | nil => rfl
  | cons b l₁ ih =>
      rw [List.cons_append, separated_cons] at h
      rw [List.foldr_cons, ih h.2]
      obtain ⟨c, tl, hcons, hb, hc, -⟩ | ⟨-, hjoin⟩ := joinFree_cases b (l₁ ++ l₂)
      · exact absurd ⟨hb, hc⟩ (h.1 c (by simp [hcons]))
      · exact hjoin

theorem coalesce_of_separated (h : Separated bs) : coalesce bs = bs := by
  rw [← List.append_nil bs] at h
  exact (foldr_joinFree h).trans (List.append_nil bs)

theorem coalesce_first (b : Block) (h : Separated l₂) : coalesce (b :: l₂) = joinFree b l₂ := by
  rw [coalesce_cons, coalesce_of_separated h]

theorem coalesce_middle (b : Block) (hleft : Separated (l₁ ++ [c])) (h : Separated l₂) :
    coalesce (l₁ ++ c :: b :: l₂) = l₁ ++ joinFree c (joinFree b l₂) := by
  have hfold : coalesce (l₁ ++ c :: b :: l₂) = l₁.foldr joinFree (joinFree c (joinFree b l₂)) := by
    rw [coalesce, List.foldr_append, List.foldr_cons]
    exact congrArg (fun rest => l₁.foldr joinFree (joinFree c rest)) (coalesce_first b h)
  rw [separated_append] at hleft
  rw [hfold]
  refine foldr_joinFree (separated_append.mpr
    ⟨hleft.1, separated_joinFree c (separated_joinFree b h), fun x hx y hy => ?_⟩)
  rw [free_of_mem_head_joinFree c _ y hy]
  exact hleft.2.2 x hx c (by simp)

theorem shaped_coalesce (h : Shaped bs) : Shaped (coalesce bs) := by
  induction bs with
  | nil => exact h
  | cons b bs ih =>
      have htail := ih h.tail
      rw [coalesce_cons]
      refine shaped_joinFree ⟨fun c hc => ?_, ?_⟩
      · rw [List.mem_cons] at hc
        obtain rfl | hc := hc
        · exact h.aligned c (by simp)
        · exact htail.aligned c hc
      · cases bs with
        | nil => exact h.last
        | cons d bs =>
            obtain ⟨e, tl, hcons⟩ := List.exists_cons_of_ne_nil
              (coalesce_ne_nil (List.cons_ne_nil d bs))
            have hlast := htail.last
            rw [hcons] at hlast ⊢
            simpa using hlast

end SimpleOs
