import SimpleOs.Proof.HeapCanonical

/-!
# What a request is given

`kmalloc` compares the rounded size with block sizes, `kmalloc_aligned` asks for more than it was asked
for, and `krealloc` rounds again. As long as none of these sums wraps, what is returned lies in one
payload with all of its bytes. A sum that wraps turns a large request into a small one, which is
granted like any other.
-/

namespace SimpleOs.Heap

variable {h h' : Heap} {m : ByteMemory} {a j k n p q ptr size : Nat} {b : Block}
  {bs l₁ l₂ : List Block} {s : Session}

/-- A split leaves the block with the size asked for; nothing else about it is said here, so the bound
may wrap. -/
theorem size_splitBlock (ha : a + 32 ≤ 2 ^ 64) (hsize : size < 2 ^ 64) :
    getField (splitBlock m a size) a .size =
      if getField m a .size < wadd size minBlockSize then getField m a .size else size := by
  rw [splitBlock]
  split
  · rfl
  · rw [getField_setField_of_ne (by decide) ha]
    exact getField_setField_self hsize

/-- The heap after the block at `a` has been allocated. -/
def taken (h : Heap) (a size : Nat) : Heap :=
  { h with
    mem := setField (splitBlock h.mem a size) a .free 0
    heapUsedSize := wadd h.heapUsedSize
      (wadd (getField (setField (splitBlock h.mem a size) a .free 0) a .size) headerSize) }

@[simp]
theorem heapStart_taken (h : Heap) (a size : Nat) : (h.taken a size).heapStart = h.heapStart := rfl

theorem represents_taken (hrep : Represents h (l₁ ++ b :: l₂)) (hfits : b.Fits size)
    (hbound : size + 48 < 2 ^ 64) (hsize : size % 8 = 0) :
    Represents (h.taken (endOf h.heapStart l₁) size) (l₁ ++ (carve size b ++ l₂)) :=
  represents_take hrep hfits hbound hsize

theorem kmalloc_found (hrep : Represents h (l₁ ++ b :: l₂)) (hn : n ≠ 0)
    (hfind : h.findFreeBlock (alignSize n) = some (endOf h.heapStart l₁)) :
    h.kmalloc n = some (endOf h.heapStart l₁ + 32,
      h.taken (endOf h.heapStart l₁) (alignSize n)) := by
  have hpos := hrep.payload_lt
  have hptr : wadd (endOf h.heapStart l₁) headerSize = endOf h.heapStart l₁ + 32 :=
    wadd_of_lt hpos.2.1
  rw [kmalloc, if_neg hn, hfind, Option.map_some, if_neg (by omega), hptr]
  rfl

theorem kmalloc_outcomes (hrep : Represents h bs) (hn : n ≠ 0) :
    ((∀ c ∈ bs, ¬ c.Fits (alignSize n)) ∧ h.findFreeBlock (alignSize n) = some 0 ∧
      h.kmalloc n = some (0, h)) ∨
    (∃ l₁ b l₂, bs = l₁ ++ b :: l₂ ∧ (∀ c ∈ l₁, ¬ c.Fits (alignSize n)) ∧ b.Fits (alignSize n) ∧
      h.findFreeBlock (alignSize n) = some (endOf h.heapStart l₁) ∧
      h.kmalloc n = some (endOf h.heapStart l₁ + 32,
        h.taken (endOf h.heapStart l₁) (alignSize n))) := by
  obtain ⟨l₁, b, l₂, rfl, hfirst, hfits, hfind⟩ | ⟨hnone, hfind⟩ :=
    findFreeBlock_cases (alignSize n) hrep
  · exact Or.inr ⟨l₁, b, l₂, rfl, hfirst, hfits, hfind, kmalloc_found hrep hn hfind⟩
  · exact Or.inl ⟨hnone, hfind, kmalloc_eq_zero (Or.inr hfind)⟩

theorem kmallocSize_taken (hrep : Represents h (l₁ ++ b :: l₂)) (hsize : size < 2 ^ 64) :
    (h.taken (endOf h.heapStart l₁) size).kmallocSize (endOf h.heapStart l₁ + 32) =
      if b.size < wadd size minBlockSize then b.size else size := by
  have hroom : endOf h.heapStart l₁ + 32 ≤ 2 ^ 64 := hrep.payload_lt.2.1.le
  rw [kmallocSize, if_neg (by omega), hrep.wsub_payload, taken,
    getField_setField_of_ne (by decide) hroom, size_splitBlock hroom hsize, hrep.header.size]

theorem alignSize_lt (n : Nat) : alignSize n < 2 ^ 64 := by
  have hmod := wadd_lt n 7
  rw [alignSize, alignDown_eq hmod]
  omega

theorem le_alignSize (hn : n + 7 < 2 ^ 64) : n ≤ alignSize n := by
  rw [alignSize_of_le (by omega)]
  omega

theorem le_kmallocSize_taken (hrep : Represents h (l₁ ++ b :: l₂)) (hfits : b.Fits (alignSize n)) :
    alignSize n ≤ (h.taken (endOf h.heapStart l₁) (alignSize n)).kmallocSize
      (endOf h.heapStart l₁ + 32) := by
  rw [kmallocSize_taken hrep (alignSize_lt n)]
  split
  · exact hfits.2
  · exact le_rfl

theorem alignUp_eq (hj : j ≤ 64) (hpos : 0 < ptr) (hptr : ptr + 2 ^ j ≤ 2 ^ 64) :
    alignUp (2 ^ j) ptr = (ptr + 2 ^ j - 1) / 2 ^ j * 2 ^ j := by
  have hone : wsub (wadd ptr (2 ^ j)) 1 = ptr + 2 ^ j - 1 := by
    have hpow := Nat.two_pow_pos j
    unfold wsub wadd
    omega
  rw [alignUp, hone, clearBelow_eq hj (by omega)]

theorem alignUp_spec (hj : j ≤ 64) (hpos : 0 < ptr) (hptr : ptr + 2 ^ j ≤ 2 ^ 64) :
    2 ^ j ∣ alignUp (2 ^ j) ptr ∧ ptr ≤ alignUp (2 ^ j) ptr ∧ alignUp (2 ^ j) ptr < ptr + 2 ^ j := by
  have hpow := Nat.two_pow_pos j
  have hle := Nat.div_mul_le_self (ptr + 2 ^ j - 1) (2 ^ j)
  have hlt := Nat.lt_div_mul_add (a := ptr + 2 ^ j - 1) hpow
  rw [alignUp_eq hj hpos hptr]
  exact ⟨Nat.dvd_mul_left _ _, by omega, by omega⟩

theorem max_two_pow (k : Nat) : max (2 ^ k) 8 = 2 ^ max k 3 := by
  obtain hk | hk := Nat.le_total k 3
  · have hle : 2 ^ k ≤ 2 ^ 3 := Nat.pow_le_pow_right (by decide) hk
    rw [max_eq_right hk]
    exact max_eq_right hle
  · have hle : 2 ^ 3 ≤ 2 ^ k := Nat.pow_le_pow_right (by decide) hk
    rw [max_eq_left hk]
    exact max_eq_left hle

/-- `total_size` of `kmalloc_aligned`. -/
def paddedSize (n align : Nat) : Nat := wadd (wadd n (max align 8)) headerSize

/-- The heap with the original pointer stored before the aligned one. -/
def backPointed (h : Heap) (q ptr : Nat) : Heap :=
  { h with mem := h.mem.write (wsub q 8) 8 ptr }

theorem kmallocAligned_eq (h : Heap) (n k : Nat) : h.kmallocAligned n (2 ^ k) =
    (h.kmalloc (paddedSize n (2 ^ k))).map fun result =>
      if result.1 = 0 then result
      else (alignUp (max (2 ^ k) 8) result.1,
        result.2.backPointed (alignUp (max (2 ^ k) 8) result.1) result.1) := by
  have halign : (if 2 ^ k < 8 then 8 else 2 ^ k) = max (2 ^ k) 8 := by
    split
    · rw [max_eq_right (by omega)]
    · rw [max_eq_left (by omega)]
  have hpower : ¬ max (2 ^ k) 8 &&& (max (2 ^ k) 8 - 1) ≠ 0 := by
    rw [max_two_pow, Nat.and_two_pow_sub_one_eq_mod, Nat.mod_self]
    exact not_not.mpr rfl
  simp only [kmallocAligned, halign, if_neg hpower]
  rfl

theorem kmallocAligned_found (hrep : Represents h (l₁ ++ b :: l₂))
    (hn : paddedSize n (2 ^ k) ≠ 0) (hfind : h.findFreeBlock (alignSize (paddedSize n (2 ^ k))) =
      some (endOf h.heapStart l₁)) :
    h.kmallocAligned n (2 ^ k) = some (alignUp (max (2 ^ k) 8) (endOf h.heapStart l₁ + 32),
      (h.taken (endOf h.heapStart l₁) (alignSize (paddedSize n (2 ^ k)))).backPointed
        (alignUp (max (2 ^ k) 8) (endOf h.heapStart l₁ + 32)) (endOf h.heapStart l₁ + 32)) := by
  rw [kmallocAligned_eq, kmalloc_found hrep hn hfind, Option.map_some, if_neg (by omega)]

theorem kmallocAligned_outcomes (hrep : Represents h bs) (n k : Nat) :
    ((paddedSize n (2 ^ k) = 0 ∨ h.findFreeBlock (alignSize (paddedSize n (2 ^ k))) = some 0) ∧
      h.kmallocAligned n (2 ^ k) = some (0, h)) ∨
    (∃ l₁ b l₂, bs = l₁ ++ b :: l₂ ∧ b.Fits (alignSize (paddedSize n (2 ^ k))) ∧
      h.findFreeBlock (alignSize (paddedSize n (2 ^ k))) = some (endOf h.heapStart l₁) ∧
      h.kmalloc (paddedSize n (2 ^ k)) = some (endOf h.heapStart l₁ + 32,
        h.taken (endOf h.heapStart l₁) (alignSize (paddedSize n (2 ^ k)))) ∧
      h.kmallocAligned n (2 ^ k) =
        some (alignUp (max (2 ^ k) 8) (endOf h.heapStart l₁ + 32),
          (h.taken (endOf h.heapStart l₁) (alignSize (paddedSize n (2 ^ k)))).backPointed
            (alignUp (max (2 ^ k) 8) (endOf h.heapStart l₁ + 32)) (endOf h.heapStart l₁ + 32))) := by
  rw [kmallocAligned_eq]
  by_cases hzero : paddedSize n (2 ^ k) = 0
  · refine Or.inl ⟨Or.inl hzero, ?_⟩
    rw [hzero, kmalloc_eq_zero (Or.inl rfl)]
    rfl
  obtain ⟨-, hfind, hnull⟩ | ⟨l₁, b, l₂, hbs, -, hfits, hfind, hrun⟩ := kmalloc_outcomes hrep hzero
  · refine Or.inl ⟨Or.inr hfind, ?_⟩
    rw [hnull]
    rfl
  · subst hbs
    rw [← kmallocAligned_eq]
    exact Or.inr ⟨l₁, b, l₂, rfl, hfits, hfind, hrun, kmallocAligned_found hrep hzero hfind⟩

theorem paddedSize_eq (hn : n + max (2 ^ k) 8 + 39 < 2 ^ 64) :
    paddedSize n (2 ^ k) = n + max (2 ^ k) 8 + 32 := by
  have hsum : wadd n (max (2 ^ k) 8) = n + max (2 ^ k) 8 := wadd_of_lt (by omega)
  rw [paddedSize, hsum, headerSize_eq]
  exact wadd_of_lt (by omega)

/-- Aligning keeps to the block found: the request is larger by the alignment and a header. -/
theorem alignUp_within (hrep : Represents h (l₁ ++ b :: l₂)) (hn : n + max (2 ^ k) 8 + 39 < 2 ^ 64)
    (hfits : b.Fits (alignSize (paddedSize n (2 ^ k)))) (hptr : ptr = endOf h.heapStart l₁ + 32) :
    max (2 ^ k) 8 ∣ alignUp (max (2 ^ k) 8) ptr ∧ ptr ≤ alignUp (max (2 ^ k) 8) ptr ∧
      alignUp (max (2 ^ k) 8) ptr + n + 33 ≤ ptr + alignSize (paddedSize n (2 ^ k)) := by
  have hround : n + max (2 ^ k) 8 + 32 ≤ alignSize (paddedSize n (2 ^ k)) :=
    (paddedSize_eq hn).symm.trans_le (le_alignSize (by rw [paddedSize_eq hn]; omega))
  have hroom := hrep.payload_lt.2.2
  have hsize := hfits.2
  have hpow : 8 ≤ max (2 ^ k) 8 := le_max_right _ _
  rw [max_two_pow] at hround hpow hn ⊢
  have hj : max k 3 ≤ 64 := by
    by_contra hgt
    have hle : 2 ^ 64 ≤ 2 ^ max k 3 := Nat.pow_le_pow_right (by decide) (by omega)
    omega
  have hspec := alignUp_spec hj (by omega : 0 < ptr) (by omega)
  exact ⟨hspec.1, hspec.2.1, by omega⟩

theorem kmallocSize_backPointed (hptr : ptr ≠ 0) (hp : wsub ptr headerSize + 32 ≤ 2 ^ 64)
    (hq : q ≤ 2 ^ 64) (hpq : wsub ptr headerSize + 32 ≤ q) :
    (h.backPointed q p).kmallocSize ptr = h.kmallocSize ptr := by
  have hback : wsub q 8 = q - 8 := by
    unfold wsub
    omega
  rw [kmallocSize, kmallocSize, if_neg hptr, if_neg hptr, backPointed, hback, getField, getField]
  refine ByteMemory.read_write_of_apart (ByteMemory.apart_of_le ?_ (by omega) (Or.inl ?_))
  all_goals
    simp only [Field.offset, Field.width]
    omega

theorem kmallocSize_of_span (hrep : Represents h bs) (hq : (q, n) ∈ spans h.heapStart bs) :
    h.kmallocSize q = n := by
  obtain ⟨l₁, b, l₂, rfl, -, rfl, rfl⟩ := mem_spans.mp hq
  exact kmallocSize_eq hrep.toLaid

/-- Freeing one allocation leaves the sizes of the others. -/
theorem Session.Sound.kmallocSize_kfree (hsound : s.Sound) (hp : p ∈ s.live) (hq : q ∈ s.live)
    (hne : q ≠ p) : (s.heap.kfree p).kmallocSize q = s.heap.kmallocSize q := by
  obtain ⟨bs, hrep, hlive⟩ := hsound
  have hspan := (live_iff_spans hrep hlive).mp ⟨hq, rfl⟩
  obtain ⟨l₁, b, l₂, rfl, hb, rfl⟩ := Session.block_of_live hlive hp
  apply kmallocSize_of_span (represents_kfree hrep hb)
  rw [heapStart_kfree, spans_freed hb]
  exact List.mem_filter.mpr ⟨hspan, by simpa using hne⟩

/-- Copying into one payload leaves the sizes of all. -/
theorem Session.Sound.kmallocSize_copyBytes {live : List Nat} (hsound : Session.Sound ⟨h, live⟩)
    (src : Nat) (hp : p ∈ live) (hk : k ≤ h.kmallocSize p) (hq : q ∈ live) :
    Heap.kmallocSize { h with mem := Heap.copyBytes h.mem p src 0 k } q = h.kmallocSize q := by
  obtain ⟨bs, hrep, hlive⟩ := hsound
  have hspan := (live_iff_spans hrep hlive).mp ⟨hq, rfl⟩
  obtain ⟨l₁, b, l₂, rfl, -, rfl⟩ := Session.block_of_live hlive hp
  dsimp only at hk
  rw [kmallocSize_eq hrep.toLaid] at hk
  exact kmallocSize_of_span (represents_copyBytes hrep src hk) hspan

/-- The `n` bytes from `q` on lie in the payload of one of the allocations. -/
def FitsIn (live : List Nat) (h : Heap) (q n : Nat) : Prop :=
  ∃ p ∈ live, Set.Ico q (q + n) ⊆ h.payload p

namespace Session

/-- What `kmalloc(n)` returns holds `n` bytes, and no wrapped sum was granted; likewise below. -/
def KmallocFits (s : Session) (n : Nat) : Prop :=
  ∀ q h', s.heap.kmalloc n = some (q, h') → q ≠ 0 → FitsIn (q :: s.live) h' q n ∧ n + 7 < 2 ^ 64

/-- Here the payload is that of the block `kmalloc_aligned` allocates. -/
def AlignedFits (s : Session) (n align : Nat) : Prop :=
  ∀ q h', s.heap.kmallocAligned n align = some (q, h') → q ≠ 0 →
    (∃ ptr h₁, s.heap.kmalloc (paddedSize n align) = some (ptr, h₁) ∧
      FitsIn (ptr :: s.live) h' q n) ∧ n + max align 8 + 39 < 2 ^ 64

def KreallocFits (s : Session) (p n : Nat) : Prop :=
  ∀ r, s.heap.krealloc p n = some r → r.1 ≠ 0 →
    FitsIn (s.reallocated p r).live r.2 r.1 n ∧ n + 7 < 2 ^ 64

/-- `kmalloc_aligned` returns null: nothing is asked for or found, or the aligned address is 0. -/
def AlignedNull (s : Session) (n align : Nat) : Prop :=
  paddedSize n align = 0 ∨ s.heap.findFreeBlock (alignSize (paddedSize n align)) = some 0 ∨
    ∃ block, s.heap.findFreeBlock (alignSize (paddedSize n align)) = some block ∧
      alignUp (max align 8) (block + headerSize) = 0

end Session

theorem fitsIn_self {live : List Nat} (hn : n ≤ h.kmallocSize q) : FitsIn (q :: live) h q n :=
  ⟨q, List.mem_cons_self, Set.Ico_subset_Ico_right (by omega)⟩

theorem kmallocFits_iff (hsound : s.Sound) (hn : 1 ≤ n) :
    s.KmallocFits n ↔ n + 7 < 2 ^ 64 ∨ s.heap.findFreeBlock (alignSize n) = some 0 := by
  obtain ⟨bs, hrep, -⟩ := hsound
  obtain ⟨-, hfind, hnull⟩ | ⟨l₁, b, l₂, rfl, -, hfits, hfind, hrun⟩ :=
    kmalloc_outcomes (n := n) hrep (by omega)
  · refine iff_of_true (fun q h' hq hne => ?_) (Or.inr hfind)
    rw [hnull] at hq
    exact absurd (Prod.mk.inj (Option.some_inj.mp hq)).1.symm hne
  · have hpos := hrep.payload_lt.1
    have hfound : ¬ s.heap.findFreeBlock (alignSize n) = some 0 := by
      rw [hfind, Option.some_inj]
      omega
    rw [or_iff_left hfound]
    refine ⟨fun hfit => (hfit _ _ hrun (by omega)).2, fun hwrap q h' hq _ => ⟨?_, hwrap⟩⟩
    obtain ⟨rfl, rfl⟩ := Prod.mk.inj (Option.some_inj.mp (hrun.symm.trans hq))
    exact fitsIn_self ((le_alignSize hwrap).trans (le_kmallocSize_taken hrep hfits))

theorem alignedFits_iff (hsound : s.Sound) (n k : Nat) :
    s.AlignedFits n (2 ^ k) ↔ n + max (2 ^ k) 8 + 39 < 2 ^ 64 ∨ s.AlignedNull n (2 ^ k) := by
  obtain ⟨bs, hrep, -⟩ := hsound
  obtain ⟨hcause, hnull⟩ | ⟨l₁, b, l₂, rfl, hfits, hfind, hmalloc, hrun⟩ :=
    kmallocAligned_outcomes hrep n k
  · refine iff_of_true (fun q h' hq hne => ?_) (Or.inr ?_)
    · rw [hnull] at hq
      exact absurd (Prod.mk.inj (Option.some_inj.mp hq)).1.symm hne
    · exact hcause.imp_right Or.inl
  have hpos := hrep.payload_lt
  have hnull : s.AlignedNull n (2 ^ k) ↔
      alignUp (max (2 ^ k) 8) (endOf s.heap.heapStart l₁ + 32) = 0 := by
    constructor
    · rintro (hzero | hnone | ⟨block, hblock, hup⟩)
      · rw [hzero, kmalloc_eq_zero (Or.inl rfl)] at hmalloc
        have hptr := (Prod.mk.inj (Option.some_inj.mp hmalloc)).1
        omega
      · rw [hfind, Option.some_inj] at hnone
        omega
      · rw [hfind, Option.some_inj] at hblock
        rwa [← hblock] at hup
    · exact fun hup => Or.inr (Or.inr ⟨_, hfind, hup⟩)
  rw [hnull]
  constructor
  · intro hfit
    by_cases hup : alignUp (max (2 ^ k) 8) (endOf s.heap.heapStart l₁ + 32) = 0
    · exact Or.inr hup
    · exact Or.inl (hfit _ _ hrun hup).2
  · intro hcause q h' hq hne
    obtain ⟨rfl, rfl⟩ := Prod.mk.inj (Option.some_inj.mp (hrun.symm.trans hq))
    have hwrap := hcause.resolve_right hne
    obtain ⟨-, hle, hend⟩ := alignUp_within hrep hwrap hfits rfl
    have hroom := le_kmallocSize_taken hrep hfits
    have hblock := hrep.wsub_payload
    have htop := hfits.2
    refine ⟨⟨_, _, hmalloc, _, List.mem_cons_self, ?_⟩, hwrap⟩
    rw [payload, kmallocSize_backPointed (by omega) (by rw [hblock]; omega) (by omega)
      (by rw [hblock]; exact hle)]
    exact Set.Ico_subset_Ico hle (by omega)

theorem alignSize_of_wrap (hn : n < 2 ^ 64) (hwrap : 2 ^ 64 ≤ n + 7) : alignSize n = 0 := by
  have hsum : wadd n 7 = n + 7 - 2 ^ 64 := by
    unfold wadd
    omega
  rw [alignSize, alignDown_eq (wadd_lt n 7), hsum]
  omega

theorem kreallocFits_iff (hsound : s.Sound) (hp : p ∈ s.live) (hpos : 1 ≤ n) (hn : n < 2 ^ 64) :
    s.KreallocFits p n ↔ n + 7 < 2 ^ 64 := by
  obtain ⟨bs, hrep, hlive⟩ := id hsound
  obtain ⟨l₁, b, l₂, rfl, hb, hptr⟩ := Session.block_of_live hlive hp
  have hne : p ≠ 0 := by omega
  have hroom := hrep.payload_lt
  have hself : ∀ m : ByteMemory, Heap.kmallocSize { s.heap with mem := m } p =
      getField m (endOf s.heap.heapStart l₁) .size := by
    intro m
    rw [kmallocSize, if_neg hne, hptr, hrep.wsub_payload]
  constructor
  · intro hfits
    by_contra hwrap
    have hzero := alignSize_of_wrap hn (not_lt.mp hwrap)
    have hrun := krealloc_shrink hrep hptr hpos (by rw [hzero]; exact Nat.zero_le _)
    exact hwrap (hfits _ hrun hne).2
  · intro hwrap r hr hnull
    refine ⟨?_, hwrap⟩
    have hround := le_alignSize hwrap
    rw [Session.reallocated, if_neg hnull]
    by_cases hle : alignSize n ≤ b.size
    · rw [krealloc_shrink hrep hptr hpos hle] at hr
      obtain rfl := Option.some_inj.mp hr
      apply fitsIn_self
      rw [hself, size_splitBlock (by omega) (alignSize_lt n), hrep.header.size]
      split <;> omega
    by_cases hexpand : CanExpand s.heap.mem (endOf s.heap.heapStart l₁) (alignSize n)
    · rw [krealloc_grow hrep hptr hpos (by omega) hexpand] at hr
      obtain rfl := Option.some_inj.mp hr
      apply fitsIn_self
      have hgrown : ∀ y, getField (grown s.heap.mem (endOf s.heap.heapStart l₁) y (alignSize n))
          (endOf s.heap.heapStart l₁) .size = alignSize n := fun y =>
        getField_setField_self (alignSize_lt n)
      rw [hself, size_splitBlock (by omega) (alignSize_lt n), hgrown, ite_self]
      exact hround
    · rw [krealloc_move_eq hrep hptr hpos (by omega) hexpand] at hr
      obtain ⟨⟨q, h'⟩, hq, rfl⟩ := Option.map_eq_some_iff.mp hr
      by_cases hzero : q = 0
      · exact absurd (by rw [if_pos hzero]; exact hzero) hnull
      have hsize : s.heap.kmallocSize p = b.size := by rw [hptr, kmallocSize_eq hrep.toLaid]
      have hgrow : s.heap.kmallocSize p ≤ alignSize (alignSize n) := by
        rw [hsize, alignSize_alignSize (by omega)]
        omega
      obtain ⟨hqp, hlarge, hmoved, hcopied⟩ := hsound.copied hp (alignSize_lt n) hgrow hq hzero
      rw [if_neg hzero]
      apply fitsIn_self
      rw [hsize] at hcopied hgrow
      have hfreed := hcopied.kmallocSize_kfree (List.mem_cons_of_mem q hp) List.mem_cons_self hqp
      have hcopy := hmoved.kmallocSize_copyBytes p List.mem_cons_self (hgrow.trans hlarge)
        List.mem_cons_self
      rw [alignSize_alignSize (by omega)] at hlarge
      exact hround.trans (hlarge.trans (hcopy.symm.trans hfreed.symm).le)

/-- **Granted requests.** In every heap reached by calls that keep the bound of `split_block` from
wrapping: what `kmalloc` returns holds the bytes asked for, and no wrapped sum has been granted,
exactly when the rounding does not wrap or nothing is found; for `kmalloc_aligned` it is the padded
size that must not wrap, and for `krealloc` only the rounding matters. -/
theorem granted_fits_iff (h : Heap) (start size : Nat) (hacc : Accepts start size) {s : Session}
    (hrun : Session.Run Session.Bounded ⟨h.heapInit start size, []⟩ s) {n : Nat} (hpos : 1 ≤ n)
    (hn : n < 2 ^ 64) :
    (s.KmallocFits n ↔ n + 7 < 2 ^ 64 ∨ s.heap.findFreeBlock (alignSize n) = some 0) ∧
    (∀ k < 64, s.AlignedFits n (2 ^ k) ↔
      n + max (2 ^ k) 8 + 39 < 2 ^ 64 ∨ s.AlignedNull n (2 ^ k)) ∧
    ∀ p ∈ s.live, s.KreallocFits p n ↔ n + 7 < 2 ^ 64 := by
  have hsound := (Session.sound_heapInit h hacc).run hrun
  exact ⟨kmallocFits_iff hsound hpos, fun k _ => alignedFits_iff hsound n k,
    fun p hp => kreallocFits_iff hsound hp hpos hn⟩

theorem granted_fits_onePage : onePage.KmallocFits 100 :=
  (granted_fits_iff blank 0x1000 0x1000 ⟨by decide, by decide, by decide⟩
    (Relation.ReflTransGen.single
      ⟨.kmalloc 16, by decide, Or.inr (Or.inl (by decide)), (Option.some_get _).symm⟩)
    (by decide) (by decide)).1.mpr (Or.inl (by decide))

/-- The heap of one page grants the largest request there is, with a block of no bytes. -/
theorem not_fits_largest : Accepts 0x1000 0x1000 ∧
    Session.Run (fun _ _ => True) ⟨blank.heapInit 0x1000 0x1000, []⟩
      ⟨blank.heapInit 0x1000 0x1000, []⟩ ∧
    ((blank.heapInit 0x1000 0x1000).kmalloc (2 ^ 64 - 1)).map
      (fun r => (r.1, r.2.kmallocSize r.1)) = some (0x1020, 0) ∧
    ¬ Session.KmallocFits ⟨blank.heapInit 0x1000 0x1000, []⟩ (2 ^ 64 - 1) := by
  have hgranted : ((blank.heapInit 0x1000 0x1000).kmalloc (2 ^ 64 - 1)).map
      (fun r => (r.1, r.2.kmallocSize r.1)) = some (0x1020, 0) := by decide +kernel
  refine ⟨⟨by decide, by decide, by decide⟩, Relation.ReflTransGen.refl, hgranted, fun hfits => ?_⟩
  obtain ⟨⟨q, h'⟩, hrun, hq⟩ := Option.map_eq_some_iff.mp hgranted
  obtain ⟨rfl, hsize⟩ := Prod.mk.inj hq
  obtain ⟨⟨p, hp, hsub⟩, -⟩ := hfits _ _ hrun (by decide)
  obtain rfl := List.mem_singleton.mp hp
  have hmem := hsub ⟨le_rfl, by omega⟩
  rw [payload, hsize] at hmem
  exact absurd hmem.2 (by simp)

end SimpleOs.Heap
