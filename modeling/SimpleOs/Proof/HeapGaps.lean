import SimpleOs.Proof.HeapFit

/-!
# First fit over the gaps

A gap is a longest range of the heap that no live allocation covers, headers counted. Since no two free
blocks are neighbours, the gaps are the free blocks, so the search of `kmalloc` through the blocks is a
search through the gaps: it takes the lowest that is large enough and fails only if there is none.
-/

namespace SimpleOs

/-- `[lo, hi)` is a longest range of `[first, last)` that does not meet `occupied`. -/
structure IsGap (occupied : Set Nat) (first last lo hi : Nat) : Prop where
  lt : lo < hi
  first_le : first ≤ lo
  le_last : hi ≤ last
  clear : ∀ y, lo ≤ y → y < hi → y ∉ occupied
  left : lo = first ∨ lo - 1 ∈ occupied
  right : hi = last ∨ hi ∈ occupied

/-- The bytes of the blocks in use, with their headers. -/
def inUse (a : Nat) (bs : List Block) : Set Nat :=
  { y | ∃ l₁ b l₂, bs = l₁ ++ b :: l₂ ∧ b.free = false ∧ endOf a l₁ ≤ y ∧
    y < endOf a l₁ + 32 + b.size }

variable {a y lo hi : Nat} {b : Block} {bs l₁ l₂ : List Block}

theorem exists_block_of_mem (hlow : a ≤ y) (hhigh : y < endOf a bs) :
    ∃ l₁ b l₂, bs = l₁ ++ b :: l₂ ∧ endOf a l₁ ≤ y ∧ y < endOf a l₁ + 32 + b.size := by
  induction bs generalizing a with
  | nil =>
      rw [endOf_nil] at hhigh
      omega
  | cons b bs ih =>
      by_cases hfirst : y < a + 32 + b.size
      · exact ⟨[], b, bs, rfl, hlow, hfirst⟩
      · obtain ⟨l₁, c, l₂, rfl, hc⟩ := ih (by omega) hhigh
        exact ⟨b :: l₁, c, l₂, rfl, hc⟩

theorem notMem_inUse (hb : b.free = true) (hlow : endOf a l₁ ≤ y)
    (hhigh : y < endOf a l₁ + 32 + b.size) : y ∉ inUse a (l₁ ++ b :: l₂) := by
  rintro ⟨l₃, c, l₄, heq, hc, hlow', hhigh'⟩
  have hne : endOf a l₁ ≠ endOf a l₃ := by
    intro hend
    rw [← Heap.eq_of_endOf_eq heq hend, hb] at hc
    cases hc
  have hapart := Heap.blocks_apart heq hne
  omega

theorem isGap_of_free (hsep : Separated (l₁ ++ b :: l₂)) (hb : b.free = true) :
    IsGap (inUse a (l₁ ++ b :: l₂)) a (endOf a (l₁ ++ b :: l₂)) (endOf a l₁)
      (endOf a l₁ + 32 + b.size) := by
  obtain ⟨-, htail, hjoint⟩ := separated_append.mp hsep
  have hrest := le_endOf (endOf a l₁ + 32 + b.size) l₂
  refine ⟨by omega, le_endOf a l₁, ?_, fun y hlow hhigh => notMem_inUse hb hlow hhigh, ?_, ?_⟩
  · rw [endOf_append, endOf_cons]
    exact hrest
  · obtain rfl | ⟨l₀, c, rfl⟩ := List.eq_nil_or_concat' l₁
    · exact Or.inl rfl
    · have hc : c.free = false := by
        have hnot := hjoint c (by simp) b (by simp)
        simpa [hb] using hnot
      refine Or.inr ⟨l₀, c, b :: l₂, by simp, hc, ?_⟩
      rw [endOf_append, endOf_cons, endOf_nil]
      omega
  · cases l₂ with
    | nil => exact Or.inl (by rw [endOf_append]; rfl)
    | cons c l₂ =>
        have hc : c.free = false := by
          have hnot := (separated_cons.mp htail).1 c (by simp)
          simpa [hb] using hnot
        refine Or.inr ⟨l₁ ++ [b], c, l₂, by simp, hc, ?_⟩
        rw [endOf_append, endOf_cons, endOf_nil]
        omega

/-- The gaps are the free blocks. -/
theorem isGap_iff (hsep : Separated bs) : IsGap (inUse a bs) a (endOf a bs) lo hi ↔
    ∃ l₁ b l₂, bs = l₁ ++ b :: l₂ ∧ b.free = true ∧ lo = endOf a l₁ ∧ hi = lo + 32 + b.size := by
  constructor
  · intro hgap
    obtain ⟨l₁, b, l₂, rfl, hlow, hhigh⟩ :=
      exists_block_of_mem hgap.first_le (hgap.lt.trans_le hgap.le_last)
    have hb : b.free = true := by
      by_contra hused
      exact hgap.clear lo le_rfl hgap.lt ⟨l₁, b, l₂, rfl, by simpa using hused, hlow, hhigh⟩
    have hblock := isGap_of_free (a := a) hsep hb
    have hlo : lo = endOf a l₁ := by
      by_contra hne
      obtain hfirst | hleft := hgap.left
      · have hle := le_endOf a l₁
        omega
      · exact hblock.clear (lo - 1) (by omega) (by omega) hleft
    refine ⟨l₁, b, l₂, rfl, hb, hlo, ?_⟩
    -- neither end can be inside the other range
    obtain hlt | heq | hgt := Nat.lt_trichotomy hi (lo + 32 + b.size)
    · obtain hlast | hright := hgap.right
      · have hle := hblock.le_last
        omega
      · exact absurd hright (hblock.clear hi (by have := hgap.lt; omega) (by omega))
    · exact heq
    · obtain hlast | hright := hblock.right
      · have hle := hgap.le_last
        omega
      · exact absurd hright (hgap.clear _ (by omega) (by omega))
  · rintro ⟨l₁, b, l₂, rfl, hb, rfl, rfl⟩
    exact isGap_of_free hsep hb

namespace Heap

/-- `n` rounded up to a multiple of 8. -/
def roundUp (n : Nat) : Nat := (n + 7) / 8 * 8

namespace Session

/-- The bytes of the live blocks, headers included. -/
def held (s : Session) : Set Nat := { y | ∃ p ∈ s.live, p ≤ y + 32 ∧ y < p + s.heap.kmallocSize p }

def Gap (s : Session) (lo hi : Nat) : Prop :=
  IsGap s.held s.heap.heapStart (s.heap.heapStart + s.heap.heapTotalSize) lo hi

/-- A gap with room for a header and `size` bytes. -/
def LargeGap (s : Session) (size lo hi : Nat) : Prop := s.Gap lo hi ∧ lo + 32 + size ≤ hi

/-- `kmalloc(n)` returns null exactly if no gap is large enough, and then does nothing; otherwise it
takes the lowest that is, and leaves less than a smallest block of it over. -/
structure FirstFits (s : Session) (n : Nat) : Prop where
  null_iff : (∃ h', s.heap.kmalloc n = some (0, h')) ↔ ∀ lo hi, ¬ s.LargeGap (roundUp n) lo hi
  null_heap : ∀ h', s.heap.kmalloc n = some (0, h') → h' = s.heap
  lowest : (∃ lo hi, s.LargeGap (roundUp n) lo hi) →
    ∃ lo hi h', s.LargeGap (roundUp n) lo hi ∧
      (∀ lo' hi', s.LargeGap (roundUp n) lo' hi' → lo ≤ lo') ∧
      s.heap.kmalloc n = some (lo + 32, h') ∧
      roundUp n ≤ h'.kmallocSize (lo + 32) ∧ h'.kmallocSize (lo + 32) < roundUp n + minBlockSize

end Session

variable {n size : Nat} {h : Heap} {s : Session}

theorem held_eq (hrep : Represents s.heap bs)
    (hlive : s.live.Perm (payloads s.heap.heapStart bs)) : s.held = inUse s.heap.heapStart bs := by
  ext y
  constructor
  · rintro ⟨p, hp, hlow, hhigh⟩
    obtain ⟨l₁, b, l₂, rfl, hb, rfl⟩ := Session.block_of_live hlive hp
    rw [kmallocSize_eq hrep.toLaid] at hhigh
    exact ⟨l₁, b, l₂, rfl, hb, by omega, hhigh⟩
  · rintro ⟨l₁, b, l₂, rfl, hb, hlow, hhigh⟩
    refine ⟨endOf s.heap.heapStart l₁ + 32,
      hlive.mem_iff.mpr (mem_payloads.mpr ⟨l₁, b, l₂, rfl, hb, rfl⟩), by omega, ?_⟩
    rwa [kmallocSize_eq hrep.toLaid]

theorem largeGap_iff (hrep : Represents s.heap bs)
    (hlive : s.live.Perm (payloads s.heap.heapStart bs)) : s.LargeGap size lo hi ↔
      ∃ l₁ b l₂, bs = l₁ ++ b :: l₂ ∧ b.Fits size ∧ lo = endOf s.heap.heapStart l₁ ∧
        hi = lo + 32 + b.size := by
  rw [Session.LargeGap, Session.Gap, held_eq hrep hlive, ← hrep.tiles, isGap_iff hrep.separated]
  constructor
  · rintro ⟨⟨l₁, b, l₂, hbs, hb, hlo, hhi⟩, hlarge⟩
    exact ⟨l₁, b, l₂, hbs, ⟨hb, by omega⟩, hlo, hhi⟩
  · rintro ⟨l₁, b, l₂, hbs, ⟨hb, hsize⟩, hlo, hhi⟩
    exact ⟨⟨l₁, b, l₂, hbs, hb, hlo, hhi⟩, by omega⟩

/-- A block that fits cannot stand before the first one that does. -/
theorem first_le_of_fits {c : Block} {l₃ l₄ : List Block} (a : Nat)
    (heq : l₁ ++ b :: l₂ = l₃ ++ c :: l₄) (hfirst : ∀ d ∈ l₁, ¬ d.Fits size) (hc : c.Fits size) :
    endOf a l₁ ≤ endOf a l₃ := by
  obtain ⟨l, rfl, -⟩ | ⟨l, rfl, hl⟩ := List.append_eq_append_iff.mp heq
  · rw [endOf_append]
    exact le_endOf _ l
  · cases l with
    | nil => rw [List.append_nil]
    | cons d l =>
        obtain ⟨rfl, -⟩ := List.cons.inj hl
        exact absurd hc (hfirst c (by simp))

/-- The block allocated has the size asked for, or the rest was too small to be cut off. The bound of
the split may wrap here: what is cut off is then out of place, but the sizes are right. -/
theorem kmallocSize_taken_bounds (hrep : Represents h (l₁ ++ b :: l₂)) (hfits : b.Fits size)
    (hsize : size < 2 ^ 64) :
    size ≤ (h.taken (endOf h.heapStart l₁) size).kmallocSize (endOf h.heapStart l₁ + 32) ∧
      (h.taken (endOf h.heapStart l₁) size).kmallocSize (endOf h.heapStart l₁ + 32) <
        size + minBlockSize := by
  have hle := hfits.2
  rw [kmallocSize_taken hrep hsize, minBlockSize_eq]
  split
  · rename_i hsmall
    unfold wadd at hsmall
    omega
  · omega

theorem Session.Sound.firstFits (hsound : s.Sound) (hpos : 1 ≤ n) (hn : n ≤ 2 ^ 64 - 8) :
    s.FirstFits n := by
  obtain ⟨bs, hrep, hlive⟩ := hsound
  have hround : alignSize n = roundUp n := alignSize_of_le hn
  have hgaps : ∀ lo hi, s.LargeGap (roundUp n) lo hi ↔ _ := fun lo hi => largeGap_iff hrep hlive
  obtain ⟨hnone, -, hnull⟩ | ⟨l₁, b, l₂, rfl, hfirst, hfits, -, hrun⟩ :=
    kmalloc_outcomes (n := n) hrep (by omega)
  · rw [hround] at hnone
    have hnogap : ∀ lo hi, ¬ s.LargeGap (roundUp n) lo hi := by
      intro lo hi hgap
      obtain ⟨l₁, b, l₂, rfl, hfits, -⟩ := (hgaps lo hi).mp hgap
      exact hnone b (by simp) hfits
    refine ⟨iff_of_true ⟨_, hnull⟩ hnogap, fun h' hq => ?_, fun ⟨lo, hi, hgap⟩ => ?_⟩
    · exact (Prod.mk.inj (Option.some_inj.mp (hq.symm.trans hnull))).2
    · exact absurd hgap (hnogap lo hi)
  · rw [hround] at hfirst hfits hrun
    have hgap := (hgaps _ _).mpr ⟨l₁, b, l₂, rfl, hfits, rfl, rfl⟩
    have hnotnull : ∀ h', s.heap.kmalloc n ≠ some (0, h') := by
      intro h' hq
      have hptr := (Prod.mk.inj (Option.some_inj.mp (hrun.symm.trans hq))).1
      omega
    refine ⟨iff_of_false (fun ⟨h', hq⟩ => hnotnull h' hq) fun hno => hno _ _ hgap,
      fun h' hq => absurd hq (hnotnull h'), fun _ => ⟨_, _, _, hgap, fun lo' hi' hgap' => ?_, hrun,
        kmallocSize_taken_bounds hrep hfits (hround ▸ alignSize_lt n)⟩⟩
    obtain ⟨l₃, c, l₄, heq, hc, rfl, -⟩ := (hgaps lo' hi').mp hgap'
    exact first_le_of_fits _ heq hfirst hc

/-- **First fit over gaps.** In every heap reached by calls that keep the bound of `split_block` from
wrapping, `kmalloc` takes the lowest gap that is large enough, and fails only if there is none. -/
theorem firstFits_of_run (h : Heap) (start size : Nat) (hacc : Accepts start size) {s : Session}
    (hrun : Session.Run Session.Bounded ⟨h.heapInit start size, []⟩ s) {n : Nat} (hpos : 1 ≤ n)
    (hn : n ≤ 2 ^ 64 - 8) : s.FirstFits n :=
  ((Session.sound_heapInit h hacc).run hrun).firstFits hpos hn

theorem firstFits_onePage : onePage.FirstFits 100 :=
  firstFits_of_run blank 0x1000 0x1000 ⟨by decide, by decide, by decide⟩
    (Relation.ReflTransGen.single
      ⟨.kmalloc 16, by decide, Or.inr (Or.inl (by decide)), (Option.some_get _).symm⟩)
    (by decide) (by decide)

/-- After the wrapped bound one live block covers the heap; a request for 8 bytes is still served, from
the block that was cut off past its end. -/
theorem not_firstFits_wrappedSession : Accepts 8 (2 ^ 64 - 16) ∧
    Session.Run (fun _ _ => True) ⟨blank.heapInit 8 (2 ^ 64 - 16), []⟩ wrappedSession ∧
    ¬ wrappedSession.FirstFits 8 := by
  refine ⟨⟨by decide, by decide, by decide⟩, Relation.ReflTransGen.single
    ⟨.kmalloc (2 ^ 64 - 48), by decide, trivial, (Option.some_get _).symm⟩, fun hfits => ?_⟩
  have hlive : wrappedSession.live = [40] := by decide +kernel
  have hsize : wrappedSession.heap.kmallocSize 40 = 2 ^ 64 - 48 := by decide +kernel
  have hstart : wrappedSession.heap.heapStart = 8 := by decide +kernel
  have htotal : wrappedSession.heap.heapTotalSize = 2 ^ 64 - 16 := by decide +kernel
  have hserved : (wrappedSession.heap.kmalloc 8).map Prod.fst ≠ some 0 := by decide +kernel
  obtain ⟨h', hnull⟩ := hfits.null_iff.mpr fun lo hi hlarge => by
    have hgap := hlarge.1
    rw [Session.Gap, hstart, htotal] at hgap
    refine hgap.clear lo le_rfl hgap.lt ⟨40, by simp [hlive], ?_, ?_⟩
    · have hlow := hgap.first_le
      omega
    · have hlow := hgap.lt
      have hhigh := hgap.le_last
      rw [hsize]
      omega
  exact hserved (by rw [hnull]; rfl)

end Heap

end SimpleOs
