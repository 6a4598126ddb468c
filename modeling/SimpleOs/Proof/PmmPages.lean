import SimpleOs.Mm.Pmm

/-!
# What each operation does to the set of used pages

`bitmapTest` is the only way the program reads the bitmap, so every operation is described by the
`bitmapTest` of its result. The bit arithmetic is confined to the first section.
-/

namespace SimpleOs.Pmm

variable {s : Pmm} {page q start count : Nat}

section Bits

theorem bitmapTest_of_le (h : pmmMaxPages ≤ page) : s.bitmapTest page = true := by
  rw [bitmapTest, if_neg (by omega)]

theorem lt_of_bitmapTest_eq_false (h : s.bitmapTest page = false) : page < 65536 := by
  by_contra hle
  rw [bitmapTest_of_le (by simpa using hle)] at h
  exact absurd h (by decide)

theorem getLsbD_mask {i j : Nat} (hj : j < 8) : (1#8 <<< i).getLsbD j = decide (j = i) := by
  simp only [BitVec.getLsbD_shiftLeft, BitVec.getLsbD_one, hj, decide_true, Bool.true_and]
  by_cases heq : j = i
  · simp [heq]
  · by_cases hlt : j < i
    · simp [hlt, heq]
    · simp [heq]
      omega

theorem page_eq_iff : q = page ↔ q / 8 = page / 8 ∧ q % 8 = page % 8 := by
  omega

theorem bitmapTest_bitmapSet :
    (s.bitmapSet page).bitmapTest q = (decide (q = page) || s.bitmapTest q) := by
  by_cases hpage : page < pmmMaxPages
  · by_cases hq : q < pmmMaxPages
    · have hiff : q = page ↔ q / 8 = page / 8 ∧ q % 8 = page % 8 := page_eq_iff
      simp only [bitmapSet, bitmapTest, if_pos hpage, if_pos hq, hiff]
      by_cases hbyte : q / 8 = page / 8
      · rw [hbyte, Function.update_self, BitVec.getLsbD_or,
          getLsbD_mask (Nat.mod_lt q (by decide : 0 < 8)), Bool.or_comm]
        simp
      · rw [Function.update_of_ne hbyte]
        simp [hbyte]
    · simp [bitmapTest_of_le (not_lt.mp hq)]
  · rw [bitmapSet, if_neg hpage]
    by_cases heq : q = page
    · simp [heq, bitmapTest_of_le (not_lt.mp hpage)]
    · simp [heq]

theorem bitmapTest_bitmapClear :
    (s.bitmapClear page).bitmapTest q =
      if q = page ∧ q < pmmMaxPages then false else s.bitmapTest q := by
  by_cases hpage : page < pmmMaxPages
  · by_cases hq : q < pmmMaxPages
    · have hiff : q = page ↔ q / 8 = page / 8 ∧ q % 8 = page % 8 := page_eq_iff
      have hlt := Nat.mod_lt q (by decide : 0 < 8)
      simp only [bitmapClear, bitmapTest, if_pos hpage, if_pos hq]
      by_cases hbyte : q / 8 = page / 8
      · rw [hbyte, Function.update_self, BitVec.getLsbD_and, BitVec.getLsbD_not, getLsbD_mask hlt]
        by_cases hbit : q % 8 = page % 8
        · rw [if_pos ⟨hiff.mpr ⟨hbyte, hbit⟩, hq⟩]
          simp [hbit]
        · rw [if_neg fun h => hbit (hiff.mp h.1).2]
          simp [hbit, hlt]
      · rw [Function.update_of_ne hbyte, if_neg fun h => hbyte (hiff.mp h.1).1]
    · rw [if_neg (fun h => hq h.2), bitmapTest_of_le (not_lt.mp hq), bitmapTest_of_le (not_lt.mp hq)]
  · rw [bitmapClear, if_neg hpage, if_neg (by omega)]

end Bits

theorem bitmapTest_markUsed :
    (s.markUsed page).bitmapTest q = (decide (q = page) || s.bitmapTest q) :=
  bitmapTest_bitmapSet

theorem bitmapTest_release :
    (s.release page).bitmapTest q =
      if q = page ∧ q < pmmMaxPages then false else s.bitmapTest q := by
  rw [release]
  split
  · exact bitmapTest_bitmapClear
  · rename_i hfree
    split
    · rename_i heq
      simpa [heq.1] using hfree
    · rfl

theorem bitmapTest_releaseRange :
    (s.releaseRange start count).bitmapTest q =
      if start ≤ q ∧ q < start + count ∧ q < pmmMaxPages then false else s.bitmapTest q := by
  induction count generalizing s start with
  | zero =>
      rw [releaseRange, if_neg (by omega)]
  | succ count ih =>
      rw [releaseRange]
      split
      · rw [ih, bitmapTest_release]
        by_cases hfirst : q = start ∧ q < pmmMaxPages
        · rw [if_pos hfirst, ite_self, if_pos (by omega)]
        · rw [if_neg hfirst]
          exact if_congr (by omega) rfl rfl
      · rw [if_neg (by omega)]

theorem bitmapTest_markRange :
    (s.markRange start count).bitmapTest q =
      (decide (start ≤ q ∧ q < start + count) || s.bitmapTest q) := by
  induction count generalizing s start with
  | zero =>
      simp [markRange]
  | succ count ih =>
      have hsplit : (start ≤ q ∧ q < start + (count + 1)) ↔
          (start + 1 ≤ q ∧ q < start + 1 + count) ∨ q = start := by omega
      rw [markRange, ih, bitmapTest_markUsed, decide_eq_decide.mpr hsplit, Bool.decide_or,
        Bool.or_assoc]

theorem usedPages_markUsed (s : Pmm) (page : Nat) :
    (s.markUsed page).usedPages = s.usedPages + 1 := rfl

theorem usedPages_markRange :
    (s.markRange start count).usedPages = s.usedPages + BitVec.ofNat 64 count := by
  induction count generalizing s start with
  | zero => simp [markRange]
  | succ count ih =>
      rw [markRange, ih, usedPages_markUsed, BitVec.ofNat_add, BitVec.add_assoc,
        BitVec.add_comm (BitVec.ofNat 64 count)]
      rfl

theorem usedPages_releaseRange (hmax : start + count ≤ pmmMaxPages)
    (hused : ∀ q, start ≤ q → q < start + count → s.bitmapTest q = true) :
    (s.releaseRange start count).usedPages = s.usedPages - BitVec.ofNat 64 count := by
  induction count generalizing s start with
  | zero => simp [releaseRange]
  | succ count ih =>
      have hfirst := hused start le_rfl (by omega)
      have hrest : ∀ q, start + 1 ≤ q → q < start + 1 + count →
          (s.release start).bitmapTest q = true := by
        intro q hle hlt
        rw [bitmapTest_release, if_neg (by omega)]
        exact hused q (by omega) (by omega)
      rw [releaseRange, if_pos (by omega), ih (by omega) hrest, release, if_pos hfirst,
        BitVec.ofNat_add, BitVec.sub_sub, BitVec.add_comm]
      rfl

section Bytes

variable {i : Nat} (hi : pmmBitmapSize ≤ i)

include hi

theorem bitmap_markRange_of_le : (s.markRange start count).bitmap i = s.bitmap i := by
  induction count generalizing s start with
  | zero => rfl
  | succ count ih =>
      rw [markRange, ih, markUsed, bitmapSet]
      split
      · rename_i hstart
        rw [pmmBitmapSize_eq] at hi
        rw [pmmMaxPages_eq] at hstart
        exact Function.update_of_ne (by omega) _ _
      · rfl

theorem bitmap_releaseRange_of_le : (s.releaseRange start count).bitmap i = s.bitmap i := by
  induction count generalizing s start with
  | zero => rfl
  | succ count ih =>
      rw [releaseRange]
      split
      · rename_i hstart
        rw [ih, release, bitmapClear, if_pos hstart]
        rw [pmmBitmapSize_eq] at hi
        rw [pmmMaxPages_eq] at hstart
        split
        · exact Function.update_of_ne (by omega) _ _
        · rfl
      · rfl

end Bytes

/-- The bytes of the bitmap are determined by the pages. -/
theorem bitmap_ext {s' : Pmm} (htest : ∀ q, s.bitmapTest q = s'.bitmapTest q)
    (hout : ∀ i, pmmBitmapSize ≤ i → s.bitmap i = s'.bitmap i) : s.bitmap = s'.bitmap := by
  funext i
  by_cases hi : pmmBitmapSize ≤ i
  · exact hout i hi
  · apply BitVec.eq_of_getLsbD_eq
    intro j hj
    have hlt : 8 * i + j < pmmMaxPages := by
      rw [pmmBitmapSize_eq] at hi
      rw [pmmMaxPages_eq]
      omega
    have hpage := htest (8 * i + j)
    simp only [bitmapTest, if_pos hlt] at hpage
    rwa [show (8 * i + j) / 8 = i by omega, show (8 * i + j) % 8 = j by omega] at hpage

theorem bitmap_releaseRange_markRange (hmax : start + count ≤ pmmMaxPages)
    (hfree : ∀ q, start ≤ q → q < start + count → s.bitmapTest q = false) :
    ((s.markRange start count).releaseRange start count).bitmap = s.bitmap := by
  refine bitmap_ext (fun q => ?_) fun i hi => ?_
  · rw [bitmapTest_releaseRange, bitmapTest_markRange]
    by_cases hq : start ≤ q ∧ q < start + count
    · rw [if_pos ⟨hq.1, hq.2, by omega⟩, hfree q hq.1 hq.2]
    · rw [if_neg fun hin => hq ⟨hin.1, hin.2.1⟩]
      simp [hq]
  · rw [bitmap_releaseRange_of_le hi, bitmap_markRange_of_le hi]

theorem bitmapTest_reserveRange :
    (s.reserveRange start count).bitmapTest q =
      (decide (start ≤ q ∧ q < start + count) || s.bitmapTest q) := by
  induction count generalizing s start with
  | zero =>
      simp [reserveRange]
  | succ count ih =>
      have hsplit : (start ≤ q ∧ q < start + (count + 1)) ↔
          (start + 1 ≤ q ∧ q < start + 1 + count) ∨ q = start := by omega
      have hstep : (if s.bitmapTest start then s else s.markUsed start).bitmapTest q =
          (decide (q = start) || s.bitmapTest q) := by
        split
        · rename_i hused
          by_cases heq : q = start
          · simp [heq, hused]
          · simp [heq]
        · exact bitmapTest_markUsed
      rw [reserveRange, ih, hstep, decide_eq_decide.mpr hsplit, Bool.decide_or, Bool.or_assoc]

theorem bitmapTest_allUsed : s.allUsed.bitmapTest q = true := by
  rw [bitmapTest]
  split
  · have hlt := Nat.mod_lt q (by decide : 0 < 8)
    have hbyte : q / 8 < pmmBitmapSize := by
      simp_all only [pmmMaxPages_eq, pmmBitmapSize_eq]
      omega
    have hones : s.allUsed.bitmap (q / 8) = BitVec.allOnes 8 := if_pos hbyte
    rw [hones, BitVec.getLsbD_allOnes]
    simpa using hlt
  · rfl

theorem bitmapTest_addRegion {e : MemoryMapEntry} :
    (s.addRegion e).bitmapTest q =
      if e.Usable ∧ e.Covers q ∧ q < pmmMaxPages then false else s.bitmapTest q := by
  rw [addRegion]
  split
  · rename_i husable
    rw [bitmapTest_releaseRange]
    refine if_congr ?_ rfl rfl
    simp only [husable, true_and, MemoryMapEntry.Covers, pageSize_eq]
    -- the clamp to the size of the bitmap changes nothing below the limit
    by_cases hclamp : e.numPages > pmmMaxPages
    · rw [if_pos hclamp]
      omega
    · rw [if_neg hclamp]
      omega
  · rename_i hunusable
    rw [if_neg fun h => hunusable h.1]

theorem bitmapTest_foldl_addRegion (es : List MemoryMapEntry) :
    (es.foldl addRegion s).bitmapTest q = false ↔
      s.bitmapTest q = false ∨ q < pmmMaxPages ∧ ∃ e ∈ es, e.Usable ∧ e.Covers q := by
  induction es generalizing s with
  | nil => simp
  | cons e es ih =>
      rw [List.foldl_cons, ih, bitmapTest_addRegion]
      by_cases hcovers : e.Usable ∧ e.Covers q ∧ q < pmmMaxPages
      · rw [if_pos hcovers]
        simp only [List.mem_cons, exists_eq_or_imp]
        tauto
      · rw [if_neg hcovers]
        simp only [List.mem_cons, exists_eq_or_imp]
        tauto

def UsablePage (es : List MemoryMapEntry) (p : Nat) : Prop :=
  ∃ e ∈ es, e.Usable ∧ e.Covers p

/-- After an accepted `pmm_init` the free pages are those from 2 MiB to 256 MiB that a usable entry
covers, whatever the bitmap held before. -/
theorem bitmapTest_pmmInit {mem : ByteMemory} {mmap entries : Nat} (h : Accepts mmap entries) :
    (pmmInit mem mmap entries s).bitmapTest q = false ↔
      pmmFirstPage ≤ q ∧ q < pmmMaxPages ∧ UsablePage (memoryMap mem mmap entries) q := by
  rw [pmmInit, if_pos h, bitmapTest_reserveRange, Bool.or_eq_false_iff, bitmapTest_foldl_addRegion,
    bitmapTest_allUsed, decide_eq_false_iff_not]
  simp only [Bool.true_eq_false, false_or, zero_add, Nat.zero_le, true_and, not_lt]
  rfl

def allConventional : Pmm := ⟨fun i => if i < 64 then 0xFF else 0, 65536, 512⟩

end SimpleOs.Pmm
