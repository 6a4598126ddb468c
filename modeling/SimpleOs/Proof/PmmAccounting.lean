import SimpleOs.Proof.PmmOwnership

/-!
# The page counters

`used_pages` is updated in the body of six loops. Each body tests the bit it is about to change, so the
counter moves exactly when the number of set bits does, whatever the arguments of the calls are.
-/

namespace SimpleOs.Pmm

def usedSet (s : Pmm) : Finset Nat := (Finset.range pmmMaxPages).filter fun p => s.bitmapTest p = true

def freeSet (s : Pmm) : Finset Nat := (Finset.range pmmMaxPages).filter fun p => s.bitmapTest p = false

/-- The counters say how many of the managed pages there are and how many of these are used. -/
structure Counted (s : Pmm) : Prop where
  total : s.totalPages.toNat = pmmMaxPages
  used : s.usedPages.toNat = s.usedSet.card

variable {s : Pmm} {page start count : Nat}

theorem mem_usedSet : page ∈ s.usedSet ↔ page < pmmMaxPages ∧ s.bitmapTest page = true := by
  rw [usedSet, Finset.mem_filter, Finset.mem_range]

theorem card_usedSet_le (s : Pmm) : s.usedSet.card ≤ pmmMaxPages := by
  have hcard := Finset.card_filter_le (Finset.range pmmMaxPages) fun p => s.bitmapTest p = true
  rwa [Finset.card_range] at hcard

theorem card_usedSet_add_card_freeSet (s : Pmm) : s.usedSet.card + s.freeSet.card = pmmMaxPages := by
  have hsplit := Finset.card_filter_add_card_filter_not (s := Finset.range pmmMaxPages)
    fun p => s.bitmapTest p = true
  simp only [Bool.not_eq_true, Finset.card_range] at hsplit
  exact hsplit

theorem usedSet_markUsed (hpage : page < pmmMaxPages) :
    (s.markUsed page).usedSet = insert page s.usedSet := by
  ext q
  rw [Finset.mem_insert, mem_usedSet, mem_usedSet, bitmapTest_markUsed, Bool.or_eq_true,
    decide_eq_true_iff]
  constructor
  · rintro ⟨hq, rfl | hused⟩
    · exact Or.inl rfl
    · exact Or.inr ⟨hq, hused⟩
  · rintro (rfl | ⟨hq, hused⟩)
    · exact ⟨hpage, Or.inl rfl⟩
    · exact ⟨hq, Or.inr hused⟩

theorem usedSet_release : (s.release page).usedSet = s.usedSet.erase page := by
  ext q
  rw [Finset.mem_erase, mem_usedSet, mem_usedSet, bitmapTest_release]
  by_cases hq : q = page ∧ q < pmmMaxPages
  · rw [if_pos hq]
    simp [hq.1]
  · rw [if_neg hq]
    constructor
    · rintro ⟨hlt, hused⟩
      exact ⟨fun heq => hq ⟨heq, hlt⟩, hlt, hused⟩
    · exact fun h => h.2

theorem Counted.markUsed (h : s.Counted) (hfree : s.bitmapTest page = false) :
    (s.markUsed page).Counted := by
  have hpage : page < pmmMaxPages := lt_of_bitmapTest_eq_false hfree
  have hnew : page ∉ s.usedSet := by
    rw [mem_usedSet, hfree]
    simp
  have htotal : (s.markUsed page).totalPages = s.totalPages := by
    simp only [Pmm.markUsed, bitmapSet]
    split <;> rfl
  refine ⟨by rw [htotal, h.total], ?_⟩
  have hle := card_usedSet_le (s.markUsed page)
  rw [usedSet_markUsed hpage, Finset.card_insert_of_notMem hnew] at hle ⊢
  calc (s.usedPages + 1).toNat = (s.usedPages.toNat + 1) % 2 ^ 64 := by
        rw [BitVec.toNat_add]
        rfl
    _ = s.usedSet.card + 1 := by
        rw [h.used, Nat.mod_eq_of_lt]
        rw [pmmMaxPages_eq] at hle
        omega

theorem Counted.release (h : s.Counted) (hpage : page < pmmMaxPages) : (s.release page).Counted := by
  by_cases hused : s.bitmapTest page = true
  · have hmem : page ∈ s.usedSet := mem_usedSet.mpr ⟨hpage, hused⟩
    have hpos := Finset.card_pos.mpr ⟨page, hmem⟩
    have hle := card_usedSet_le s
    have hcounter : (s.release page).usedPages = s.usedPages - 1 := by
      rw [Pmm.release, if_pos hused]
    have htotal : (s.release page).totalPages = s.totalPages := by
      rw [Pmm.release, if_pos hused]
      simp only [bitmapClear]
      split <;> rfl
    refine ⟨by rw [htotal, h.total], ?_⟩
    rw [hcounter, usedSet_release, Finset.card_erase_of_mem hmem]
    have hone : (1#64).toNat ≤ s.usedPages.toNat := by
      rw [h.used]
      exact hpos
    calc (s.usedPages - 1).toNat = s.usedPages.toNat - 1 := BitVec.toNat_sub_of_le hone
      _ = s.usedSet.card - 1 := by rw [h.used]
  · rw [Pmm.release, if_neg hused]
    exact h

theorem Counted.releaseRange (h : s.Counted) (start count : Nat) :
    (s.releaseRange start count).Counted := by
  induction count generalizing s start with
  | zero => exact h
  | succ count ih =>
      rw [Pmm.releaseRange]
      split
      · rename_i hpage
        exact ih (h.release hpage) (start + 1)
      · exact h

theorem Counted.markRange (h : s.Counted)
    (hfree : ∀ q, start ≤ q → q < start + count → s.bitmapTest q = false) :
    (s.markRange start count).Counted := by
  induction count generalizing s start with
  | zero => exact h
  | succ count ih =>
      refine ih (h.markUsed (hfree start le_rfl (by omega))) fun q hle hlt => ?_
      rw [bitmapTest_markUsed, hfree q (by omega) (by omega)]
      simpa using (show q ≠ start by omega)

theorem Counted.reserveRange (h : s.Counted) (start count : Nat) :
    (s.reserveRange start count).Counted := by
  induction count generalizing s start with
  | zero => exact h
  | succ count ih =>
      rw [Pmm.reserveRange]
      split
      · exact ih h (start + 1)
      · rename_i hfree
        exact ih (h.markUsed (Bool.eq_false_of_not_eq_true hfree)) (start + 1)

theorem Counted.addRegion (h : s.Counted) (e : MemoryMapEntry) : (s.addRegion e).Counted := by
  unfold Pmm.addRegion
  split
  · exact h.releaseRange _ _
  · exact h

theorem Counted.foldl_addRegion (h : s.Counted) (es : List MemoryMapEntry) :
    (es.foldl Pmm.addRegion s).Counted := by
  induction es generalizing s with
  | nil => exact h
  | cons e es ih => exact ih (h.addRegion e)

theorem counted_allUsed (s : Pmm) : s.allUsed.Counted := by
  have hall : s.allUsed.usedSet = Finset.range pmmMaxPages := by
    refine Finset.filter_true_of_mem fun p _ => ?_
    exact bitmapTest_allUsed
  refine ⟨by simp [allUsed], ?_⟩
  rw [hall, Finset.card_range]
  simp [allUsed]

theorem counted_pmmInit {mem : ByteMemory} {mmap entries : Nat} (haccept : Accepts mmap entries)
    (s : Pmm) : (pmmInit mem mmap entries s).Counted := by
  rw [pmmInit, if_pos haccept]
  exact ((counted_allUsed s).foldl_addRegion _).reserveRange _ _

/-- The allocator after a call with whatever arguments. -/
def after (s : Pmm) : Call → Pmm
  | .allocPage => s.pmmAllocPage.2
  | .allocPages count => (s.pmmAllocPages count).2
  | .freePage addr => s.pmmFreePage addr
  | .freePages addr count => s.pmmFreePages addr count

theorem Counted.after (h : s.Counted) (call : Call) : (s.after call).Counted := by
  cases call with
  | allocPage =>
      obtain ⟨p, hwindow, heq⟩ | heq := pmmAllocPage_cases s
      · rw [Pmm.after, heq]
        exact h.markRange hwindow.free
      · rw [Pmm.after, heq]
        exact h
  | allocPages count =>
      obtain ⟨p, hwindow, -, heq⟩ | heq := pmmAllocPages_cases s count
      · rw [Pmm.after, heq]
        exact h.markRange hwindow.free
      · rw [Pmm.after, heq]
        exact h
  | freePage addr => exact h.releaseRange (addr / pageSize) 1
  | freePages addr count => exact h.releaseRange (addr / pageSize) count

theorem Counted.foldl_after (h : s.Counted) (calls : List Call) : (calls.foldl Pmm.after s).Counted := by
  induction calls generalizing s with
  | nil => exact h
  | cons call calls ih => exact ih (h.after call)

theorem Counted.getFreePages (h : s.Counted) : s.pmmGetFreePages.toNat = s.freeSet.card := by
  have hsplit := card_usedSet_add_card_freeSet s
  have hle := card_usedSet_le s
  unfold pmmGetFreePages
  split
  · rename_i hgt
    rw [BitVec.toNat_sub_of_le (BitVec.le_of_lt hgt), h.total, h.used]
    omega
  · rename_i hgt
    rw [gt_iff_lt, BitVec.lt_def, h.total, h.used] at hgt
    have hzero : s.freeSet.card = 0 := by omega
    rw [hzero]
    rfl

/-- **Accounting.** From any accepted map the free pages are those from 2 MiB to 256 MiB that a usable
entry covers; and after any calls with any arguments the counters are the numbers of set and of clear
bits. -/
theorem counters_exact {mem : ByteMemory} {mmap entries : Nat} (haccept : Accepts mmap entries)
    (s : Pmm) :
    (∀ p, (pmmInit mem mmap entries s).bitmapTest p = false ↔ 512 ≤ p ∧ p < 65536 ∧
      ∃ e ∈ memoryMap mem mmap entries, e.Usable ∧
        e.physicalStart / 4096 ≤ p ∧ p < e.physicalStart / 4096 + e.numPages) ∧
    ∀ calls : List Call, ∀ t, t = calls.foldl Pmm.after (pmmInit mem mmap entries s) →
      t.pmmGetUsedPages.toNat = ((Finset.range 65536).filter fun p => t.bitmapTest p = true).card ∧
      t.pmmGetFreePages.toNat = ((Finset.range 65536).filter fun p => t.bitmapTest p = false).card ∧
      t.pmmGetTotalPages.toNat = 65536 := by
  refine ⟨fun p => bitmapTest_pmmInit haccept, ?_⟩
  rintro calls t rfl
  have hcounted : (calls.foldl Pmm.after (pmmInit mem mmap entries s)).Counted :=
    (counted_pmmInit haccept s).foldl_after calls
  exact ⟨hcounted.used, hcounted.getFreePages, hcounted.total⟩

/-- Frees of everything and of nothing, on a map of four pages. -/
def carelessCalls : List Call :=
  [.allocPages 2, .freePages 0 (2 ^ 64 - 1), .freePage (2 ^ 64 - 1), .freePages 0x200000 0]

theorem counters_exact_carelessCalls :
    (carelessCalls.foldl Pmm.after
      (pmmInit (oneRegion 4096 0x200000 4) 4096 1 ⟨fun _ => 0, 0, 0⟩)).pmmGetTotalPages.toNat = 65536 :=
  ((counters_exact (by decide) ⟨fun _ => 0, 0, 0⟩).2 carelessCalls _ rfl).2.2

end SimpleOs.Pmm
