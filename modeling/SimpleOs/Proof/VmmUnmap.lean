import SimpleOs.Proof.VmmLevels

/-!
# What unmapping takes

`vmm_unmap_page` walks with the routine that mapping uses, which makes the tables it does not find. So
it takes pages from the allocator just when a table of the walk is missing and there is a page for it,
whatever else the tables and the bitmap say. Nothing is assumed here about the pages that the tables are
in, and the entries above the last level may be huge.
-/

namespace SimpleOs.Vmm

open X86 (Word load store)
open Radix

variable {v : Vmm} {t u virt : Word} {is path : List (Fin 512)} {page : Nat}

/-- The tables as the walk follows them form a tree. -/
structure Tables (v : Vmm) : Prop where
  root_ne_zero : v.kernelPml4 ≠ 0
  root_aligned : Aligned v.kernelPml4
  unaliased : Unaliased (child v.mem) v.kernelPml4 3

theorem Tree.tables (hv : v.Tree) : v.Tables :=
  ⟨hv.root_ne_zero, hv.root_aligned, hv.unaliased⟩

theorem makeTables_of_walk (h : walk (child v.mem) t is = some u) :
    v.makeTables t is = (some u, v) := by
  induction is generalizing t with
  | nil => rw [makeTables, Option.some_inj.mp h]
  | cons i is ih =>
      rw [walk] at h
      obtain ⟨c, hchild, hrest⟩ := Option.bind_eq_some_iff.mp h
      obtain ⟨c', hchild', heq⟩ | ⟨hempty, -⟩ | ⟨hempty, -⟩ := v.nextTable_cases t i
      · obtain rfl := Option.some_inj.mp (hchild.symm.trans hchild')
        rw [makeTables, heq]
        exact ih hrest
      all_goals rw [hchild] at hempty; cases hempty

theorem makeTables_of_full (hfull : ∀ page, ¬ v.pmm.Window 1 page)
    (h : walk (child v.mem) t is = none) : v.makeTables t is = (none, v) := by
  induction is generalizing t with
  | nil => cases h
  | cons i is ih =>
      rw [makeTables]
      obtain ⟨c, hchild, heq⟩ | ⟨-, page, hwindow, -⟩ | ⟨-, -, heq⟩ := v.nextTable_cases t i
      · rw [heq]
        rw [walk, hchild, Option.bind_some] at h
        exact ih h
      · exact absurd hwindow (hfull page)
      · rw [heq]

theorem bitmapTest_hang (v : Vmm) (t : Word) (i : Fin 512) (page q : Nat) :
    (v.hang t i page).pmm.bitmapTest q = (v.pmm.bitmapTest q || decide (q = page)) := by
  have hmark : page ≤ q ∧ q < page + 1 ↔ q = page := by omega
  rw [hang, Pmm.bitmapTest_markRange, Bool.or_comm]
  simp only [hmark]

/-- No page becomes free. -/
theorem bitmapTest_makeTables (h : v.pmm.bitmapTest page = true) :
    (v.makeTables t is).2.pmm.bitmapTest page = true := by
  induction is generalizing v t with
  | nil => exact h
  | cons i is ih =>
      rw [makeTables]
      obtain ⟨c, -, heq⟩ | ⟨-, q, -, heq⟩ | ⟨-, -, heq⟩ := v.nextTable_cases t i
      · rw [heq]
        exact ih h
      · rw [heq]
        apply ih
        rw [bitmapTest_hang, h, Bool.true_or]
      · rw [heq]
        exact h

/-- The first table that is missing takes a page if there is one. -/
theorem makeTables_takes_page (hpage : v.pmm.Window 1 page)
    (h : walk (child v.mem) t is = none) :
    ∃ q, v.pmm.bitmapTest q = false ∧ (v.makeTables t is).2.pmm.bitmapTest q = true := by
  induction is generalizing t with
  | nil => cases h
  | cons i is ih =>
      rw [makeTables]
      obtain ⟨c, hchild, heq⟩ | ⟨-, q, hwindow, heq⟩ | ⟨-, hfull, -⟩ := v.nextTable_cases t i
      · rw [heq]
        rw [walk, hchild, Option.bind_some] at h
        exact ih h
      · rw [heq]
        refine ⟨q, hwindow.free q le_rfl (by omega), bitmapTest_makeTables ?_⟩
        rw [bitmapTest_hang, decide_eq_true rfl, Bool.or_true]
      · exact absurd hpage (hfull page)

theorem pmmAllocPage_eq_none_iff (s : Pmm) :
    s.pmmAllocPage.1 = none ↔ ∀ page, ¬ s.Window 1 page := by
  obtain ⟨page, hwindow, -, halloc⟩ | ⟨hnone, halloc⟩ := s.pmmAllocPage_firstFit
  · rw [halloc]
    simpa using ⟨page, hwindow⟩
  · rw [halloc]
    simpa using hnone

/-- The allocator is as it was, every table was there before, and all other pages are translated as
before. -/
structure ConsumesNothing (v v' : Vmm) (virt : Word) : Prop where
  bitmap : v'.pmm.bitmap = v.pmm.bitmap
  usedPages : v'.pmm.usedPages = v.pmm.usedPages
  tables : ∀ path t, path.length ≤ 3 → v'.walkFrom path = some t → v.walkFrom path = some t
  others : ∀ u, pageOf u ≠ pageOf virt → v'.vmmGetPhysical u = v.vmmGetPhysical u

theorem ConsumesNothing.refl (v : Vmm) (virt : Word) : ConsumesNothing v v virt :=
  ⟨rfl, rfl, fun _ _ _ h => h, fun _ _ => rfl⟩

theorem vmmUnmapPage_eq (hroot : v.kernelPml4 ≠ 0) (virt : Word) : v.vmmUnmapPage virt =
    match v.makeTables v.kernelPml4 (upperPath virt) with
    | (none, v) => v
    | (some pt, v) => v.setLeaf pt (slot (ptIndex virt)) 0 := by
  have hpt : indexWord (slot (ptIndex virt)) = ptIndex virt := indexWord_slot virt 12
  rw [vmmUnmapPage, getOrCreateEntry_eq hroot]
  cases v.makeTables v.kernelPml4 (upperPath virt) with
  | mk o v => cases o <;> simp [setLeaf, hpt]

theorem pmm_vmmUnmapPage (hroot : v.kernelPml4 ≠ 0) (virt : Word) :
    (v.vmmUnmapPage virt).pmm = (v.makeTables v.kernelPml4 (upperPath virt)).2.pmm := by
  rw [vmmUnmapPage_eq hroot]
  cases v.makeTables v.kernelPml4 (upperPath virt) with
  | mk o v => cases o <;> rfl

/-- Clearing an entry of a table that is there changes the one translation. -/
theorem Tables.setLeaf_consumes_nothing (hv : v.Tables) (hpath : v.walkFrom (upperPath virt) = some t) :
    ConsumesNothing v (v.setLeaf t (slot (ptIndex virt)) 0) virt := by
  have hwalk : ∀ path, path.length ≤ 4 →
      (v.setLeaf t (slot (ptIndex virt)) 0).walkFrom path =
        if path = pathOf virt then none else v.walkFrom path := by
    intro path hle
    exact walkFrom_leaf hv.root_aligned hv.unaliased hpath rfl _ 0 hle
  refine ⟨rfl, rfl, fun path t hle hfound => ?_, fun u hpage => ?_⟩
  · rwa [hwalk path (by omega), if_neg] at hfound
    rintro rfl
    exact absurd hle (by simp [pathOf])
  · have hother : pathOf u ≠ pathOf virt := mt pathOf_eq_iff.mp hpage
    rw [vmmGetPhysical_eq (v := v.setLeaf _ _ _) hv.root_ne_zero, vmmGetPhysical_eq hv.root_ne_zero,
      hwalk (pathOf u) le_rfl, if_neg hother]

/-- **When unmapping consumes nothing**: the tables down to the last level are there for the address,
or the allocator has no page to make them. -/
theorem unmap_consumes_nothing_iff (hv : v.Tables) (virt : Word) :
    ConsumesNothing v (v.vmmUnmapPage virt) virt ↔
      v.walkFrom (upperPath virt) ≠ none ∨ v.pmm.pmmAllocPage.1 = none := by
  rw [pmmAllocPage_eq_none_iff]
  constructor
  · intro hnothing
    by_contra! hcond
    obtain ⟨habsent, page, hpage⟩ := hcond
    obtain ⟨q, hfree, htaken⟩ := makeTables_takes_page hpage habsent
    rw [← pmm_vmmUnmapPage hv.root_ne_zero, Pmm.bitmapTest, hnothing.bitmap] at htaken
    rw [Pmm.bitmapTest, htaken] at hfree
    cases hfree
  · intro hcond
    rw [vmmUnmapPage_eq hv.root_ne_zero]
    cases hpath : v.walkFrom (upperPath virt) with
    | some t =>
        rw [makeTables_of_walk hpath]
        exact hv.setLeaf_consumes_nothing hpath
    | none =>
        rw [makeTables_of_full (hcond.resolve_left fun hne => hne hpath) hpath]
        exact ConsumesNothing.refl v virt

/-- A page that is not mapped, beside one that is. -/
theorem unmap_consumes_nothing_mapped :
    ConsumesNothing (emptyTree.step (.map 0x5000 0x9000 3))
      ((emptyTree.step (.map 0x5000 0x9000 3)).vmmUnmapPage 0x6000) 0x6000 := by
  obtain ⟨htree, hwalk⟩ := walkFrom_step tree_emptyTree (.map 0x5000 0x9000 3)
  have hmapped := hwalk (pathOf 0x5000) rfl
  rw [if_pos ⟨succeeds_emptyTree _, rfl⟩, if_neg (by decide), pathOf_eq, walkFrom, walk_snoc,
    Option.bind_eq_some_iff] at hmapped
  obtain ⟨pt, hpt, -⟩ := hmapped
  have hsame : upperPath 0x6000 = upperPath 0x5000 := by decide
  refine (unmap_consumes_nothing_iff htree.tables 0x6000).mpr (Or.inl ?_)
  rw [hsame, walkFrom, hpt]
  exact Option.some_ne_none pt

/-- In an empty tree there is nothing to unmap, and unmapping takes pages for three tables. -/
theorem not_unmap_consumes_nothing :
    emptyTree.Tables ∧ ¬ ConsumesNothing emptyTree (emptyTree.vmmUnmapPage 0x5000) 0x5000 := by
  have hpage : emptyTree.pmm.Window 1 512 := by
    refine ⟨le_rfl, by decide, fun q hle hlt => ?_⟩
    obtain rfl : q = 512 := by omega
    decide
  have habsent : emptyTree.walkFrom (upperPath 0x5000) = none := by
    by_contra hfound
    obtain ⟨t, ht⟩ := Option.ne_none_iff_exists'.mp hfound
    exact absurd (empty_emptyTree.walkFrom_eq_some ht).1 (by simp [upperPath])
  obtain ⟨q, hfree, htaken⟩ := makeTables_takes_page hpage habsent
  refine ⟨tree_emptyTree.tables, fun hnothing => ?_⟩
  rw [← pmm_vmmUnmapPage (by decide), Pmm.bitmapTest, hnothing.bitmap] at htaken
  rw [Pmm.bitmapTest, htaken] at hfree
  cases hfree

end SimpleOs.Vmm
