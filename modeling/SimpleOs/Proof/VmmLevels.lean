import SimpleOs.Proof.PmmAccounting
import SimpleOs.Proof.VmmHardware
import SimpleOs.Proof.VmmMap

/-!
# The levels of a tree of page tables

A call edits the tables in two ways only, so what both edits keep every call keeps (`step_induct`). And
on a tree the processor reads the entries that the kernel made: those of the upper levels satisfy what
every entry for a new table satisfies, and the walk ends at the last-level entry of the address.
-/

namespace SimpleOs.Vmm

open X86 (Word load store)
open Radix

variable {v v' : Vmm} {m : ByteMemory} {t t' c u virt : Word} {i j : Fin 512}
  {path path' : List (Fin 512)} {call : MapCall}

def pageWord (page : Nat) : Word := BitVec.ofNat 64 (page * pageSize)

/-- A new table in the page, behind entry `i` of the table `t`. -/
def hang (v : Vmm) (t : Word) (i : Fin 512) (page : Nat) : Vmm :=
  ⟨graft v.mem t i (pageWord page), v.pmm.markRange page 1, v.kernelPml4⟩

def setLeaf (v : Vmm) (t : Word) (i : Fin 512) (x : Word) : Vmm :=
  { v with mem := store v.mem (entryAddr t (indexWord i)) x }

theorem child_eq_none_iff :
    child m t i = none ↔ load m (entryAddr t (indexWord i)) &&& vmmPresent = 0 := by
  rw [child, follow]
  split <;> simp_all

theorem child_eq_some_iff : child m t i = some c ↔
    load m (entryAddr t (indexWord i)) &&& vmmPresent ≠ 0 ∧
      c = load m (entryAddr t (indexWord i)) &&& frameMask := by
  rw [child, follow]
  split <;> simp_all [eq_comm]

theorem walkFrom_snoc (hpath : v.walkFrom path = some t) (i : Fin 512) :
    v.walkFrom (path ++ [i]) = child v.mem t i := by
  rw [walkFrom, walk_snoc, show walk (child v.mem) v.kernelPml4 path = some t from hpath,
    Option.bind_some]

theorem nextTable_cases (v : Vmm) (t : Word) (i : Fin 512) :
    (∃ c, child v.mem t i = some c ∧ v.nextTable t (indexWord i) = (some c, v)) ∨
    (child v.mem t i = none ∧ ∃ page, v.pmm.Window 1 page ∧
      v.nextTable t (indexWord i) = (some (pageWord page), v.hang t i page)) ∨
    (child v.mem t i = none ∧ (∀ page, ¬ v.pmm.Window 1 page) ∧
      v.nextTable t (indexWord i) = (none, v)) := by
  rw [nextTable]
  split
  · rename_i habsent
    have hempty := child_eq_none_iff.mpr habsent
    obtain ⟨page, hwindow, -, halloc⟩ | ⟨hnone, halloc⟩ := v.pmm.pmmAllocPage_firstFit
    · refine Or.inr (Or.inl ⟨hempty, page, hwindow, ?_⟩)
      simp only [allocPageTable, halloc, hang, graft, pageWord]
    · refine Or.inr (Or.inr ⟨hempty, hnone, ?_⟩)
      simp only [allocPageTable, halloc]
  · rename_i hpresent
    exact Or.inl ⟨_, child_eq_some_iff.mpr ⟨hpresent, rfl⟩, rfl⟩

section Window

variable {page : Nat} (hwindow : v.pmm.Window 1 page)

include hwindow

theorem toNat_pageWord : (pageWord page).toNat = page * 4096 :=
  toNat_pageAddr hwindow.le_max

theorem aligned_pageWord : Aligned (pageWord page) :=
  aligned_of_toNat (toNat_pageWord hwindow)

theorem bitmapTest_pageWord : v.pmm.bitmapTest ((pageWord page).toNat / pageSize) = false := by
  rw [toNat_pageWord hwindow, pageSize_eq, Nat.mul_div_cancel page (by decide)]
  exact hwindow.free page le_rfl (by omega)

theorem Tree.fresh_pageWord (hv : v.Tree) (hle : path.length ≤ 3) :
    v.walkFrom path ≠ some (pageWord page) :=
  hv.fresh hwindow.le_max (hwindow.free page le_rfl (by omega)) hle

theorem Tree.walkFrom_hang (hv : v.Tree) (hpath : v.walkFrom path = some t) (hlen : path.length ≤ 2)
    (hempty : child v.mem t i = none) (hle : path'.length ≤ 4) :
    (v.hang t i page).walkFrom path' =
      if path' = path ++ [i] then some (pageWord page) else v.walkFrom path' :=
  hv.walkFrom_graft hpath hlen hempty (aligned_pageWord hwindow)
    (fun _ hle => hv.fresh_pageWord hwindow hle) _ hle

theorem Tree.hang (hv : v.Tree) (hpath : v.walkFrom path = some t) (hlen : path.length ≤ 2)
    (hempty : child v.mem t i = none) : v.Extends (v.hang t i page) := by
  have hmark : (v.pmm.markRange page 1).bitmapTest ((pageWord page).toNat / pageSize) = true := by
    rw [toNat_pageWord hwindow, pageSize_eq, Nat.mul_div_cancel page (by decide),
      Pmm.bitmapTest_markRange]
    simp
  have hmono : ∀ q, v.pmm.bitmapTest q = true → (v.pmm.markRange page 1).bitmapTest q = true := by
    intro q hq
    rw [Pmm.bitmapTest_markRange, hq, Bool.or_true]
  exact (hv.graft hpath hlen hempty (aligned_pageWord hwindow)
    (fun _ hle => hv.fresh_pageWord hwindow hle) (table_entry_plain hwindow.le_max) hmark hmono).1

end Window

/-- The tables behind the given indices, made where they are missing. -/
def makeTables (v : Vmm) (t : Word) : List (Fin 512) → Option Word × Vmm
  | [] => (some t, v)
  | i :: is =>
      match v.nextTable t (indexWord i) with
      | (none, v) => (none, v)
      | (some next, v) => makeTables v next is

def upperPath (virt : Word) : List (Fin 512) :=
  [slot (pml4Index virt), slot (pdptIndex virt), slot (pdIndex virt)]

theorem pathOf_eq (virt : Word) : pathOf virt = upperPath virt ++ [slot (ptIndex virt)] := rfl

theorem getOrCreateEntry_eq (hroot : v.kernelPml4 ≠ 0) (virt : Word) : v.getOrCreateEntry virt =
    (((v.makeTables v.kernelPml4 (upperPath virt)).1).map fun pt => entryAddr pt (ptIndex virt),
      (v.makeTables v.kernelPml4 (upperPath virt)).2) := by
  have hpml4 : indexWord (slot (pml4Index virt)) = pml4Index virt := indexWord_slot virt 39
  have hpdpt : indexWord (slot (pdptIndex virt)) = pdptIndex virt := indexWord_slot virt 30
  have hpd : indexWord (slot (pdIndex virt)) = pdIndex virt := indexWord_slot virt 21
  rw [getOrCreateEntry, if_neg hroot]
  simp only [upperPath, makeTables, hpml4, hpdpt, hpd]
  cases v.nextTable v.kernelPml4 (pml4Index virt) with
  | mk o₁ v₁ =>
      cases o₁ with
      | none => rfl
      | some pdpt =>
          simp only
          cases v₁.nextTable pdpt (pdptIndex virt) with
          | mk o₂ v₂ =>
              cases o₂ with
              | none => rfl
              | some pd =>
                  simp only
                  cases v₂.nextTable pd (pdIndex virt) with
                  | mk o₃ v₃ => cases o₃ <;> rfl

/-- What every new table on the way keeps, making the tables keeps. -/
theorem makeTables_induct {R : Vmm → Prop} {full : List (Fin 512)} {is : List (Fin 512)}
    (hhang : ∀ v path t i page, v.Tree → R v → v.walkFrom path = some t → path.length ≤ 2 →
      path ++ [i] <+: full → child v.mem t i = none → v.pmm.Window 1 page → R (v.hang t i page))
    (hv : v.Tree) (hR : R v) (hpath : v.walkFrom path = some t) (hfull : path ++ is = full)
    (hlen : full.length ≤ 3) :
    v.Extends (v.makeTables t is).2 ∧ R (v.makeTables t is).2 ∧
      ∀ pt, (v.makeTables t is).1 = some pt → (v.makeTables t is).2.walkFrom full = some pt := by
  induction is generalizing v t path with
  | nil =>
      refine ⟨Extends.refl hv, hR, fun pt hpt => ?_⟩
      rw [← hfull, List.append_nil]
      exact hpath.trans hpt
  | cons i is ih =>
      have hsplit : (path ++ [i]) ++ is = full := by rw [← hfull, List.append_assoc]; rfl
      have hshort : path.length ≤ 2 := by
        have hlength := congrArg List.length hfull
        simp at hlength
        omega
      rw [makeTables]
      obtain ⟨c, hchild, heq⟩ | ⟨hempty, page, hwindow, heq⟩ | ⟨-, -, heq⟩ := v.nextTable_cases t i
      · rw [heq]
        exact ih hv hR ((walkFrom_snoc hpath i).trans hchild) hsplit
      · rw [heq]
        have hext := hv.hang hwindow hpath hshort hempty
        have hnew : (v.hang t i page).walkFrom (path ++ [i]) = some (pageWord page) := by
          rw [hv.walkFrom_hang hwindow hpath hshort hempty (by simp; omega), if_pos rfl]
        obtain ⟨hext', hR', hpt⟩ := ih hext.tree
          (hhang v path t i page hv hR hpath hshort ⟨is, hsplit⟩ hempty hwindow) hnew hsplit
        exact ⟨hext.trans hext', hR', hpt⟩
      · rw [heq]
        exact ⟨Extends.refl hv, hR, fun pt hpt => nomatch hpt⟩

/-- **What both edits keep, a call keeps**: the new tables on its path and the entry at its end. -/
theorem step_induct {R : Vmm → Prop}
    (hhang : ∀ v path t i page, v.Tree → R v → v.walkFrom path = some t → path.length ≤ 2 →
      path ++ [i] <+: upperPath call.virt → child v.mem t i = none → v.pmm.Window 1 page →
      R (v.hang t i page))
    (hleaf : ∀ v t, v.Tree → R v → v.walkFrom (upperPath call.virt) = some t →
      R (v.setLeaf t (slot (ptIndex call.virt)) call.entry))
    (hv : v.Tree) (hR : R v) : R (v.step call) := by
  have hpt : indexWord (slot (ptIndex call.virt)) = ptIndex call.virt := indexWord_slot _ 12
  obtain ⟨hext, hR', hfound⟩ :=
    makeTables_induct hhang hv hR (show v.walkFrom [] = some v.kernelPml4 from rfl) rfl le_rfl
  rw [step_eq, getOrCreateEntry_eq hv.root_ne_zero]
  cases hmade : (v.makeTables v.kernelPml4 (upperPath call.virt)).1 with
  | none => exact hR'
  | some pt =>
      have hset := hleaf _ pt hext.tree hR' (hfound pt hmade)
      rwa [setLeaf, hpt] at hset

theorem Tree.step (hv : v.Tree) (call : MapCall) : (v.step call).Tree := by
  refine step_induct (R := Tree) (fun v path t i page hv _ hpath hlen _ hempty hwindow => ?_)
    (fun v t hv _ hpath => ?_) hv hv
  · exact (hv.hang hwindow hpath hlen hempty).tree
  · exact (hv.leaf hpath rfl _ _).1

/-- The pages that `pmm_alloc_page` can hand out. -/
def allocatable (pmm : Pmm) : Finset Nat := pmm.freeSet.filter (pmmFirstPage ≤ ·)

theorem mem_allocatable {pmm : Pmm} {page : Nat} : page ∈ allocatable pmm ↔ pmm.Window 1 page := by
  rw [allocatable, Finset.mem_filter, Pmm.freeSet, Finset.mem_filter, Finset.mem_range]
  constructor
  · rintro ⟨⟨hlt, hfree⟩, hfirst⟩
    refine ⟨hfirst, hlt, fun q hle hq => ?_⟩
    rwa [show q = page by omega]
  · rintro hwindow
    exact ⟨⟨hwindow.le_max, hwindow.free page le_rfl (by omega)⟩, hwindow.first_le⟩

theorem card_allocatable_markRange {pmm : Pmm} {page : Nat} (hwindow : pmm.Window 1 page) :
    (allocatable (pmm.markRange page 1)).card + 1 = (allocatable pmm).card := by
  have herase : allocatable (pmm.markRange page 1) = (allocatable pmm).erase page := by
    ext q
    have hmark : page ≤ q ∧ q < page + 1 ↔ q = page := by omega
    simp only [allocatable, Pmm.freeSet, Finset.mem_filter, Finset.mem_range, Finset.mem_erase,
      Pmm.bitmapTest_markRange, hmark]
    by_cases hq : q = page <;> simp [hq]
  rw [herase, Finset.card_erase_add_one (mem_allocatable.mpr hwindow)]

/-- How many tables are missing behind the indices. -/
def missing (m : ByteMemory) (t : Word) : List (Fin 512) → Nat
  | [] => 0
  | i :: is =>
      match child m t i with
      | none => is.length + 1
      | some c => missing m c is

def missingTables (v : Vmm) (virt : Word) : Nat := missing v.mem v.kernelPml4 (upperPath virt)

theorem missing_of_empty (h : ∀ i, child m t i = none) (is : List (Fin 512)) :
    missing m t is = is.length := by
  cases is with
  | nil => rfl
  | cons i is => rw [missing, h i, List.length_cons]

theorem makeTables_isSome_iff {is : List (Fin 512)} (hv : v.Tree) (hpath : v.walkFrom path = some t)
    (hlen : path.length + is.length = 3) :
    (v.makeTables t is).1 ≠ none ↔ missing v.mem t is ≤ (allocatable v.pmm).card := by
  induction is generalizing v t path with
  | nil => simp [makeTables, missing]
  | cons i is ih =>
      rw [List.length_cons] at hlen
      rw [makeTables, missing]
      obtain ⟨c, hchild, heq⟩ | ⟨hempty, page, hwindow, heq⟩ | ⟨hempty, hnone, heq⟩ :=
        v.nextTable_cases t i
      · rw [heq, hchild]
        exact ih hv ((walkFrom_snoc hpath i).trans hchild) (by simp; omega)
      · have hshort : path.length ≤ 2 := by omega
        have ht := hv.aligned hpath
        have hne : t ≠ pageWord page := by
          rintro rfl
          exact hv.fresh_pageWord hwindow (by omega) hpath
        have hnew : (v.hang t i page).walkFrom (path ++ [i]) = some (pageWord page) := by
          rw [hv.walkFrom_hang hwindow hpath hshort hempty (by simp; omega), if_pos rfl]
        have hclear : ∀ j, child (v.hang t i page).mem (pageWord page) j = none :=
          child_graft_fresh ht (aligned_pageWord hwindow) hne
        have hcard := card_allocatable_markRange hwindow
        rw [heq, hempty]
        simp only
        rw [ih (hv.hang hwindow hpath hshort hempty).tree hnew (by simp; omega),
          missing_of_empty hclear, ← hcard, Nat.add_le_add_iff_right]
        rfl
      · have hcard : (allocatable v.pmm).card = 0 := by
          rw [Finset.card_eq_zero, Finset.eq_empty_iff_forall_notMem]
          exact fun page hpage => hnone page (mem_allocatable.mp hpage)
        rw [heq, hempty, hcard]
        simp

/-- A call finds its tables if and only if there is a page for every table that is missing. -/
theorem succeeds_iff (hv : v.Tree) (call : MapCall) :
    v.Succeeds call ↔ v.missingTables call.virt ≤ (allocatable v.pmm).card := by
  rw [Succeeds, getOrCreateEntry_eq hv.root_ne_zero, ne_eq, Option.map_eq_none_iff]
  exact makeTables_isSome_iff hv (show v.walkFrom [] = some v.kernelPml4 from rfl) rfl

theorem missing_le (m : ByteMemory) (t : Word) (is : List (Fin 512)) :
    missing m t is ≤ is.length := by
  induction is generalizing t with
  | nil => exact le_rfl
  | cons i is ih =>
      rw [missing]
      split
      · exact le_rfl
      · exact (ih _).trans (Nat.le_succ _)

theorem succeeds_of_three_le (hv : v.Tree) (hpages : 3 ≤ (allocatable v.pmm).card)
    (call : MapCall) : v.Succeeds call :=
  (succeeds_iff hv call).mpr ((missing_le _ _ _).trans hpages)

theorem missing_eq_zero_of_walk {is : List (Fin 512)} (hwalk : walk (child m) t is = some c) :
    missing m t is = 0 := by
  induction is generalizing t with
  | nil => rfl
  | cons i is ih =>
      obtain ⟨node, hchild, hrest⟩ := Option.bind_eq_some_iff.mp hwalk
      rw [missing, hchild]
      exact ih hrest

/-- What has its last table in the tree can be mapped. -/
theorem succeeds_of_walkFrom (hv : v.Tree) (hpath : v.walkFrom (upperPath call.virt) = some pt) :
    v.Succeeds call := by
  rw [succeeds_iff hv, missingTables, missing_eq_zero_of_walk hpath]
  exact Nat.zero_le _

theorem card_allocatable_makeTables (v : Vmm) (t : Word) (is : List (Fin 512)) :
    (allocatable v.pmm).card ≤ (allocatable (v.makeTables t is).2.pmm).card + is.length := by
  induction is generalizing v t with
  | nil =>
      rw [makeTables]
      exact Nat.le_add_right _ _
  | cons i is ih =>
      rw [makeTables, List.length_cons]
      obtain ⟨c, -, heq⟩ | ⟨-, page, hwindow, heq⟩ | ⟨-, -, heq⟩ := v.nextTable_cases t i
      · rw [heq]
        exact (ih v c).trans (Nat.le_succ _)
      · have hrest : (allocatable (v.pmm.markRange page 1)).card ≤ _ := ih (v.hang t i page) (pageWord page)
        have hcard := card_allocatable_markRange hwindow
        rw [heq]
        simp only
        omega
      · rw [heq]
        exact Nat.le_add_right _ _

/-- A call takes three pages at most. -/
theorem card_allocatable_step (hv : v.Tree) (call : MapCall) :
    (allocatable v.pmm).card ≤ (allocatable (v.step call).pmm).card + 3 := by
  have hcard := card_allocatable_makeTables v v.kernelPml4 (upperPath call.virt)
  rw [step_eq, getOrCreateEntry_eq hv.root_ne_zero]
  cases hmade : (v.makeTables v.kernelPml4 (upperPath call.virt)).1 <;> exact hcard

theorem four_le_card_allocatable : 4 ≤ (allocatable emptyTree.pmm).card := by
  have hpages : ({512, 513, 514, 515} : Finset Nat) ⊆ allocatable emptyTree.pmm := by
    intro page hpage
    simp only [Finset.mem_insert, Finset.mem_singleton] at hpage
    rw [mem_allocatable]
    obtain rfl | rfl | rfl | rfl := hpage <;>
      exact ⟨by decide, by decide, fun q hle hlt => by
        obtain rfl : q = _ := le_antisymm (Nat.le_of_lt_succ hlt) hle
        decide⟩
  exact Finset.card_le_card hpages

theorem succeeds_emptyTree (call : MapCall) : emptyTree.Succeeds call :=
  succeeds_of_three_le tree_emptyTree (Nat.le_of_succ_le four_le_card_allocatable) call

theorem kernelPml4_step (hv : v.Tree) (call : MapCall) :
    (v.step call).kernelPml4 = v.kernelPml4 :=
  step_induct (R := fun v' => v'.kernelPml4 = v.kernelPml4)
    (fun _ _ _ _ _ _ hR _ _ _ _ _ => hR) (fun _ _ _ hR _ => hR) hv rfl

def UpperEntries (Q : Word → Prop) (v : Vmm) : Prop :=
  ∀ path t i, path.length ≤ 2 → v.walkFrom path = some t →
    load v.mem (entryAddr t (indexWord i)) &&& vmmPresent ≠ 0 →
    Q (load v.mem (entryAddr t (indexWord i)))

def tableEntry (page : Nat) : Word := pageWord page ||| vmmPresent ||| vmmWritable

/-- A last-level table is none of the tables above. -/
theorem Tree.load_setLeaf (hv : v.Tree) (hpath : v.walkFrom path = some t) (hlen : path.length = 3)
    {x : Word} (hpath' : v.walkFrom path' = some t') (hle : path'.length ≤ 2) :
    load (v.setLeaf t i x).mem (entryAddr t' (indexWord j)) =
      load v.mem (entryAddr t' (indexWord j)) := by
  rw [setLeaf, load_store (hv.aligned hpath) (hv.aligned hpath'), if_neg]
  rintro ⟨rfl, -⟩
  have hsame := hv.unaliased path' path t' (by omega) (by omega) hpath' hpath
  rw [hsame, hlen] at hle
  omega

theorem Tree.walkFrom_setLeaf (hv : v.Tree) (hpath : v.walkFrom path = some t)
    (hlen : path.length = 3) {x : Word} (hle : path'.length ≤ 3) :
    (v.setLeaf t i x).walkFrom path' = v.walkFrom path' := by
  rw [setLeaf, (hv.leaf hpath hlen i x).2 path' (by omega), if_neg]
  rintro rfl
  simp at hle
  omega

theorem UpperEntries.step {Q : Word → Prop} (hnew : ∀ page < pmmMaxPages, Q (tableEntry page))
    (hv : v.Tree) (h : UpperEntries Q v) (call : MapCall) : UpperEntries Q (v.step call) := by
  refine step_induct (fun v path t i page hv hQ hpath hlen _ hempty hwindow => ?_)
    (fun v t hv hQ hpath => ?_) hv h
  · intro path' t' j hle hpath' hpresent
    have ht := hv.aligned hpath
    have hc := aligned_pageWord hwindow
    have hne : t ≠ pageWord page := by
      rintro rfl
      exact hv.fresh_pageWord hwindow (by omega) hpath
    rw [hv.walkFrom_hang hwindow hpath hlen hempty (by omega)] at hpath'
    split at hpath'
    · -- the new table has no entries
      cases hpath'
      exact absurd (by rw [hang, load_graft_fresh ht hc hne]; decide) hpresent
    · by_cases hedited : t' = t ∧ j = i
      · rw [hedited.1, hedited.2, hang, load_graft_self ht]
        exact hnew page hwindow.le_max
      · have hkeep := hv.load_graft hpath hc (fun _ hle => hv.fresh_pageWord hwindow hle)
          (by omega) hpath' hedited
        simp only [hang, hkeep] at hpresent ⊢
        exact hQ path' t' j hle hpath' hpresent
  · intro path' t' j hle hpath' hpresent
    rw [hv.walkFrom_setLeaf hpath rfl (by omega)] at hpath'
    rw [hv.load_setLeaf hpath rfl hpath' hle] at hpresent ⊢
    exact hQ path' t' j hle hpath' hpresent

section Processor

open X86.Paging (Present MapsPage address cell index entries walk_eq_none_iff)

/-- The indices of the levels from `n` down to 1. -/
def below (u : Word) : Nat → List (Fin 512)
  | 0 => []
  | n + 1 => slot (index (n + 1) u) :: below u n

theorem cell_eq (ht : Aligned t) (hlt : t.toNat < 2 ^ 52) (n : Nat) (u : Word) :
    cell t n u = entryAddr t (indexWord (slot (index n u))) := by
  have haddress : address t = t := address_of_aligned hlt (by have htn := ht.toNat_eq; omega)
  have hindex : indexWord (slot (index n u)) = index n u := indexWord_slot u (12 + 9 * n)
  rw [cell, haddress, entryAddr, hindex]

theorem cell_address (t : Word) (n : Nat) (u : Word) : cell (address t) n u = cell t n u := by
  rw [cell, cell, address, address, BitVec.and_assoc, BitVec.and_self]

theorem walk_address (m : ByteMemory) (u : Word) (n : Nat) (t : Word) :
    X86.Paging.walk m u n (address t) = X86.Paging.walk m u n t := by
  cases n <;> simp only [X86.Paging.walk, cell_address]

theorem entries_address (m : ByteMemory) (u : Word) (n : Nat) (t : Word) :
    entries m u n (address t) = entries m u n t := by
  cases n <;> simp only [entries, cell_address]

/-- An entry above the last level that is present points to the table that the kernel follows. -/
theorem Tree.table (hv : v.Tree) (hpath : v.walkFrom path = some t) (hlen : path.length ≤ 2)
    (hchild : child v.mem t i = some c) (n : Nat) :
    c = address (load v.mem (entryAddr t (indexWord i))) ∧ c.toNat < 2 ^ 52 ∧
      Present (load v.mem (entryAddr t (indexWord i))) ∧
      ¬ MapsPage (n + 1) (load v.mem (entryAddr t (indexWord i))) := by
  obtain ⟨hpresent, rfl⟩ := child_eq_some_iff.mp hchild
  obtain ⟨hbit, hlt⟩ := hv.plain path t i hlen hpath hpresent
  refine ⟨and_frameMask_of_lt hlt, ?_, hpresent, ?_⟩
  · have hmask := toNat_and_frameMask (load v.mem (entryAddr t (indexWord i)))
    omega
  · rintro (hzero | ⟨-, hhuge⟩)
    · exact Nat.succ_ne_zero n hzero
    · exact hhuge ((X86.Paging.and_twoPow_eq_zero _ (k := 7) (by decide)).mpr hbit)

theorem Tree.walk_eq_none_iff {n : Nat} (hv : v.Tree) (hpath : v.walkFrom path = some t)
    (hlen : path.length + n = 3) (hlt : t.toNat < 2 ^ 52) (u : Word) :
    X86.Paging.walk v.mem u n t = none ↔
      walk (child v.mem) t (below u n ++ [slot (index 0 u)]) = none := by
  induction n generalizing path t with
  | zero =>
      have hchild := child_eq_none_iff (m := v.mem) (t := t) (i := slot (index 0 u))
      simp only [X86.Paging.walk, below, List.nil_append, walk, cell_eq (hv.aligned hpath) hlt,
        Option.bind_eq_none_iff, ite_eq_right_iff, reduceCtorEq, imp_false, Present]
      refine (not_ne_iff.trans hchild.symm).trans ?_
      cases child v.mem t (slot (index 0 u)) <;> simp
  | succ n ih =>
      have hcell := cell_eq (hv.aligned hpath) hlt (n + 1) u
      rw [below, List.cons_append, walk, X86.Paging.walk, hcell]
      cases hchild : child v.mem t (slot (index (n + 1) u)) with
      | none =>
          have habsent := child_eq_none_iff.mp hchild
          simp [Present, show (1#64 : Word) = vmmPresent from rfl, habsent]
      | some c =>
          obtain ⟨haddress, hclt, hpresent, hpage⟩ := hv.table hpath (by omega) hchild n
          simp only [hpresent, hpage, if_true, if_false, Option.bind_some]
          rw [← walk_address, ← haddress]
          exact ih ((walkFrom_snoc hpath _).trans hchild) (by simp; omega) hclt

/-- The processor reads the entries of the tables on the path and the last-level entry. -/
theorem Tree.entries_eq {Q : Word → Prop} {n : Nat} {pt : Word} (hv : v.Tree)
    (hQ : UpperEntries Q v) (hpath : v.walkFrom path = some t) (hlen : path.length + n = 3)
    (hlt : t.toNat < 2 ^ 52) (u : Word) (hpt : walk (child v.mem) t (below u n) = some pt) :
    ∃ es, entries v.mem u n t = es ++ [load v.mem (entryAddr pt (indexWord (slot (index 0 u))))] ∧
      es.length = n ∧ ∀ e ∈ es, Present e ∧ Q e := by
  induction n generalizing path t with
  | zero =>
      obtain rfl := Option.some_inj.mp hpt
      exact ⟨[], by rw [entries, cell_eq (hv.aligned hpath) hlt]; rfl, rfl, by simp⟩
  | succ n ih =>
      rw [below, walk] at hpt
      obtain ⟨c, hchild, hrest⟩ := Option.bind_eq_some_iff.mp hpt
      obtain ⟨haddress, hclt, hpresent, hpage⟩ := hv.table hpath (by omega) hchild n
      obtain ⟨es, hes, hcount, hall⟩ :=
        ih ((walkFrom_snoc hpath _).trans hchild) (by simp; omega) hclt hrest
      refine ⟨load v.mem (entryAddr t (indexWord (slot (index (n + 1) u)))) :: es, ?_, ?_, ?_⟩
      · rw [entries, cell_eq (hv.aligned hpath) hlt]
        simp only [if_pos (And.intro hpresent hpage), List.cons_append]
        rw [← entries_address, ← haddress, hes]
      · rw [List.length_cons, hcount]
      · rw [List.forall_mem_cons]
        exact ⟨⟨hpresent, hQ path t _ (by omega) hpath hpresent⟩, hall⟩

end Processor

end SimpleOs.Vmm
