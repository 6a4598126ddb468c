import SimpleOs.Proof.VmmLevels

/-!
# The upper half of an address space

`vmm_create_address_space` copies entries 256 to 511 of `kernel_pml4` by value. A later call that goes
through an entry that was present changes tables that both roots share. A later call that has to make
the entry changes `kernel_pml4` alone: what it maps is mapped in the kernel only.
-/

namespace SimpleOs.Vmm

open X86 (Word load store)
open X86.Paging (Present cell index)
open Radix

def UpperHalf (virt : Word) : Prop := 256 ≤ (pml4Index virt).toNat

/-- The upper half is translated through `pml4` as through `kernel_pml4`. -/
def Shared (v : Vmm) (pml4 : Word) : Prop :=
  ∀ u, UpperHalf u → X86.Paging.walk v.mem u 3 pml4 = X86.Paging.walk v.mem u 3 v.kernelPml4

/-- A used page that is no table of the tree. -/
structure Outside (v : Vmm) (a : Word) : Prop where
  aligned : Aligned a
  used : v.pmm.bitmapTest (a.toNat / pageSize) = true
  apart : ∀ path, path.length ≤ 3 → v.walkFrom path ≠ some a

variable {v v' v₀ w : Vmm} {m : ByteMemory} {t t' c u virt a pml4 : Word} {i j : Fin 512}
  {path path' : List (Fin 512)} {call : MapCall} {calls : List MapCall}

theorem Outside.step (ha : v.Outside a) (hv : v.Tree) (call : MapCall) : (v.step call).Outside a ∧
    ∀ i, load (v.step call).mem (entryAddr a (indexWord i)) =
      load v.mem (entryAddr a (indexWord i)) := by
  refine step_induct (R := fun v' => v'.Outside a ∧ ∀ i, load v'.mem (entryAddr a (indexWord i)) =
    load v.mem (entryAddr a (indexWord i))) ?_ ?_ hv ⟨ha, fun _ => rfl⟩
  · rintro v' path t i page hv ⟨ha, hload⟩ hpath hlen - hempty hwindow
    have hne : a ≠ pageWord page := by
      rintro rfl
      have hfree := bitmapTest_pageWord hwindow
      rw [ha.used] at hfree
      cases hfree
    have hta : a ≠ t := by
      rintro rfl
      exact ha.apart path (by omega) hpath
    refine ⟨⟨ha.aligned, ?_, fun path' hle hpath' => ?_⟩, fun j => ?_⟩
    · rw [hang, Pmm.bitmapTest_markRange, ha.used, Bool.or_true]
    · rw [hv.walkFrom_hang hwindow hpath hlen hempty (by omega)] at hpath'
      split at hpath'
      · exact hne (Option.some_inj.mp hpath').symm
      · exact ha.apart path' hle hpath'
    · rw [← hload j, hang, load_graft_of_ne (hv.aligned hpath) (aligned_pageWord hwindow) ha.aligned
        hne fun hboth => hta hboth.1]
  · rintro v' t hv ⟨ha, hload⟩ hpath
    have hta : a ≠ t := by
      rintro rfl
      exact ha.apart _ le_rfl hpath
    refine ⟨⟨ha.aligned, ha.used, fun path' hle hpath' => ?_⟩, fun j => ?_⟩
    · rw [hv.walkFrom_setLeaf hpath rfl hle] at hpath'
      exact ha.apart path' hle hpath'
    · rw [← hload j, setLeaf, load_store (hv.aligned hpath) ha.aligned,
        if_neg fun hboth => hta hboth.1]

/-- An entry of `kernel_pml4` changes only if it is that of the address and was not present. -/
theorem load_root_step (hv : v.Tree) (call : MapCall) (i : Fin 512) :
    load (v.step call).mem (entryAddr v.kernelPml4 (indexWord i)) =
        load v.mem (entryAddr v.kernelPml4 (indexWord i)) ∨
      i = slot (pml4Index call.virt) ∧ child v.mem v.kernelPml4 i = none := by
  refine (step_induct (R := fun v' => v'.kernelPml4 = v.kernelPml4 ∧
    (load v'.mem (entryAddr v.kernelPml4 (indexWord i)) =
        load v.mem (entryAddr v.kernelPml4 (indexWord i)) ∨
      i = slot (pml4Index call.virt) ∧ child v.mem v.kernelPml4 i = none)) ?_ ?_ hv
    ⟨rfl, Or.inl rfl⟩).2
  · rintro v' path t j page hv ⟨hroot, hR⟩ hpath hlen hprefix hempty hwindow
    refine ⟨hroot, ?_⟩
    obtain hload | hmade := hR
    · have hroot' : v'.walkFrom [] = some v.kernelPml4 := congrArg some hroot
      by_cases hedited : v.kernelPml4 = t ∧ i = j
      · -- the new table is behind an entry of the root, so its index is the first of the path
        obtain ⟨rfl, rfl⟩ := hedited
        obtain rfl := hv.unaliased path [] _ (by omega) (by simp) hpath hroot'
        have hfirst : i = slot (pml4Index call.virt) := (List.cons_prefix_cons.mp hprefix).1
        refine Or.inr ⟨hfirst, ?_⟩
        rw [← child_congr hload]
        exact hempty
      · left
        rw [← hload]
        exact hv.load_graft hpath (aligned_pageWord hwindow)
          (fun _ hle => hv.fresh_pageWord hwindow hle) (by simp) hroot' hedited
    · exact Or.inr hmade
  · rintro v' t hv ⟨hroot, hR⟩ hpath
    have hroot' : v'.walkFrom [] = some v.kernelPml4 := congrArg some hroot
    rw [hv.load_setLeaf hpath rfl hroot' (by simp)]
    exact ⟨hroot, hR⟩

theorem load_copyEntries (hdst : Aligned c) (hsrc : Aligned t) (ht' : Aligned t') (hne : t ≠ c)
    (j : Fin 512) {n k : Nat} (hle : k + n ≤ 512) :
    load (copyEntries m c t k n) (entryAddr t' (indexWord j)) =
      if t' = c ∧ k ≤ j.val ∧ j.val < k + n then load m (entryAddr t (indexWord j))
      else load m (entryAddr t' (indexWord j)) := by
  induction n generalizing m k with
  | zero => rw [copyEntries, if_neg (by omega)]
  | succ n ih =>
      have hword : BitVec.ofNat 64 k = indexWord ⟨k, by omega⟩ := rfl
      have hsame (x : Word) (j : Fin 512) :
          load (store m (entryAddr c (indexWord ⟨k, by omega⟩)) x) (entryAddr t (indexWord j)) =
            load m (entryAddr t (indexWord j)) := by
        rw [load_store hdst hsrc, if_neg fun hboth => hne hboth.1]
      rw [copyEntries, ih (by omega), hword, hsame, load_store hdst ht']
      by_cases hedited : t' = c ∧ j = ⟨k, by omega⟩
      · obtain ⟨rfl, rfl⟩ := hedited
        simp
      · rw [if_neg hedited]
        refine if_congr ?_ rfl rfl
        have hj : t' = c → j.val ≠ k := fun htc hjk => hedited ⟨htc, Fin.ext hjk⟩
        constructor
        · rintro ⟨htc, hk⟩
          exact ⟨htc, by omega, by omega⟩
        · rintro ⟨htc, hk⟩
          have hne' := hj htc
          exact ⟨htc, by omega, by omega⟩

def copyUpper (m : ByteMemory) (c t : Word) : ByteMemory :=
  copyEntries (clearEntries m c 0 512) c t 256 256

/-- The new address space in the page. -/
def copied (v : Vmm) (page : Nat) : Vmm :=
  ⟨copyUpper v.mem (pageWord page) v.kernelPml4, v.pmm.markRange page 1, v.kernelPml4⟩

theorem vmmCreateAddressSpace_cases (hroot : v.kernelPml4 ≠ 0)
    (hcreate : v.vmmCreateAddressSpace = (some pml4, v')) :
    ∃ page, v.pmm.Window 1 page ∧ pml4 = pageWord page ∧ v' = v.copied page := by
  rw [vmmCreateAddressSpace] at hcreate
  obtain ⟨page, hwindow, halloc⟩ | halloc := v.pmm.pmmAllocPage_cases
  · simp only [halloc, if_neg hroot, Prod.mk.injEq, Option.some_inj] at hcreate
    exact ⟨page, hwindow, hcreate.1.symm, hcreate.2.symm⟩
  · simp [halloc] at hcreate

theorem load_copied {page : Nat} (hwindow : v.pmm.Window 1 page) (hroot : Aligned v.kernelPml4)
    (hne : v.kernelPml4 ≠ pageWord page) (ht : Aligned t) (j : Fin 512) :
    load (v.copied page).mem (entryAddr t (indexWord j)) =
      if t = pageWord page then
        if 256 ≤ j.val then load v.mem (entryAddr v.kernelPml4 (indexWord j)) else 0
      else load v.mem (entryAddr t (indexWord j)) := by
  have hc := aligned_pageWord hwindow
  have hj := j.isLt
  rw [copied, copyUpper, load_copyEntries hc hroot ht hne j (le_refl 512),
    load_clearEntries_of_ne hc hroot hne]
  by_cases htc : t = pageWord page
  · subst htc
    rw [load_clearEntries_self hc, if_pos rfl]
    exact if_congr ⟨fun h => h.2.1, fun h => ⟨rfl, h, hj⟩⟩ rfl rfl
  · rw [if_neg fun hboth => htc hboth.1, if_neg htc, load_clearEntries_of_ne hc ht htc]

/-- What does not touch the tables of a tree leaves the tree alone. -/
theorem Tree.congr (hv : v.Tree) (hroot : v'.kernelPml4 = v.kernelPml4)
    (hload : ∀ path t i, path.length ≤ 3 → v.walkFrom path = some t →
      load v'.mem (entryAddr t (indexWord i)) = load v.mem (entryAddr t (indexWord i)))
    (hmono : ∀ q, v.pmm.bitmapTest q = true → v'.pmm.bitmapTest q = true) :
    v'.Tree ∧ ∀ path, path.length ≤ 4 → v'.walkFrom path = v.walkFrom path := by
  have hwalk : ∀ path, path.length ≤ 4 → v'.walkFrom path = v.walkFrom path := by
    intro path
    induction path using List.reverseRecOn with
    | nil => exact fun _ => congrArg some hroot
    | append_singleton front j ih =>
        intro hlen
        rw [List.length_append, List.length_singleton] at hlen
        have hfront := ih (by omega)
        cases hpath : v.walkFrom front with
        | none =>
            rw [hpath, walkFrom] at hfront
            rw [walkFrom] at hpath
            rw [walkFrom, walkFrom, walk_snoc, walk_snoc, hfront, hpath, Option.bind_none,
              Option.bind_none]
        | some t =>
            calc v'.walkFrom (front ++ [j])
                = child v'.mem t j := walkFrom_snoc (hfront.trans hpath) j
              _ = child v.mem t j := child_congr (hload front t j (by omega) hpath)
              _ = v.walkFrom (front ++ [j]) := (walkFrom_snoc hpath j).symm
  refine ⟨⟨hroot ▸ hv.root_ne_zero, hroot ▸ hv.root_aligned, ?_, ?_, ?_⟩, hwalk⟩
  · intro p q a hp hq hpa hqa
    exact hv.unaliased p q a hp hq ((hwalk p (by omega)).symm.trans hpa)
      ((hwalk q (by omega)).symm.trans hqa)
  · intro path t hle hpath
    exact hmono _ (hv.used path t hle ((hwalk path (by omega)).symm.trans hpath))
  · intro path t i hle hpath hpresent
    rw [hwalk path (by omega)] at hpath
    rw [hload path t i (by omega) hpath] at hpresent ⊢
    exact hv.plain path t i hle hpath hpresent

/-- `pml4` has the upper half that `kernel_pml4` had in `v₀`, and of the entries that were present
there `kernel_pml4` has kept all. -/
structure Copied (v₀ v : Vmm) (pml4 : Word) : Prop where
  tree : v.Tree
  root : v.kernelPml4 = v₀.kernelPml4
  outside : v.Outside pml4
  copy : ∀ i : Fin 512, 256 ≤ i.val → load v.mem (entryAddr pml4 (indexWord i)) =
    load v₀.mem (entryAddr v₀.kernelPml4 (indexWord i))
  kept : ∀ i, load v.mem (entryAddr v₀.kernelPml4 (indexWord i)) =
      load v₀.mem (entryAddr v₀.kernelPml4 (indexWord i)) ∨
    child v₀.mem v₀.kernelPml4 i = none

/-- Behind the entries that were not present there is no mapping. -/
def Hidden (v₀ v : Vmm) : Prop :=
  ∀ u, UpperHalf u → child v₀.mem v₀.kernelPml4 (slot (pml4Index u)) = none →
    v.walkFrom (pathOf u) = none

theorem copied_copied {page : Nat} (hv : v.Tree) (hwindow : v.pmm.Window 1 page) :
    Copied v (v.copied page) (pageWord page) ∧ Hidden v (v.copied page) := by
  have hroot : v.walkFrom [] = some v.kernelPml4 := rfl
  have hshort : ([] : List (Fin 512)).length ≤ 3 := Nat.zero_le 3
  have hne : v.kernelPml4 ≠ pageWord page := by
    intro heq
    rw [heq] at hroot
    exact hv.fresh_pageWord hwindow hshort hroot
  have hload {t : Word} (ht : Aligned t) := load_copied hwindow hv.root_aligned hne ht
  have hc := aligned_pageWord hwindow
  have htables : ∀ path t i, path.length ≤ 3 → v.walkFrom path = some t →
      load (v.copied page).mem (entryAddr t (indexWord i)) =
        load v.mem (entryAddr t (indexWord i)) := by
    intro path t i hle hpath
    rw [hload (hv.aligned hpath), if_neg]
    rintro rfl
    exact hv.fresh_pageWord hwindow hle hpath
  have hmono : ∀ q, v.pmm.bitmapTest q = true → (v.copied page).pmm.bitmapTest q = true := by
    intro q hq
    rw [copied, Pmm.bitmapTest_markRange, hq, Bool.or_true]
  have hkernel : (v.copied page).kernelPml4 = v.kernelPml4 := by rw [copied]
  obtain ⟨htree, hwalk⟩ := hv.congr hkernel htables hmono
  refine ⟨⟨htree, hkernel, ⟨hc, ?_, ?_⟩, ?_, ?_⟩, ?_⟩
  · rw [toNat_pageWord hwindow, pageSize_eq, Nat.mul_div_cancel page (by decide), copied,
      Pmm.bitmapTest_markRange]
    simp
  · intro path hle hpath
    rw [hwalk path (by omega)] at hpath
    exact hv.fresh_pageWord hwindow hle hpath
  · intro i hi
    rw [hload hc, if_pos rfl, if_pos hi]
  · exact fun i => Or.inl (htables [] _ i hshort hroot)
  · intro u _ hempty
    rw [hwalk (pathOf u) (le_refl 4), walkFrom, pathOf, walk, hempty, Option.bind_none]

theorem Copied.step (h : Copied v₀ v pml4) (call : MapCall) : Copied v₀ (v.step call) pml4 := by
  obtain ⟨houtside, hload⟩ := h.outside.step h.tree call
  refine ⟨h.tree.step call, (kernelPml4_step h.tree call).trans h.root, houtside, ?_, ?_⟩
  · exact fun i hi => (hload i).trans (h.copy i hi)
  · intro i
    obtain hkept | hempty := h.kept i
    · obtain hsame | ⟨-, hempty⟩ := load_root_step h.tree call i
      · rw [h.root] at hsame
        exact Or.inl (hsame.trans hkept)
      · rw [h.root, child_congr hkept] at hempty
        exact Or.inr hempty
    · exact Or.inr hempty

/-- The call maps nothing, or goes through an entry that was there to be copied, or does not find the
pages for its tables. -/
def Harmless (v₀ v : Vmm) : MapCall → Prop
  | .map virt _ _ =>
      load v₀.mem (entryAddr v₀.kernelPml4 (pml4Index virt)) &&& vmmPresent ≠ 0 ∨
        (allocatable v.pmm).card < v.missingTables virt
  | .unmap _ => True

theorem child_pml4_eq_none_iff (m : ByteMemory) (t virt : Word) :
    child m t (slot (pml4Index virt)) = none ↔
      load m (entryAddr t (pml4Index virt)) &&& vmmPresent = 0 := by
  rw [child_eq_none_iff, show indexWord (slot (pml4Index virt)) = pml4Index virt from
    indexWord_slot virt 39]

theorem hidden_step_iff (h : Copied v₀ v pml4) (hhidden : Hidden v₀ v)
    (hcall : UpperHalf call.virt) : Hidden v₀ (v.step call) ↔ Harmless v₀ v call := by
  have hsucceeds := succeeds_iff h.tree call
  have hwalk := (walkFrom_step h.tree call).2
  cases call with
  | unmap virt =>
      refine iff_of_true (fun u hu hempty => ?_) trivial
      rw [hwalk (pathOf u) rfl, hhidden u hu hempty]
      simp [MapCall.entry]
  | map virt phys flags =>
      have hpresent : ¬ (MapCall.map virt phys flags).entry &&& vmmPresent = 0 := by
        rw [MapCall.entry, and_vmmPresent_eq_zero]
        simp [vmmPresent]
      have hentry := child_pml4_eq_none_iff v₀.mem v₀.kernelPml4 virt
      rw [Harmless, ne_eq, ← hentry, ← not_le, ← not_and_or,
        show v.missingTables virt ≤ (allocatable v.pmm).card ↔ _ from hsucceeds.symm]
      constructor
      · rintro hhidden' ⟨hempty, hsuccess⟩
        have hnone := hhidden' virt hcall hempty
        rw [hwalk (pathOf virt) rfl, if_pos ⟨hsuccess, rfl⟩, if_neg hpresent] at hnone
        cases hnone
      · intro hharmless u hu hempty
        rw [hwalk (pathOf u) rfl, if_neg]
        · exact hhidden u hu hempty
        · rintro ⟨hsuccess, hpath⟩
          have hslot : slot (pml4Index u) = slot (pml4Index virt) := (List.cons.inj hpath).1
          rw [hslot] at hempty
          exact hharmless ⟨hempty, hsuccess⟩

/-- The tables without the lower half, of which nothing is assumed: the firmware has made it. -/
def upperTables (v : Vmm) : Vmm := { v with mem := clearEntries v.mem v.kernelPml4 0 256 }

/-- The two states differ in the lower half only. -/
structure SameUpper (v w : Vmm) : Prop where
  root : w.kernelPml4 = v.kernelPml4
  pmm : w.pmm = v.pmm
  load : ∀ (t : Word) (i : Fin 512), Aligned t → (t = v.kernelPml4 → 256 ≤ i.val) →
    load w.mem (entryAddr t (indexWord i)) = load v.mem (entryAddr t (indexWord i))

theorem sameUpper_upperTables (hroot : Aligned v.kernelPml4) : v.SameUpper v.upperTables := by
  refine ⟨by rw [upperTables], by rw [upperTables], fun t i ht hi => ?_⟩
  rw [upperTables, load_clearEntries hroot ht i (by omega), if_neg]
  rintro ⟨htop, -, hlow⟩
  have hupper := hi htop
  omega

theorem SameUpper.hang (h : v.SameUpper w) (ht : Aligned t) (i : Fin 512) {page : Nat}
    (hwindow : v.pmm.Window 1 page) : (v.hang t i page).SameUpper (w.hang t i page) := by
  have hc := aligned_pageWord hwindow
  refine ⟨h.root, ?_, fun t' j ht' hj => ?_⟩
  · rw [Vmm.hang, Vmm.hang, h.pmm]
  · rw [Vmm.hang, Vmm.hang, graft, graft, load_store ht ht', load_store ht ht']
    by_cases hedited : t' = t ∧ j = i
    · rw [if_pos hedited, if_pos hedited]
    · rw [if_neg hedited, if_neg hedited]
      by_cases htc : t' = pageWord page
      · rw [htc, load_clearEntries_self hc, load_clearEntries_self hc]
      · rw [load_clearEntries_of_ne hc ht' htc, load_clearEntries_of_ne hc ht' htc]
        exact h.load t' j ht' hj

theorem SameUpper.setLeaf (h : v.SameUpper w) (ht : Aligned t) (i : Fin 512) (x : Word) :
    (v.setLeaf t i x).SameUpper (w.setLeaf t i x) := by
  refine ⟨h.root, h.pmm, fun t' j ht' hj => ?_⟩
  rw [Vmm.setLeaf, Vmm.setLeaf, load_store ht ht', load_store ht ht', h.load t' j ht' hj]

theorem SameUpper.child (h : v.SameUpper w) (ht : Aligned t) (hi : t = v.kernelPml4 → 256 ≤ i.val) :
    child w.mem t i = child v.mem t i :=
  child_congr (h.load t i ht hi)

theorem SameUpper.nextTable (h : v.SameUpper w) (ht : Aligned t)
    (hi : t = v.kernelPml4 → 256 ≤ i.val) :
    (w.nextTable t (indexWord i)).1 = (v.nextTable t (indexWord i)).1 ∧
      (v.nextTable t (indexWord i)).2.SameUpper (w.nextTable t (indexWord i)).2 := by
  rw [Vmm.nextTable, Vmm.nextTable, h.load t i ht hi]
  split
  · obtain ⟨page, hwindow, -, halloc⟩ | ⟨-, halloc⟩ := v.pmm.pmmAllocPage_firstFit
    · have hhang := h.hang ht i hwindow
      rw [Vmm.hang, Vmm.hang, graft, graft, h.pmm] at hhang
      simp only [allocPageTable, h.pmm, halloc]
      exact ⟨trivial, hhang⟩
    · simp only [allocPageTable, h.pmm, halloc]
      exact ⟨trivial, h.root, rfl, h.load⟩
  · exact ⟨rfl, h⟩

section Path

variable {full is : List (Fin 512)} (hfull : path ++ is = full) (hlen : full.length ≤ 4)
  (hhead : ∀ i ∈ full.head?, 256 ≤ i.val)

include hfull hlen hhead in
/-- On a path that starts in the upper half the root is looked at in the upper half. -/
theorem Tree.upper_index (hw : w.Tree) (hpath : w.walkFrom path = some t) (hi : is.head? = some i) :
    t = w.kernelPml4 → 256 ≤ i.val := by
  rintro rfl
  have hne : is ≠ [] := by
    rintro rfl
    cases hi
  have hpos := List.length_pos_of_ne_nil hne
  have hlength := congrArg List.length hfull
  rw [List.length_append] at hlength
  obtain rfl := hw.unaliased path [] _ (by omega) (Nat.zero_le 3) hpath rfl
  apply hhead
  rw [← hfull]
  exact hi

include hfull hlen hhead in
theorem SameUpper.makeTables (h : v.SameUpper w) (hw : w.Tree) (hpath : w.walkFrom path = some t)
    (hle : full.length ≤ 3) : (w.makeTables t is).1 = (v.makeTables t is).1 ∧
      (v.makeTables t is).2.SameUpper (w.makeTables t is).2 := by
  induction is generalizing v w t path with
  | nil => exact ⟨rfl, h⟩
  | cons i is ih =>
      have hi := hw.upper_index hfull hlen hhead hpath rfl
      rw [h.root] at hi
      obtain ⟨hsame, hnext⟩ := h.nextTable (hw.aligned hpath) hi
      have hlength := congrArg List.length hfull
      rw [List.length_append, List.length_cons] at hlength
      obtain ⟨o, w', hrun, hext, hnew⟩ := nextTable_spec hw hpath (by omega) i
      rw [Vmm.makeTables, Vmm.makeTables]
      rw [hrun] at hsame hnext ⊢
      cases hv' : v.nextTable t (indexWord i) with
      | mk o' v' =>
          rw [hv'] at hsame hnext
          obtain rfl : o = o' := hsame
          cases o with
          | none => exact ⟨rfl, hnext⟩
          | some c =>
              have hsplit : (path ++ [i]) ++ is = full := by rw [← hfull, List.append_assoc]; rfl
              exact ih hsplit hnext hext.tree (hnew c rfl)

include hfull hlen hhead in
theorem SameUpper.missing (h : v.SameUpper w) (hw : w.Tree) (hpath : w.walkFrom path = some t) :
    missing w.mem t is = missing v.mem t is := by
  induction is generalizing t path with
  | nil => rfl
  | cons i is ih =>
      have hi := hw.upper_index hfull hlen hhead hpath rfl
      rw [h.root] at hi
      have hchild := h.child (hw.aligned hpath) hi
      rw [Vmm.missing, Vmm.missing, ← hchild]
      cases hc : Vmm.child w.mem t i with
      | none => rfl
      | some c =>
          have hsplit : (path ++ [i]) ++ is = full := by rw [← hfull, List.append_assoc]; rfl
          exact ih hsplit ((walkFrom_snoc hpath i).trans hc)

end Path

theorem upperHalf_iff : UpperHalf virt ↔ 256 ≤ (slot (pml4Index virt)).val := by
  have hindex : (pml4Index virt).toNat = virt.toNat / 2 ^ 39 % 512 := toNat_index virt 39
  have hslot : (slot (pml4Index virt)).val = (pml4Index virt).toNat % 512 := rfl
  rw [UpperHalf, hslot, Nat.mod_eq_of_lt (by omega)]

theorem head_pathOf (hu : UpperHalf u) : ∀ i ∈ (pathOf u).head?, 256 ≤ i.val := by
  intro i hi
  have hfirst : slot (pml4Index u) = i := Option.some_inj.mp hi
  rw [← hfirst]
  exact upperHalf_iff.mp hu

theorem head_upperPath (hu : UpperHalf u) : ∀ i ∈ (upperPath u).head?, 256 ≤ i.val :=
  head_pathOf hu

theorem length_upperPath (u : Word) : (upperPath u).length = 3 := rfl

theorem SameUpper.step (h : v.SameUpper w) (hw : w.Tree) (hcall : UpperHalf call.virt) :
    (v.step call).SameUpper (w.step call) := by
  have hroot : w.walkFrom [] = some w.kernelPml4 := rfl
  have hsplit : [] ++ upperPath call.virt = upperPath call.virt := rfl
  have hlen := length_upperPath call.virt
  have hpt : indexWord (slot (ptIndex call.virt)) = ptIndex call.virt := indexWord_slot _ 12
  have hne : v.kernelPml4 ≠ 0 := h.root ▸ hw.root_ne_zero
  obtain ⟨hsame, hnext⟩ :=
    h.makeTables hsplit (by omega) (head_upperPath hcall) hw hroot (by omega)
  obtain ⟨hext, -, hfound⟩ := makeTables_induct (R := fun _ => True)
    (fun _ _ _ _ _ _ _ _ _ _ _ _ => trivial) hw trivial hroot hsplit (by omega)
  rw [step_eq, step_eq, getOrCreateEntry_eq hne, getOrCreateEntry_eq hw.root_ne_zero, ← h.root,
    ← hsame]
  cases hmade : (w.makeTables w.kernelPml4 (upperPath call.virt)).1 with
  | none => exact hnext
  | some pt =>
      have hset := hnext.setLeaf (hext.tree.aligned (hfound pt hmade)) (slot (ptIndex call.virt))
        call.entry
      rwa [Vmm.setLeaf, Vmm.setLeaf, hpt] at hset

theorem SameUpper.missingTables (h : v.SameUpper w) (hw : w.Tree) (hu : UpperHalf u) :
    w.missingTables u = v.missingTables u := by
  have hlen := length_upperPath u
  rw [Vmm.missingTables, Vmm.missingTables, ← h.root]
  exact h.missing (List.nil_append _) (by omega) (head_upperPath hu) hw rfl

theorem SameUpper.walk {n : Nat} (h : v.SameUpper w) (hw : w.Tree)
    (hpath : w.walkFrom path = some t) (hlen : path.length + n = 3) (hlt : t.toNat < 2 ^ 52)
    (hu : UpperHalf u) (hfull : path ++ (below u n ++ [slot (index 0 u)]) = pathOf u) :
    X86.Paging.walk w.mem u n t = X86.Paging.walk v.mem u n t := by
  have hlength : (pathOf u).length ≤ 4 := le_refl 4
  induction n generalizing path t with
  | zero =>
      have hi := hw.upper_index hfull hlength (head_pathOf hu) hpath rfl
      rw [h.root] at hi
      simp only [X86.Paging.walk, cell_eq (hw.aligned hpath) hlt, h.load t _ (hw.aligned hpath) hi]
  | succ n ih =>
      have hi := hw.upper_index hfull hlength (head_pathOf hu) hpath rfl
      rw [h.root] at hi
      have hload := h.load t _ (hw.aligned hpath) hi
      rw [X86.Paging.walk, X86.Paging.walk, cell_eq (hw.aligned hpath) hlt, ← hload]
      cases hchild : Vmm.child w.mem t (slot (index (n + 1) u)) with
      | none =>
          have habsent := child_eq_none_iff.mp hchild
          have hnot : ¬ Present (X86.load w.mem (entryAddr t (indexWord (slot (index (n + 1) u))))) :=
            fun hpresent => hpresent habsent
          simp only [if_neg hnot]
      | some c =>
          obtain ⟨haddress, hclt, hpresent, hpage⟩ := hw.table hpath (by omega) hchild n
          simp only [if_pos hpresent, if_neg hpage]
          rw [← walk_address, ← walk_address v.mem, ← haddress]
          refine ih ((walkFrom_snoc hpath _).trans hchild) (by simp; omega) hclt ?_
          rw [List.append_assoc]
          exact hfull

/-- The states that differ in the lower half only stay so when an address space is created. -/
theorem SameUpper.copied (h : v.SameUpper w) (hw : w.Tree) {page : Nat}
    (hwindow : v.pmm.Window 1 page) : (v.copied page).SameUpper (w.copied page) := by
  have hwindow' : w.pmm.Window 1 page := by rwa [h.pmm]
  have hroot : w.walkFrom [] = some w.kernelPml4 := rfl
  have hne : w.kernelPml4 ≠ pageWord page := by
    intro heq
    rw [heq] at hroot
    exact hw.fresh_pageWord hwindow' (show ([] : List (Fin 512)).length ≤ 3 from Nat.zero_le 3) hroot
  have hne' : v.kernelPml4 ≠ pageWord page := by rwa [← h.root]
  have haligned : Aligned v.kernelPml4 := h.root ▸ hw.root_aligned
  refine ⟨by rw [Vmm.copied, Vmm.copied, h.root], by rw [Vmm.copied, Vmm.copied, h.pmm], ?_⟩
  intro t i ht hi
  have htop : t = v.kernelPml4 → 256 ≤ i.val := fun heq => hi (by rw [heq, Vmm.copied])
  rw [load_copied hwindow' hw.root_aligned hne ht, load_copied hwindow haligned hne' ht]
  split
  · split
    · rename_i hupper
      rw [h.root]
      exact h.load _ i haligned fun _ => hupper
    · rfl
  · exact h.load t i ht htop

theorem walk_eq_none_of_not_present {n : Nat} (h : ¬ Present (load m (cell t n u))) :
    X86.Paging.walk m u n t = none := by
  cases n <;> simp only [X86.Paging.walk, if_neg h]

theorem walk_congr_root {n : Nat} (h : load m (cell t (n + 1) u) = load m (cell t' (n + 1) u)) :
    X86.Paging.walk m u (n + 1) t = X86.Paging.walk m u (n + 1) t' := by
  simp only [X86.Paging.walk, h]

/-- The upper half is shared as long as nothing is mapped behind an entry that was not copied. -/
theorem Copied.shared_iff (h : Copied v₀ w pml4) (hsame : v.SameUpper w)
    (hroot : v₀.kernelPml4.toNat < 2 ^ 52) (hlt : pml4.toNat < 2 ^ 52) :
    Shared v pml4 ↔ Hidden v₀ w := by
  have hne : pml4 ≠ v.kernelPml4 := by
    rintro rfl
    exact h.outside.apart [] (Nat.zero_le 3) (congrArg some hsame.root)
  have hroot' : w.kernelPml4.toNat < 2 ^ 52 := by rwa [h.root]
  have hentry (u : Word) (hu : UpperHalf u) :
      load v.mem (cell pml4 3 u) =
          load v₀.mem (entryAddr v₀.kernelPml4 (indexWord (slot (pml4Index u)))) ∧
        load v.mem (cell v.kernelPml4 3 u) =
          load w.mem (entryAddr v₀.kernelPml4 (indexWord (slot (pml4Index u)))) := by
    have hi := upperHalf_iff.mp hu
    rw [← hsame.root, cell_eq h.outside.aligned hlt, cell_eq h.tree.root_aligned hroot', ← h.root]
    refine ⟨?_, ?_⟩
    · rw [← hsame.load pml4 _ h.outside.aligned fun heq => absurd heq hne, h.root]
      exact h.copy _ hi
    · exact (hsame.load w.kernelPml4 _ h.tree.root_aligned fun _ => hi).symm
  have hkernel (u : Word) (hu : UpperHalf u) :
      X86.Paging.walk v.mem u 3 v.kernelPml4 = none ↔ w.walkFrom (pathOf u) = none := by
    have hpath : w.walkFrom [] = some w.kernelPml4 := rfl
    rw [← hsame.root, ← hsame.walk h.tree hpath rfl hroot' hu rfl]
    exact h.tree.walk_eq_none_iff hpath rfl hroot' u
  refine forall₂_congr fun u hu => ?_
  obtain ⟨hcopy, hnow⟩ := hentry u hu
  cases hchild : child v₀.mem v₀.kernelPml4 (slot (pml4Index u)) with
  | none =>
      have habsent : ¬ Present (load v.mem (cell pml4 3 u)) := by
        rw [hcopy]
        exact fun hpresent => hpresent (child_eq_none_iff.mp hchild)
      rw [walk_eq_none_of_not_present habsent, eq_comm, hkernel u hu]
      simp
  | some c =>
      have hkept := (h.kept (slot (pml4Index u))).resolve_right (by simp [hchild])
      simp [walk_congr_root (hcopy.trans (hkept.symm.trans hnow.symm))]

theorem shared_run_iff (h : Copied v₀ w pml4) (hhidden : Hidden v₀ w) (hsame : v.SameUpper w)
    (hroot : v₀.kernelPml4.toNat < 2 ^ 52) (hlt : pml4.toNat < 2 ^ 52)
    (hcalls : ∀ call ∈ calls, UpperHalf call.virt) :
    (∀ pre, pre <+: calls → Shared (v.run pre).1 pml4) ↔
      ∀ pre call, pre ++ [call] <+: calls → Harmless v₀ (v.run pre).1 call := by
  induction calls generalizing v w with
  | nil =>
      refine iff_of_true (fun pre hpre => ?_) fun pre call hpre => ?_
      · rw [List.prefix_nil.mp hpre]
        exact (h.shared_iff hsame hroot hlt).mpr hhidden
      · have hnil := List.prefix_nil.mp hpre
        simp at hnil
  | cons first calls ih =>
      obtain ⟨hfirst, hrest⟩ := List.forall_mem_cons.mp hcalls
      have hstep := hidden_step_iff h hhidden hfirst
      have hharmless : Harmless v₀ v first ↔ Harmless v₀ w first := by
        cases first with
        | map virt _ _ =>
            have hmissing : w.missingTables virt = v.missingTables virt :=
              hsame.missingTables h.tree hfirst
            rw [Harmless, Harmless, hsame.pmm, hmissing]
        | unmap _ => exact Iff.rfl
      have hsame' := hsame.step h.tree hfirst
      constructor
      · intro hshared pre call hpre
        have hafter := hshared [first] (by simp)
        have hhidden' := ((h.step first).shared_iff hsame' hroot hlt).mp hafter
        cases pre with
        | nil =>
            obtain ⟨rfl, -⟩ := List.cons_prefix_cons.mp hpre
            exact hharmless.mpr (hstep.mp hhidden')
        | cons c pre =>
            obtain ⟨rfl, htail⟩ := List.cons_prefix_cons.mp hpre
            refine (ih (h.step c) hhidden' hsame' hrest).mp (fun pre' hpre' => ?_) pre call htail
            exact hshared (c :: pre') (List.cons_prefix_cons.mpr ⟨rfl, hpre'⟩)
      · intro hall pre hpre
        have hhidden' := hstep.mpr (hharmless.mp (hall [] first (by simp)))
        cases pre with
        | nil => exact (h.shared_iff hsame hroot hlt).mpr hhidden
        | cons c pre =>
            obtain ⟨rfl, htail⟩ := List.cons_prefix_cons.mp hpre
            refine (ih (h.step c) hhidden' hsame' hrest).mpr (fun pre' call hpre' => ?_) pre htail
            exact hall (c :: pre') call (List.cons_prefix_cons.mpr ⟨rfl, hpre'⟩)

theorem harmless_upperTables_iff (hroot : Aligned v.kernelPml4) (hcall : UpperHalf call.virt) :
    Harmless v.upperTables w call ↔ Harmless v w call := by
  cases call with
  | unmap _ => exact Iff.rfl
  | map virt _ _ =>
      have hsame := sameUpper_upperTables hroot
      have hload := hsame.load v.kernelPml4 (slot (pml4Index virt)) hroot
        fun _ => upperHalf_iff.mp hcall
      rw [show indexWord (slot (pml4Index virt)) = pml4Index virt from indexWord_slot virt 39]
        at hload
      rw [Harmless, Harmless, hsame.root, hload]

/-- Calls on the upper half keep its tables a tree. -/
theorem tree_upperTables_step (hv : v.upperTables.Tree) (hcall : UpperHalf call.virt) :
    (v.step call).upperTables.Tree := by
  have hkernel : v.upperTables.kernelPml4 = v.kernelPml4 := by rw [upperTables]
  have haligned : Aligned v.kernelPml4 := hkernel ▸ hv.root_aligned
  have hsame := (sameUpper_upperTables haligned).step hv hcall
  have hroot : (v.step call).kernelPml4 = v.kernelPml4 :=
    hsame.root.symm.trans ((kernelPml4_step hv call).trans hkernel)
  have hcleared : (v.step call).SameUpper (v.step call).upperTables :=
    sameUpper_upperTables (hroot ▸ haligned)
  refine ((hv.step call).congr (hcleared.root.trans hsame.root.symm) (fun path t i hle hpath => ?_)
    fun q hq => ?_).1
  · have ht := (hv.step call).aligned hpath
    by_cases hupper : t = v.kernelPml4 → 256 ≤ i.val
    · rw [hcleared.load t i ht (hroot ▸ hupper), hsame.load t i ht (hroot ▸ hupper)]
    obtain ⟨rfl, hlow⟩ := Classical.not_imp.mp hupper
    -- both entries are zero
    have hzero : load v.upperTables.mem (entryAddr v.kernelPml4 (indexWord i)) = 0 := by
      rw [upperTables, load_clearEntries haligned haligned i (by omega),
        if_pos ⟨rfl, Nat.zero_le _, by omega⟩]
    have hkept := load_root_step hv call i
    rw [hkernel, hzero] at hkept
    obtain hkept | ⟨rfl, -⟩ := hkept
    · rw [hkept, upperTables, hroot, load_clearEntries haligned haligned i (by omega),
        if_pos ⟨rfl, Nat.zero_le _, by omega⟩]
    · exact absurd (upperHalf_iff.mp hcall) hlow
  · rw [hcleared.pmm, ← hsame.pmm]
    exact hq

/-- **The upper half of an address space**: it is translated as by the kernel in all states that calls
on the upper half lead to if and only if every call that maps something goes through an entry of
`kernel_pml4` that was present when the address space was created. -/
theorem upperHalf_shared_iff (hv : v.upperTables.Tree) (hroot : v.kernelPml4.toNat < 2 ^ 52)
    (hcreate : v.vmmCreateAddressSpace = (some pml4, v'))
    (hcalls : ∀ call ∈ calls, UpperHalf call.virt) :
    (∀ pre, pre <+: calls → Shared (v'.run pre).1 pml4) ↔
      ∀ pre call, pre ++ [call] <+: calls → Harmless v (v'.run pre).1 call := by
  have hkernel : v.upperTables.kernelPml4 = v.kernelPml4 := by rw [upperTables]
  have haligned : Aligned v.kernelPml4 := hkernel ▸ hv.root_aligned
  have hsame := sameUpper_upperTables haligned
  obtain ⟨page, hwindow, rfl, rfl⟩ :=
    vmmCreateAddressSpace_cases (hkernel ▸ hv.root_ne_zero) hcreate
  have hwindow' : v.upperTables.pmm.Window 1 page := by rwa [hsame.pmm]
  obtain ⟨hcopied, hhidden⟩ := copied_copied hv hwindow'
  have hlt : (pageWord page).toNat < 2 ^ 52 := by
    have hmax : page + 1 ≤ 65536 := hwindow.le_max
    rw [toNat_pageWord hwindow]
    omega
  rw [shared_run_iff hcopied hhidden (hsame.copied hv hwindow) (by rwa [hkernel]) hlt hcalls]
  refine forall_congr' fun pre => forall_congr' fun call => forall_congr' fun hpre => ?_
  exact harmless_upperTables_iff haligned (hcalls call (hpre.subset (by simp)))

theorem tree_upperTables_emptyTree : emptyTree.upperTables.Tree := by
  have hkernel : emptyTree.upperTables.kernelPml4 = emptyTree.kernelPml4 := by rw [upperTables]
  have haligned := empty_emptyTree.root_aligned
  have hsame := sameUpper_upperTables haligned
  have hempty : emptyTree.upperTables.Empty := by
    refine ⟨hkernel ▸ empty_emptyTree.root_ne_zero, hkernel ▸ haligned,
      hkernel ▸ empty_emptyTree.root_lt, ?_, fun i => ?_⟩
    · rw [hsame.pmm, hkernel]
      exact empty_emptyTree.used
    · rw [hkernel, upperTables, load_clearEntries haligned haligned i (by decide)]
      split
      · rfl
      · exact empty_emptyTree.clear i
  exact hempty.tree

/-- The first address of the upper half. -/
def upperBase : Word := 0xFFFF800000000000#64

theorem upperHalf_upperBase (phys flags : Word) :
    ∀ call ∈ [MapCall.map upperBase phys flags, .unmap upperBase], UpperHalf call.virt := by
  have hupper : UpperHalf upperBase := by
    show 256 ≤ (pml4Index upperBase).toNat
    decide
  simp [MapCall.virt, hupper]

theorem vmmCreateAddressSpace_emptyTree :
    ∃ v', emptyTree.vmmCreateAddressSpace = (some 0x200000#64, v') := by
  have halloc : Pmm.allConventional.pmmAllocPage.1 = some 0x200000 := by decide
  have hfirst : emptyTree.vmmCreateAddressSpace.1 = some 0x200000#64 := by
    rw [vmmCreateAddressSpace, show emptyTree.pmm = Pmm.allConventional from rfl]
    cases hrun : Pmm.allConventional.pmmAllocPage with
    | mk page pmm =>
        rw [hrun] at halloc
        obtain rfl : page = some 0x200000 := halloc
        rfl
  exact ⟨emptyTree.vmmCreateAddressSpace.2, Prod.ext hfirst rfl⟩

/-- The first page of the upper half has been mapped. -/
def upperTree : Vmm := emptyTree.step (.map upperBase 0x9000 3)

theorem present_upperTree :
    load upperTree.mem (entryAddr upperTree.kernelPml4 (pml4Index upperBase)) &&& vmmPresent ≠ 0 := by
  obtain ⟨-, hwalk⟩ := walkFrom_step tree_emptyTree (.map upperBase 0x9000 3)
  have hmapped := hwalk (pathOf upperBase) rfl
  rw [if_pos ⟨succeeds_emptyTree _, rfl⟩, if_neg (by decide)] at hmapped
  intro hempty
  have hchild := (child_pml4_eq_none_iff upperTree.mem upperTree.kernelPml4 upperBase).mpr hempty
  have hnone : upperTree.walkFrom (pathOf upperBase) = none := by
    rw [pathOf, walkFrom, walk, hchild, Option.bind_none]
  exact Option.some_ne_none _ (hmapped.symm.trans hnone)

theorem vmmCreateAddressSpace_upperTree :
    ∃ pml4 v', upperTree.vmmCreateAddressSpace = (some pml4, v') := by
  have hcard := card_allocatable_step tree_emptyTree (.map upperBase 0x9000 3)
  rw [← upperTree] at hcard
  have hfour := four_le_card_allocatable
  obtain ⟨page, hpage⟩ := Finset.card_pos.mp (show 0 < (allocatable upperTree.pmm).card by omega)
  rw [vmmCreateAddressSpace]
  generalize upperTree = v at hpage ⊢
  obtain ⟨page', -, -, halloc⟩ | ⟨hnone, -⟩ := v.pmm.pmmAllocPage_firstFit
  · rw [halloc]
    exact ⟨_, _, rfl⟩
  · exact absurd (mem_allocatable.mp hpage) (hnone page)

theorem tree_upperTables_upperTree : upperTree.upperTables.Tree := by
  rw [upperTree]
  exact tree_upperTables_step tree_upperTables_emptyTree (upperHalf_upperBase 0x9000 3 _ List.mem_cons_self)

theorem upperHalf_shared_iff_upperTree :
    ∃ pml4 v', upperTree.vmmCreateAddressSpace = (some pml4, v') ∧
      ∀ pre, pre <+: [.map upperBase 0xA000 1, .unmap upperBase] → Shared (v'.run pre).1 pml4 := by
  obtain ⟨pml4, v', hcreate⟩ := vmmCreateAddressSpace_upperTree
  have hlt : upperTree.kernelPml4.toNat < 2 ^ 52 := by
    rw [upperTree, kernelPml4_step tree_emptyTree]
    exact empty_emptyTree.root_lt
  refine ⟨pml4, v', hcreate, (upperHalf_shared_iff tree_upperTables_upperTree hlt hcreate
    (upperHalf_upperBase 0xA000 1)).mpr fun pre call hpre => ?_⟩
  have hcall : call ∈ [MapCall.map upperBase 0xA000 1, .unmap upperBase] := hpre.subset (by simp)
  simp only [List.mem_cons, List.not_mem_nil, or_false] at hcall
  obtain rfl | rfl := hcall
  · exact Or.inl present_upperTree
  · trivial

/-- A page mapped after the creation of an address space, and missing in it. -/
theorem not_shared_upperBase : emptyTree.Tree ∧ UpperHalf upperBase ∧
    ∃ v', emptyTree.vmmCreateAddressSpace = (some 0x200000#64, v') ∧
      ¬ Shared (v'.run [.map upperBase 0x9000 3]).1 0x200000#64 := by
  have hupper : UpperHalf upperBase := upperHalf_upperBase 0 0 (.unmap upperBase) (by simp)
  obtain ⟨v', hcreate⟩ := vmmCreateAddressSpace_emptyTree
  refine ⟨tree_emptyTree, hupper, v', hcreate, fun hshared => ?_⟩
  obtain ⟨page, hwindow, hpage, rfl⟩ :=
    vmmCreateAddressSpace_cases empty_emptyTree.root_ne_zero hcreate
  rw [hpage] at hshared
  obtain ⟨hcopied, hhidden⟩ := copied_copied tree_emptyTree hwindow
  have hlt : (pageWord page).toNat < 2 ^ 52 := by
    rw [← hpage]
    decide
  have hcall : UpperHalf (MapCall.map upperBase 0x9000 3).virt := hupper
  have hsame : SameUpper ((emptyTree.copied page).step (.map upperBase 0x9000 3))
      ((emptyTree.copied page).step (.map upperBase 0x9000 3)) := ⟨rfl, rfl, fun _ _ _ _ => rfl⟩
  have hharmless := (hidden_step_iff hcopied hhidden hcall).mp
    (((hcopied.step _).shared_iff hsame empty_emptyTree.root_lt hlt).mp hshared)
  have hclear := (child_pml4_eq_none_iff emptyTree.mem emptyTree.kernelPml4 upperBase).mp
    (child_eq_none_iff.mpr (by rw [empty_emptyTree.clear]; decide))
  have hcard := card_allocatable_markRange hwindow
  have hfour := four_le_card_allocatable
  have hmissing : (emptyTree.copied page).missingTables upperBase ≤ 3 := missing_le _ _ _
  obtain hpresent | hpages := hharmless
  · exact hpresent hclear
  · have hpmm : (emptyTree.copied page).pmm = emptyTree.pmm.markRange page 1 := by rw [copied]
    rw [hpmm] at hpages
    omega

end SimpleOs.Vmm
