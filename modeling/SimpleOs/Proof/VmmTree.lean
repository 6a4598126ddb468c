import SimpleOs.Proof.PmmAlloc
import SimpleOs.Proof.VmmEntries

/-!
# The tree of page tables

`Tree` is the invariant of the page tables: they form a tree below the root, and the page allocator
takes all of them for used. A page it hands out is therefore a fresh node, and the two edits of the
manager (a new table, a new last-level entry) are edits at one path.
-/

namespace SimpleOs.Vmm

open X86 (Word load store)
open Radix

def child (m : ByteMemory) (t : Word) (i : Fin 512) : Option Word := follow m t (indexWord i)

/-- The table at the end of a path of at most three indices, or the frame at the end of one of four. -/
def walkFrom (v : Vmm) (path : List (Fin 512)) : Option Word :=
  walk (child v.mem) v.kernelPml4 path

structure Tree (v : Vmm) : Prop where
  root_ne_zero : v.kernelPml4 ≠ 0
  root_aligned : Aligned v.kernelPml4
  /-- Every table is reached by one path only. -/
  unaliased : Unaliased (child v.mem) v.kernelPml4 3
  /-- Every table is in a page that is marked used or not managed. -/
  used : ∀ path t, path.length ≤ 3 → v.walkFrom path = some t →
    v.pmm.bitmapTest (t.toNat / pageSize) = true
  /-- No entry above the last level maps a huge page or has a bit above bit 51. -/
  plain : ∀ path t i, path.length ≤ 2 → v.walkFrom path = some t →
    load v.mem (entryAddr t (indexWord i)) &&& vmmPresent ≠ 0 →
    (load v.mem (entryAddr t (indexWord i))).getLsbD 7 = false ∧
      (load v.mem (entryAddr t (indexWord i))).toNat < 2 ^ 52

variable {v v' : Vmm} {m : ByteMemory} {t t' c x u virt : Word} {i j : Fin 512}
  {path path' : List (Fin 512)}

theorem aligned_child (h : child m t i = some c) : Aligned c := by
  rw [child, follow] at h
  split at h
  · cases h
  · obtain rfl := Option.some_inj.mp h
    exact aligned_and_frameMask _

theorem aligned_walkFrom (hroot : Aligned v.kernelPml4) (h : v.walkFrom path = some t) :
    Aligned t := by
  induction path using List.reverseRecOn with
  | nil =>
      obtain rfl := Option.some_inj.mp h
      exact hroot
  | append_singleton front j ih =>
      rw [walkFrom, walk_snoc] at h
      obtain ⟨node, -, hchild⟩ := Option.bind_eq_some_iff.mp h
      exact aligned_child hchild

theorem Tree.aligned (hv : v.Tree) (h : v.walkFrom path = some t) : Aligned t :=
  aligned_walkFrom hv.root_aligned h

theorem child_congr {m' : ByteMemory}
    (h : load m' (entryAddr t (indexWord i)) = load m (entryAddr t (indexWord i))) :
    child m' t i = child m t i := by
  simp only [child, follow, h]

theorem vmmGetPhysical_eq (hroot : v.kernelPml4 ≠ 0) (u : Word) :
    v.vmmGetPhysical u = (v.walkFrom (pathOf u)).elim 0 fun frame => frame ||| (u &&& 0xFFF#64) := by
  have hpml4 : indexWord (slot (pml4Index u)) = pml4Index u := indexWord_slot u 39
  have hpdpt : indexWord (slot (pdptIndex u)) = pdptIndex u := indexWord_slot u 30
  have hpd : indexWord (slot (pdIndex u)) = pdIndex u := indexWord_slot u 21
  have hpt : indexWord (slot (ptIndex u)) = ptIndex u := indexWord_slot u 12
  rw [vmmGetPhysical, if_neg hroot]
  simp only [walkFrom, pathOf, walk, child, hpml4, hpdpt, hpd, hpt]
  cases follow v.mem v.kernelPml4 (pml4Index u) with
  | none => rfl
  | some pdpt =>
      simp only [Option.bind_some]
      cases follow v.mem pdpt (pdptIndex u) with
      | none => rfl
      | some pd =>
          simp only [Option.bind_some]
          cases follow v.mem pd (pdIndex u) with
          | none => rfl
          | some pt =>
              simp only [Option.bind_some]
              cases follow v.mem pt (ptIndex u) <;> rfl

theorem load_clearEntries (hc : Aligned c) (ht : Aligned t) (j : Fin 512) {n k : Nat}
    (hle : k + n ≤ 512) : load (clearEntries m c k n) (entryAddr t (indexWord j)) =
      if t = c ∧ k ≤ j.val ∧ j.val < k + n then 0 else load m (entryAddr t (indexWord j)) := by
  induction n generalizing m k with
  | zero => rw [clearEntries, if_neg (by omega)]
  | succ n ih =>
      have hword : BitVec.ofNat 64 k = indexWord ⟨k, by omega⟩ := rfl
      rw [clearEntries, ih (by omega), hword, load_store hc ht]
      by_cases htc : t = c
      · by_cases hj : j.val = k
        · have hfin : j = ⟨k, by omega⟩ := Fin.ext hj
          rw [if_neg (by omega), if_pos ⟨htc, hfin⟩, if_pos ⟨htc, by omega, by omega⟩]
        · have hfin : j ≠ ⟨k, by omega⟩ := fun heq => hj (congrArg Fin.val heq)
          rw [if_neg (c := t = c ∧ j = _) fun hboth => hfin hboth.2]
          refine if_congr ?_ rfl rfl
          simp only [htc, true_and]
          omega
      · simp [htc]

theorem load_clearEntries_self (hc : Aligned c) (j : Fin 512) :
    load (clearEntries m c 0 512) (entryAddr c (indexWord j)) = 0 := by
  have hj := j.isLt
  rw [load_clearEntries hc hc j (by omega), if_pos ⟨rfl, by omega, by omega⟩]

theorem load_clearEntries_of_ne (hc : Aligned c) (ht : Aligned t) (hne : t ≠ c) (j : Fin 512) :
    load (clearEntries m c 0 512) (entryAddr t (indexWord j)) =
      load m (entryAddr t (indexWord j)) := by
  rw [load_clearEntries hc ht j (by omega), if_neg fun hboth => hne hboth.1]

def graft (m : ByteMemory) (t : Word) (i : Fin 512) (c : Word) : ByteMemory :=
  store (clearEntries m c 0 512) (entryAddr t (indexWord i)) (c ||| vmmPresent ||| vmmWritable)

theorem load_graft_self (ht : Aligned t) :
    load (graft m t i c) (entryAddr t (indexWord i)) = c ||| vmmPresent ||| vmmWritable := by
  rw [graft, load_store ht ht, if_pos ⟨rfl, rfl⟩]

theorem load_graft_fresh (ht : Aligned t) (hc : Aligned c) (hne : t ≠ c) (j : Fin 512) :
    load (graft m t i c) (entryAddr c (indexWord j)) = 0 := by
  rw [graft, load_store ht hc, if_neg fun hboth => hne hboth.1.symm, load_clearEntries_self hc]

theorem load_graft_of_ne (ht : Aligned t) (hc : Aligned c) (ht' : Aligned t') (hne : t' ≠ c)
    (hother : ¬ (t' = t ∧ j = i)) :
    load (graft m t i c) (entryAddr t' (indexWord j)) = load m (entryAddr t' (indexWord j)) := by
  rw [graft, load_store ht ht', if_neg hother, load_clearEntries_of_ne hc ht' hne]

theorem child_graft_self (ht : Aligned t) (hc : Aligned c) :
    child (graft m t i c) t i = some c := by
  have hpresent : ¬ (c ||| vmmPresent ||| vmmWritable) &&& vmmPresent = 0 := by
    rw [and_vmmPresent_eq_zero]
    simp [vmmPresent]
  rw [child, follow, load_graft_self ht, if_neg hpresent, table_and_frameMask hc]

theorem child_graft_fresh (ht : Aligned t) (hc : Aligned c) (hne : t ≠ c) (j : Fin 512) :
    child (graft m t i c) c j = none := by
  rw [child, follow, load_graft_fresh ht hc hne, if_pos (by decide)]

/-- The tables have grown, and no last-level entry has changed. -/
structure Extends (v v' : Vmm) : Prop where
  tree : v'.Tree
  root : v'.kernelPml4 = v.kernelPml4
  keeps : ∀ path t, path.length ≤ 3 → v.walkFrom path = some t → v'.walkFrom path = some t
  frames : ∀ path, path.length = 4 → v'.walkFrom path = v.walkFrom path

theorem Extends.refl (hv : v.Tree) : v.Extends v :=
  ⟨hv, rfl, fun _ _ _ h => h, fun _ _ => rfl⟩

theorem Extends.trans {v₁ : Vmm} (h : v.Extends v') (h' : v'.Extends v₁) : v.Extends v₁ where
  tree := h'.tree
  root := h'.root.trans h.root
  keeps path t hle hpath := h'.keeps path t hle (h.keeps path t hle hpath)
  frames path hlen := (h'.frames path hlen).trans (h.frames path hlen)

section Graft

variable {page : Nat}

theorem table_entry_plain (hpage : page < pmmMaxPages) :
    (BitVec.ofNat 64 (page * pageSize) ||| vmmPresent ||| vmmWritable).getLsbD 7 = false ∧
      (BitVec.ofNat 64 (page * pageSize) ||| vmmPresent ||| vmmWritable).toNat < 2 ^ 52 := by
  have htoNat := toNat_pageAddr hpage
  have haligned := aligned_of_toNat htoNat
  constructor
  · have hbit : (BitVec.ofNat 64 (page * pageSize)).getLsbD 7 = false := by
      have hmask : frameMask.getLsbD 7 = false := by decide
      rw [← haligned, BitVec.getLsbD_and, hmask, Bool.and_false]
    rw [BitVec.getLsbD_or, BitVec.getLsbD_or, hbit]
    rfl
  · rw [BitVec.toNat_or, BitVec.toNat_or, htoNat]
    simp only [pmmMaxPages_eq] at hpage
    exact Nat.or_lt_two_pow (Nat.or_lt_two_pow (by omega) (by decide)) (by decide)

theorem Tree.fresh (hv : v.Tree) (hpage : page < pmmMaxPages)
    (hfree : v.pmm.bitmapTest page = false) (hle : path.length ≤ 3) :
    v.walkFrom path ≠ some (BitVec.ofNat 64 (page * pageSize)) := by
  intro hpath
  have hused := hv.used path _ hle hpath
  rw [toNat_pageAddr hpage, pageSize_eq, Nat.mul_div_cancel page (by decide), hfree] at hused
  cases hused

section Edit

variable (hv : v.Tree) (hpath : v.walkFrom path = some t) (hlen : path.length ≤ 2)
  (hempty : child v.mem t i = none) (hc : Aligned c)
  (hfresh : ∀ path', path'.length ≤ 3 → v.walkFrom path' ≠ some c)

include hv hpath hc hfresh in
theorem Tree.load_graft {j : Fin 512} (hle : path'.length ≤ 3) (hpath' : v.walkFrom path' = some t')
    (hother : ¬ (t' = t ∧ j = i)) :
    load (Vmm.graft v.mem t i c) (entryAddr t' (indexWord j)) =
      load v.mem (entryAddr t' (indexWord j)) := by
  refine load_graft_of_ne (hv.aligned hpath) hc (hv.aligned hpath') ?_ hother
  rintro rfl
  exact hfresh path' hle hpath'

include hv hpath hlen hempty hc hfresh in
theorem Tree.walkFrom_graft (pmm : Pmm) (hle : path'.length ≤ 4) :
    walkFrom ⟨Vmm.graft v.mem t i c, pmm, v.kernelPml4⟩ path' =
      if path' = path ++ [i] then some c else v.walkFrom path' := by
  have ht := hv.aligned hpath
  have hne : t ≠ c := by
    rintro rfl
    exact hfresh path (by omega) hpath
  exact walk_graft hv.unaliased hpath (by omega) hempty (child_graft_self ht hc)
    (child_graft_fresh ht hc hne)
    (fun _ _ _ hle' hpath' hother =>
      child_congr (hv.load_graft hpath hc hfresh hle' hpath' hother)) hle

include hv hpath hlen hempty hc hfresh in
/-- Hanging a fresh page into an empty entry: the tree stays a tree and maps what it mapped. -/
theorem Tree.graft {pmm : Pmm}
    (hplain : (c ||| vmmPresent ||| vmmWritable).getLsbD 7 = false ∧
      (c ||| vmmPresent ||| vmmWritable).toNat < 2 ^ 52)
    (hmark : pmm.bitmapTest (c.toNat / pageSize) = true)
    (hmono : ∀ q, v.pmm.bitmapTest q = true → pmm.bitmapTest q = true) :
    v.Extends ⟨Vmm.graft v.mem t i c, pmm, v.kernelPml4⟩ ∧
      walkFrom ⟨Vmm.graft v.mem t i c, pmm, v.kernelPml4⟩ (path ++ [i]) = some c := by
  have ht := hv.aligned hpath
  have hne : t ≠ c := by
    rintro rfl
    exact hfresh path (by omega) hpath
  have hwalk : ∀ path', path'.length ≤ 4 →
      walkFrom ⟨Vmm.graft v.mem t i c, pmm, v.kernelPml4⟩ path' =
        if path' = path ++ [i] then some c else v.walkFrom path' := fun _ hle =>
    hv.walkFrom_graft hpath hlen hempty hc hfresh pmm hle
  have hempty' : v.walkFrom (path ++ [i]) = none := by
    rw [walkFrom, walk_snoc, show walk (child v.mem) v.kernelPml4 path = some t from hpath]
    exact hempty
  refine ⟨⟨⟨hv.root_ne_zero, hv.root_aligned, ?_, ?_, ?_⟩, rfl, ?_, ?_⟩, ?_⟩
  · exact hv.unaliased.graft hfresh fun path' hle => hwalk path' (by omega)
  · intro path' t' hle hpath'
    rw [hwalk path' (by omega)] at hpath'
    split at hpath'
    · cases hpath'
      exact hmark
    · exact hmono _ (hv.used path' t' hle hpath')
  · intro path' t' j hle hpath' hpresent
    rw [hwalk path' (by omega)] at hpath'
    split at hpath'
    · cases hpath'
      exact absurd (by rw [load_graft_fresh ht hc hne]; decide) hpresent
    · by_cases hedited : t' = t ∧ j = i
      · simp only [hedited.1, hedited.2, load_graft_self ht]
        exact hplain
      · have hkeep := hv.load_graft hpath hc hfresh (by omega) hpath' hedited
        simp only [hkeep] at hpresent ⊢
        exact hv.plain path' t' j hle hpath' hpresent
  · intro path' t' hle hpath'
    rw [hwalk path' (by omega), if_neg, hpath']
    rintro rfl
    rw [hempty'] at hpath'
    cases hpath'
  · intro path' hlen'
    rw [hwalk path' (by omega), if_neg]
    rintro rfl
    simp at hlen'
    omega
  · rw [hwalk _ (by simp; omega), if_pos rfl]

end Edit

theorem nextTable_spec (hv : v.Tree) (hpath : v.walkFrom path = some t) (hlen : path.length ≤ 2)
    (i : Fin 512) : ∃ o v', v.nextTable t (indexWord i) = (o, v') ∧ v.Extends v' ∧
      ∀ c, o = some c → v'.walkFrom (path ++ [i]) = some c := by
  have hsnoc : v.walkFrom (path ++ [i]) = child v.mem t i := by
    rw [walkFrom, walk_snoc, show walk (child v.mem) v.kernelPml4 path = some t from hpath]
    rfl
  rw [nextTable]
  split
  · rename_i habsent
    have hempty : child v.mem t i = none := by rw [child, follow, if_pos habsent]
    rw [allocPageTable]
    obtain ⟨page, hwindow, halloc⟩ | halloc := Pmm.pmmAllocPage_cases v.pmm
    · rw [halloc]
      have hmax : page < pmmMaxPages := by
        have hle := hwindow.le_max
        omega
      have hfree := hwindow.free page le_rfl (by omega)
      have htoNat := toNat_pageAddr hmax
      have hmark : (v.pmm.markRange page 1).bitmapTest
          ((BitVec.ofNat 64 (page * pageSize)).toNat / pageSize) = true := by
        rw [htoNat, pageSize_eq, Nat.mul_div_cancel page (by decide), Pmm.bitmapTest_markRange]
        simp
      have hmono : ∀ q, v.pmm.bitmapTest q = true →
          (v.pmm.markRange page 1).bitmapTest q = true := by
        intro q hq
        rw [Pmm.bitmapTest_markRange, hq, Bool.or_true]
      obtain ⟨hextends, hnew⟩ := hv.graft hpath hlen hempty (aligned_of_toNat htoNat)
        (fun path' hle => hv.fresh hmax hfree hle) (table_entry_plain hmax) hmark hmono
      refine ⟨some (BitVec.ofNat 64 (page * pageSize)), _, ?_, hextends, ?_⟩
      · simp only [graft]
      · rintro c hc
        cases hc
        exact hnew
    · rw [halloc]
      exact ⟨none, v, rfl, Extends.refl hv, by simp⟩
  · rename_i hpresent
    refine ⟨_, v, rfl, Extends.refl hv, ?_⟩
    rintro c hc
    rw [hsnoc, child, follow, if_neg hpresent]
    exact hc

end Graft

end SimpleOs.Vmm
