import SimpleOs.Proof.VmmTree

/-!
# Page mapping refines a finite map

A map or unmap that finds or makes the tables it needs sets the translation of its page; one that runs
out of pages half way leaves tables behind and changes no translation. So after any sequence of calls
the translation of a page is what the last effective call on it said.
-/

namespace SimpleOs.Vmm

open X86 (Word load store)
open Radix

inductive MapCall where
  | map (virt phys flags : Word)
  | unmap (virt : Word)
deriving Repr, DecidableEq

namespace MapCall

def virt : MapCall → Word
  | .map virt _ _ => virt
  | .unmap virt => virt

def LowFlags : MapCall → Prop
  | .map _ _ flags => flags &&& frameMask = 0
  | .unmap _ => True

def entry : MapCall → Word
  | .map _ phys flags => (phys &&& frameMask) ||| flags ||| vmmPresent
  | .unmap _ => 0

/-- What an address of the page translates to after the call. -/
def translation (call : MapCall) (u : Word) : Word :=
  match call with
  | .map _ phys _ => (phys &&& frameMask) ||| (u &&& 0xFFF#64)
  | .unmap _ => 0

end MapCall

def step (v : Vmm) : MapCall → Vmm
  | .map virt phys flags => v.vmmMapPage virt phys flags
  | .unmap virt => v.vmmUnmapPage virt

def Succeeds (v : Vmm) (call : MapCall) : Prop := (v.getOrCreateEntry call.virt).1 ≠ none

instance (v : Vmm) (call : MapCall) : Decidable (v.Succeeds call) :=
  inferInstanceAs (Decidable (_ ≠ _))

variable {v v' : Vmm} {t u virt x : Word} {i : Fin 512} {path path' : List (Fin 512)}
  {call : MapCall}

theorem child_store_self (m : ByteMemory) (t : Word) (i : Fin 512) (x : Word) :
    child (store m (entryAddr t (indexWord i)) x) t i =
      if x &&& vmmPresent = 0 then none else some (x &&& frameMask) := by
  have hload : load (store m (entryAddr t (indexWord i)) x) (entryAddr t (indexWord i)) = x :=
    X86.load_store_self
  rw [child, follow, hload]

/-- A new entry in a last-level table is found at the end of its path and nowhere else. -/
theorem walkFrom_leaf (hroot : Aligned v.kernelPml4)
    (htree : Unaliased (child v.mem) v.kernelPml4 3) (hpath : v.walkFrom path = some t)
    (hlen : path.length = 3) (i : Fin 512) (x : Word) (hle : path'.length ≤ 4) :
    walkFrom { v with mem := store v.mem (entryAddr t (indexWord i)) x } path' =
      if path' = path ++ [i] then (if x &&& vmmPresent = 0 then none else some (x &&& frameMask))
      else v.walkFrom path' := by
  have hkeep : ∀ path' t' j, path'.length ≤ 3 → v.walkFrom path' = some t' → ¬ (t' = t ∧ j = i) →
      child (store v.mem (entryAddr t (indexWord i)) x) t' j = child v.mem t' j := by
    intro path' t' j _ hpath' hother
    apply child_congr
    rw [load_store (aligned_walkFrom hroot hpath) (aligned_walkFrom hroot hpath'), if_neg hother]
  rw [← child_store_self v.mem t i x]
  exact walk_leaf htree hpath hlen hkeep hle

theorem Tree.leaf (hv : v.Tree) (hpath : v.walkFrom path = some t) (hlen : path.length = 3)
    (i : Fin 512) (x : Word) :
    Tree { v with mem := store v.mem (entryAddr t (indexWord i)) x } ∧
      ∀ path', path'.length ≤ 4 →
        walkFrom { v with mem := store v.mem (entryAddr t (indexWord i)) x } path' =
          if path' = path ++ [i] then (if x &&& vmmPresent = 0 then none else some (x &&& frameMask))
          else v.walkFrom path' := by
  have hwalk : ∀ path', path'.length ≤ 4 →
      walkFrom { v with mem := store v.mem (entryAddr t (indexWord i)) x } path' =
        if path' = path ++ [i] then (if x &&& vmmPresent = 0 then none else some (x &&& frameMask))
        else v.walkFrom path' := fun _ hle =>
    walkFrom_leaf hv.root_aligned hv.unaliased hpath hlen i x hle
  have hshort : ∀ path', path'.length ≤ 3 →
      walkFrom { v with mem := store v.mem (entryAddr t (indexWord i)) x } path' =
        v.walkFrom path' := by
    intro path' hle
    rw [hwalk path' (by omega), if_neg]
    rintro rfl
    simp at hle
    omega
  refine ⟨⟨hv.root_ne_zero, hv.root_aligned, ?_, ?_, ?_⟩, hwalk⟩
  · intro p q a hp hq hpa hqa
    exact hv.unaliased p q a hp hq ((hshort p hp).symm.trans hpa) ((hshort q hq).symm.trans hqa)
  · intro path' t' hle hpath'
    exact hv.used path' t' hle ((hshort path' hle).symm.trans hpath')
  · intro path' t' j hle hpath' hpresent
    rw [hshort path' (by omega)] at hpath'
    -- a table above the last level is not the one that was written to
    have hother : ¬ (t' = t ∧ j = i) := by
      rintro ⟨rfl, -⟩
      have hsame := hv.unaliased path' path t' (by omega) (by omega) hpath' hpath
      rw [hsame, hlen] at hle
      omega
    have hkeep : load (store v.mem (entryAddr t (indexWord i)) x) (entryAddr t' (indexWord j)) =
        load v.mem (entryAddr t' (indexWord j)) := by
      rw [load_store (hv.aligned hpath) (hv.aligned hpath'), if_neg hother]
    simp only [hkeep] at hpresent ⊢
    exact hv.plain path' t' j hle hpath' hpresent

/-- `vmm_get_or_create_entry` changes no translation, and if it succeeds, it returns the entry at the
end of the path. -/
theorem getOrCreateEntry_spec (hv : v.Tree) (virt : Word) :
    ∃ o v', v.getOrCreateEntry virt = (o, v') ∧ v.Extends v' ∧ ∀ e, o = some e →
      ∃ path t, pathOf virt = path ++ [slot (ptIndex virt)] ∧ path.length = 3 ∧
        v'.walkFrom path = some t ∧ e = entryAddr t (indexWord (slot (ptIndex virt))) := by
  have hpml4 : indexWord (slot (pml4Index virt)) = pml4Index virt := indexWord_slot virt 39
  have hpdpt : indexWord (slot (pdptIndex virt)) = pdptIndex virt := indexWord_slot virt 30
  have hpd : indexWord (slot (pdIndex virt)) = pdIndex virt := indexWord_slot virt 21
  have hpt : indexWord (slot (ptIndex virt)) = ptIndex virt := indexWord_slot virt 12
  rw [getOrCreateEntry, if_neg hv.root_ne_zero]
  have hroot : v.walkFrom [] = some v.kernelPml4 := rfl
  obtain ⟨o₁, v₁, hrun₁, hext₁, hnew₁⟩ :=
    nextTable_spec hv hroot (by simp) (slot (pml4Index virt))
  rw [hpml4] at hrun₁
  rw [hrun₁]
  cases o₁ with
  | none => exact ⟨none, v₁, rfl, hext₁, by simp⟩
  | some pdpt =>
      obtain ⟨o₂, v₂, hrun₂, hext₂, hnew₂⟩ :=
        nextTable_spec hext₁.tree (hnew₁ pdpt rfl) (by simp) (slot (pdptIndex virt))
      rw [hpdpt] at hrun₂
      simp only [hrun₂]
      cases o₂ with
      | none => exact ⟨none, v₂, rfl, hext₁.trans hext₂, by simp⟩
      | some pd =>
          obtain ⟨o₃, v₃, hrun₃, hext₃, hnew₃⟩ :=
            nextTable_spec hext₂.tree (hnew₂ pd rfl) (by simp) (slot (pdIndex virt))
          rw [hpd] at hrun₃
          simp only [hrun₃]
          have hext := (hext₁.trans hext₂).trans hext₃
          cases o₃ with
          | none => exact ⟨none, v₃, rfl, hext, by simp⟩
          | some pt =>
              refine ⟨_, v₃, rfl, hext, ?_⟩
              rintro e he
              cases he
              exact ⟨_, pt, rfl, rfl, hnew₃ pt rfl, by rw [hpt]⟩

theorem entry_translation (hflags : call.LowFlags) (u : Word) :
    (if call.entry &&& vmmPresent = 0 then none else some (call.entry &&& frameMask)).elim 0
      (fun frame => frame ||| (u &&& 0xFFF#64)) = call.translation u := by
  cases call with
  | map virt phys flags =>
      have hpresent : ¬ ((phys &&& frameMask) ||| flags ||| vmmPresent) &&& vmmPresent = 0 := by
        rw [and_vmmPresent_eq_zero]
        simp [vmmPresent]
      simp only [MapCall.entry, if_neg hpresent, mapped_and_frameMask hflags]
      rfl
  | unmap virt => simp [MapCall.entry, MapCall.translation]

theorem step_eq (v : Vmm) (call : MapCall) : v.step call =
    match v.getOrCreateEntry call.virt with
    | (none, v) => v
    | (some entry, v) => { v with mem := store v.mem entry call.entry } := by
  cases call <;> rfl

/-- One call: the tree stays a tree, the entry at the end of the path is what the call says if the call
succeeds, and no other is changed. -/
theorem walkFrom_step (hv : v.Tree) (call : MapCall) : (v.step call).Tree ∧
    ∀ path, path.length = 4 → (v.step call).walkFrom path =
      if v.Succeeds call ∧ path = pathOf call.virt then
        if call.entry &&& vmmPresent = 0 then none else some (call.entry &&& frameMask)
      else v.walkFrom path := by
  obtain ⟨o, v', hrun, hext, hentry⟩ := getOrCreateEntry_spec hv call.virt
  have hsucceeds : v.Succeeds call ↔ o ≠ none := by rw [Succeeds, hrun]
  rw [step_eq, hrun]
  simp only [hsucceeds]
  cases o with
  | none =>
      refine ⟨hext.tree, fun path hlen => ?_⟩
      rw [if_neg (by simp)]
      exact hext.frames path hlen
  | some e =>
      obtain ⟨front, t, hpathOf, hlen, hpath, rfl⟩ := hentry e rfl
      obtain ⟨htree, hwalk⟩ := hext.tree.leaf hpath hlen (slot (ptIndex call.virt)) call.entry
      refine ⟨htree, fun path hlen => ?_⟩
      rw [hwalk path hlen.le, ← hpathOf]
      simp only [ne_eq, reduceCtorEq, not_false_eq_true, true_and]
      split
      · rfl
      · exact hext.frames path hlen

/-- In terms of translations: the page of the call is translated as it says if the call succeeds, and
no other translation changes. -/
theorem step_spec (hv : v.Tree) (hflags : call.LowFlags) : (v.step call).Tree ∧
    ∀ u, (v.step call).vmmGetPhysical u =
      if v.Succeeds call ∧ pageOf u = pageOf call.virt then call.translation u
      else v.vmmGetPhysical u := by
  obtain ⟨htree, hwalk⟩ := walkFrom_step hv call
  refine ⟨htree, fun u => ?_⟩
  rw [vmmGetPhysical_eq htree.root_ne_zero, hwalk (pathOf u) rfl]
  simp only [pathOf_eq_iff]
  split
  · exact entry_translation hflags u
  · rw [vmmGetPhysical_eq hv.root_ne_zero]

def run (v : Vmm) : List MapCall → Vmm × List MapCall
  | [] => (v, [])
  | call :: calls =>
      ((run (v.step call) calls).1,
        if v.Succeeds call then call :: (run (v.step call) calls).2
        else (run (v.step call) calls).2)

def lastOn (page : Word) (log : List MapCall) : Option MapCall :=
  (log.filter fun call => pageOf call.virt = page).getLast?

theorem lastOn_cons (page : Word) (call : MapCall) (log : List MapCall) :
    lastOn page (call :: log) =
      (lastOn page log).or (if pageOf call.virt = page then some call else none) := by
  rw [lastOn, List.filter_cons]
  split
  · rename_i hpage
    rw [List.getLast?_cons, if_pos (by simpa using hpage), lastOn]
    cases (log.filter fun call => pageOf call.virt = page).getLast? <;> rfl
  · rename_i hpage
    rw [if_neg (by simpa using hpage), Option.or_none]
    rfl

theorem run_spec (hv : v.Tree) {calls : List MapCall} (hflags : ∀ call ∈ calls, call.LowFlags) :
    (v.run calls).1.Tree ∧ ∀ u, (v.run calls).1.vmmGetPhysical u =
      (lastOn (pageOf u) (v.run calls).2).elim (v.vmmGetPhysical u) fun call =>
        call.translation u := by
  induction calls generalizing v with
  | nil => exact ⟨hv, fun u => rfl⟩
  | cons call calls ih =>
      obtain ⟨hcall, hcalls⟩ := List.forall_mem_cons.mp hflags
      obtain ⟨htree, hstep⟩ := step_spec hv hcall
      obtain ⟨htree', hrun⟩ := ih htree hcalls
      refine ⟨htree', fun u => ?_⟩
      rw [run]
      simp only
      rw [hrun u, hstep u]
      by_cases hsucceeds : v.Succeeds call
      · rw [if_pos hsucceeds, lastOn_cons]
        cases lastOn (pageOf u) (run (v.step call) calls).2 with
        | some last => rfl
        | none =>
            by_cases hpage : pageOf u = pageOf call.virt
            · rw [if_pos ⟨hsucceeds, hpage⟩, if_pos hpage.symm]
              rfl
            · rw [if_neg fun hboth => hpage hboth.2, if_neg fun heq => hpage heq.symm]
              rfl
      · rw [if_neg hsucceeds, if_neg fun hboth => hsucceeds hboth.1]

/-- **Page mapping refines a finite map.** From any tree of page tables, after any calls: the tables are
a tree, an address translates as the last effective call on its page says and as it did at first if
there was none, a further call changes no translation outside its page, and one that runs out of pages
changes none at all. -/
theorem mapping_refines (hv : v.Tree) {calls : List MapCall}
    (hflags : ∀ call ∈ calls, call.LowFlags) :
    (v.run calls).1.Tree ∧
    (∀ u, (v.run calls).1.vmmGetPhysical u =
      match lastOn (pageOf u) (v.run calls).2 with
      | some (.map _ phys _) => (phys &&& frameMask) ||| (u &&& 0xFFF#64)
      | some (.unmap _) => 0
      | none => v.vmmGetPhysical u) ∧
    (∀ call : MapCall, call.LowFlags → ∀ u, pageOf u ≠ pageOf call.virt →
      ((v.run calls).1.step call).vmmGetPhysical u = (v.run calls).1.vmmGetPhysical u) ∧
    (∀ call : MapCall, call.LowFlags → ¬ (v.run calls).1.Succeeds call → ∀ u,
      ((v.run calls).1.step call).vmmGetPhysical u = (v.run calls).1.vmmGetPhysical u) := by
  obtain ⟨htree, hrun⟩ := run_spec hv hflags
  refine ⟨htree, fun u => ?_, fun call hcall u hpage => ?_, fun call hcall hfails u => ?_⟩
  · rw [hrun u]
    cases lastOn (pageOf u) (v.run calls).2 with
    | none => rfl
    | some call => cases call <;> rfl
  · rw [(step_spec htree hcall).2 u, if_neg fun hboth => hpage hboth.2]
  · rw [(step_spec htree hcall).2 u, if_neg fun hboth => hfails hboth.1]

def emptyTree : Vmm := ⟨ByteMemory.zero, Pmm.allConventional, 0x1000#64⟩

/-- `kernel_pml4` is a cleared page that is marked used or not managed. -/
structure Empty (v : Vmm) : Prop where
  root_ne_zero : v.kernelPml4 ≠ 0
  root_aligned : Aligned v.kernelPml4
  root_lt : v.kernelPml4.toNat < 2 ^ 52
  used : v.pmm.bitmapTest (v.kernelPml4.toNat / pageSize) = true
  clear : ∀ i, load v.mem (entryAddr v.kernelPml4 (indexWord i)) = 0

theorem Empty.walkFrom_eq_some (hv : v.Empty) (h : v.walkFrom path = some t) :
    path = [] ∧ t = v.kernelPml4 := by
  cases path with
  | nil => exact ⟨rfl, (Option.some_inj.mp h).symm⟩
  | cons i path =>
      have hchild : child v.mem v.kernelPml4 i = none := by
        rw [child, follow, hv.clear i, if_pos (by decide)]
      rw [walkFrom, walk, hchild] at h
      cases h

theorem Empty.tree (hv : v.Empty) : v.Tree := by
  refine ⟨hv.root_ne_zero, hv.root_aligned, ?_, ?_, ?_⟩
  · intro p q a _ _ hp hq
    rw [(hv.walkFrom_eq_some hp).1, (hv.walkFrom_eq_some hq).1]
  · intro path t _ hpath
    rw [(hv.walkFrom_eq_some hpath).2]
    exact hv.used
  · intro path t i _ hpath hpresent
    rw [(hv.walkFrom_eq_some hpath).2, hv.clear i] at hpresent
    exact absurd (by decide) hpresent

theorem empty_emptyTree : emptyTree.Empty := by
  refine ⟨by decide, (by decide : 0x1000#64 &&& frameMask = 0x1000#64), by decide, by decide,
    fun i => ?_⟩
  simp [load, ByteMemory.read, emptyTree, ByteMemory.zero]

theorem tree_emptyTree : emptyTree.Tree := empty_emptyTree.tree

theorem mapping_refines_emptyTree : (emptyTree.run [.map 0x5123 0x9000 3]).1.Tree ∧
    (emptyTree.run [.map 0x5123 0x9000 3]).1.vmmGetPhysical 0x5FFF = 0x9FFF := by
  have hflags : ∀ call ∈ [MapCall.map 0x5123 0x9000 3], call.LowFlags := by
    simp [MapCall.LowFlags, frameMask]
  have hsucceeds : emptyTree.Succeeds (.map 0x5123 0x9000 3) := by decide +kernel
  have hlog : (emptyTree.run [.map 0x5123 0x9000 3]).2 = [.map 0x5123 0x9000 3] := by
    simp only [run, if_pos hsucceeds]
  have hlast : lastOn (pageOf 0x5FFF) [.map 0x5123 0x9000 3] = some (.map 0x5123 0x9000 3) := by
    decide
  obtain ⟨htree, htranslate, -, -⟩ := mapping_refines tree_emptyTree hflags
  refine ⟨htree, ?_⟩
  rw [htranslate, hlog, hlast]
  rfl

end SimpleOs.Vmm
