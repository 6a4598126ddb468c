import SimpleOs.Proof.VmmLevels

/-!
# Permissions of a mapping

Every table is hung in with `VMM_PRESENT | VMM_WRITABLE`, whatever was asked for. So the levels above
the last allow writing and execution and never user access: a mapping grants what its last-level entry
says, but for `VMM_USER`, which has no effect. Bit 63 of the physical address is kept as `VMM_NX`.
-/

namespace SimpleOs.Vmm

open X86 (Word load store)
open X86.Paging

variable {v : Vmm} {e virt phys flags : Word}

/-- The processor translates `virt` and grants what the flags ask for, no less and no more. -/
def Grants (v : Vmm) (virt flags : Word) : Prop :=
  (∀ e ∈ entries v.mem virt 3 v.kernelPml4, Present e) ∧
  (UserAllowed (entries v.mem virt 3 v.kernelPml4) ↔ flags &&& vmmUser ≠ 0) ∧
  (WriteAllowed (entries v.mem virt 3 v.kernelPml4) ↔ flags &&& vmmWritable ≠ 0) ∧
  (ExecuteAllowed (entries v.mem virt 3 v.kernelPml4) ↔ flags &&& vmmNx = 0)

theorem and_vmmWritable_eq_zero (x : Word) : x &&& vmmWritable = 0 ↔ x.getLsbD 1 = false :=
  and_twoPow_eq_zero x (k := 1) (by decide)

theorem and_vmmNx_eq_zero (x : Word) : x &&& vmmNx = 0 ↔ x.getLsbD 63 = false :=
  and_twoPow_eq_zero x (k := 63) (by decide)

/-- An entry above the last level: writable and executable, and not for user mode. -/
def KernelOnly (e : Word) : Prop :=
  e.getLsbD 1 = true ∧ e.getLsbD 2 = false ∧ e.getLsbD 63 = false

theorem kernelOnly_tableEntry (page : Nat) (hpage : page < pmmMaxPages) :
    KernelOnly (tableEntry page) := by
  have haddr := toNat_pageAddr hpage
  have haligned : pageWord page &&& frameMask = pageWord page := aligned_of_toNat haddr
  have hlow (k : Nat) (hk : frameMask.getLsbD k = false) : (pageWord page).getLsbD k = false := by
    rw [← haligned, BitVec.getLsbD_and, hk, Bool.and_false]
  have hhigh : (pageWord page).getLsbD 63 = false := by
    apply Nat.testBit_lt_two_pow
    rw [pmmMaxPages_eq] at hpage
    exact lt_of_eq_of_lt haddr (by omega)
  refine ⟨?_, ?_, ?_⟩
  · simp [tableEntry, vmmWritable]
  · rw [tableEntry, BitVec.getLsbD_or, BitVec.getLsbD_or, hlow 2 (by decide)]
    rfl
  · rw [tableEntry, BitVec.getLsbD_or, BitVec.getLsbD_or, hhigh]
    rfl

theorem getLsbD_leaf (phys flags : Word) {k : Nat} (hk : k ≠ 0) :
    ((phys &&& frameMask) ||| flags ||| vmmPresent).getLsbD k =
      (phys.getLsbD k && frameMask.getLsbD k || flags.getLsbD k) := by
  have hpresent : vmmPresent.getLsbD k = false := by
    rw [vmmPresent, BitVec.getLsbD_one]
    simp [hk]
  rw [BitVec.getLsbD_or, BitVec.getLsbD_or, BitVec.getLsbD_and, hpresent, Bool.or_false]

theorem present_leaf (phys flags : Word) : Present ((phys &&& frameMask) ||| flags ||| vmmPresent) := by
  rw [present_iff]
  simp [vmmPresent]

theorem Empty.upperEntries (hv : v.Empty) : UpperEntries KernelOnly v := by
  intro path t i _ hpath hpresent
  rw [(hv.walkFrom_eq_some hpath).2, hv.clear i] at hpresent
  exact absurd (by decide) hpresent

theorem run_invariant {R : Vmm → Prop} (hstep : ∀ v call, v.Tree → R v → R (v.step call))
    (hv : v.Tree) (hR : R v) (calls : List MapCall) :
    (v.run calls).1.Tree ∧ (v.run calls).1.kernelPml4 = v.kernelPml4 ∧ R (v.run calls).1 := by
  induction calls generalizing v with
  | nil => exact ⟨hv, rfl, hR⟩
  | cons call calls ih =>
      obtain ⟨htree, hroot, hlast⟩ := ih (hv.step call) (hstep v call hv hR)
      exact ⟨htree, hroot.trans (kernelPml4_step hv call), hlast⟩

/-- What the processor reads after a map that finds its tables: three entries for tables, and the
entry asked for. -/
theorem entries_vmmMapPage (hv : v.Tree) (hroot : v.kernelPml4.toNat < 2 ^ 52)
    (hupper : UpperEntries KernelOnly v) (hsucceeds : v.Succeeds (.map virt phys flags)) :
    ∃ es, entries (v.vmmMapPage virt phys flags).mem virt 3 (v.vmmMapPage virt phys flags).kernelPml4 =
        es ++ [(phys &&& frameMask) ||| flags ||| vmmPresent] ∧
      es.length = 3 ∧ ∀ e ∈ es, Present e ∧ KernelOnly e := by
  obtain ⟨o, v', hrun, hext, hentry⟩ := getOrCreateEntry_spec hv virt
  rw [Succeeds, MapCall.virt, hrun] at hsucceeds
  obtain ⟨entry, rfl⟩ := Option.ne_none_iff_exists'.mp hsucceeds
  obtain ⟨path, pt, hpathOf, hlen, hpath, rfl⟩ := hentry entry rfl
  obtain rfl : upperPath virt = path := (List.append_inj' hpathOf rfl).1
  have hkernel := UpperEntries.step kernelOnly_tableEntry hv hupper (.map virt phys flags)
  have hmap : v.step (.map virt phys flags) = v.vmmMapPage virt phys flags := rfl
  have hset : v.vmmMapPage virt phys flags = v'.setLeaf pt (slot (ptIndex virt))
      ((phys &&& frameMask) ||| flags ||| vmmPresent) := by
    rw [vmmMapPage, hrun]
    rfl
  rw [hmap, hset] at hkernel
  rw [hset]
  generalize (phys &&& frameMask) ||| flags ||| vmmPresent = leaf at hkernel ⊢
  have htree : (v'.setLeaf pt (slot (ptIndex virt)) leaf).Tree := (hext.tree.leaf hpath rfl _ _).1
  have hlt : v'.kernelPml4.toNat < 2 ^ 52 := by rwa [hext.root]
  have hfound : Radix.walk (child (v'.setLeaf pt (slot (ptIndex virt)) leaf).mem) v'.kernelPml4
      (below virt 3) = some pt :=
    (hext.tree.walkFrom_setLeaf hpath rfl (show (upperPath virt).length ≤ 3 from le_rfl)).trans hpath
  have hroot' : (v'.setLeaf pt (slot (ptIndex virt)) leaf).walkFrom [] = some v'.kernelPml4 := rfl
  obtain ⟨es, hes, hcount, hall⟩ := htree.entries_eq hkernel hroot' rfl hlt virt hfound
  have hload : load (v'.setLeaf pt (slot (ptIndex virt)) leaf).mem
      (entryAddr pt (indexWord (slot (ptIndex virt)))) = leaf := X86.load_store_self
  exact ⟨es, hes.trans (congrArg (fun leaf => es ++ [leaf]) hload), hcount, hall⟩

theorem grants_vmmMapPage_iff (hv : v.Tree) (hroot : v.kernelPml4.toNat < 2 ^ 52)
    (hupper : UpperEntries KernelOnly v) (hsucceeds : v.Succeeds (.map virt phys flags)) :
    (v.vmmMapPage virt phys flags).Grants virt flags ↔
      flags &&& vmmUser = 0 ∧ (phys &&& vmmNx = 0 ∨ flags &&& vmmNx ≠ 0) := by
  obtain ⟨es, hes, hcount, hall⟩ := entries_vmmMapPage hv hroot hupper hsucceeds
  obtain ⟨e, he⟩ : ∃ e, e ∈ es := List.exists_mem_of_length_pos (by omega)
  have huser : ¬ UserAllowed (es ++ [(phys &&& frameMask) ||| flags ||| vmmPresent]) := by
    intro hall'
    have hclear := (hall e he).2.2.1
    rw [hall' e (List.mem_append_left _ he)] at hclear
    cases hclear
  have hwrite : WriteAllowed (es ++ [(phys &&& frameMask) ||| flags ||| vmmPresent]) ↔
      flags &&& vmmWritable ≠ 0 := by
    rw [WriteAllowed, List.forall_mem_append, List.forall_mem_singleton,
      getLsbD_leaf _ _ (by decide), show frameMask.getLsbD 1 = false from by decide, ne_eq,
      and_vmmWritable_eq_zero, Bool.not_eq_false, and_iff_right fun e he => (hall e he).2.1,
      Bool.and_false, Bool.false_or]
  have hexecute : ExecuteAllowed (es ++ [(phys &&& frameMask) ||| flags ||| vmmPresent]) ↔
      phys &&& vmmNx = 0 ∧ flags &&& vmmNx = 0 := by
    rw [ExecuteAllowed, List.forall_mem_append, List.forall_mem_singleton,
      getLsbD_leaf _ _ (by decide), show frameMask.getLsbD 63 = true from by decide,
      and_vmmNx_eq_zero, and_vmmNx_eq_zero, and_iff_right fun e he => (hall e he).2.2.2,
      Bool.and_true, Bool.or_eq_false_iff]
  have hpresent : ∀ e ∈ es ++ [(phys &&& frameMask) ||| flags ||| vmmPresent], Present e := by
    rw [List.forall_mem_append, List.forall_mem_singleton]
    exact ⟨fun e he => (hall e he).1, present_leaf phys flags⟩
  rw [Grants, hes, hwrite, hexecute, and_iff_right hpresent, iff_false_left huser, not_not,
    and_iff_right Iff.rfl]
  refine and_congr_right fun _ => ⟨fun hiff => ?_, fun hphys => ⟨And.right, fun hflags => ⟨?_, hflags⟩⟩⟩
  · by_cases hflags : flags &&& vmmNx = 0
    · exact .inl (hiff.mpr hflags).1
    · exact .inr hflags
  · exact hphys.resolve_right (not_not.mpr hflags)

/-- **The permissions of a mapping**: whatever was mapped before, a map that finds its tables grants
exactly what its flags ask for if and only if they do not ask for user access, and bit 63 of the
physical address does not forbid an execution that they allow. -/
theorem grants_iff (hempty : v.Empty) (calls : List MapCall) (virt phys flags : Word)
    (hsucceeds : (v.run calls).1.Succeeds (.map virt phys flags)) :
    ((v.run calls).1.vmmMapPage virt phys flags).Grants virt flags ↔
      flags &&& vmmUser = 0 ∧ (phys &&& vmmNx = 0 ∨ flags &&& vmmNx ≠ 0) := by
  obtain ⟨htree, hroot, hupper⟩ := run_invariant (R := UpperEntries KernelOnly)
    (fun _ call hv hR => UpperEntries.step kernelOnly_tableEntry hv hR call) hempty.tree
    hempty.upperEntries calls
  have hlt : (v.run calls).1.kernelPml4.toNat < 2 ^ 52 := by
    rw [hroot]
    exact hempty.root_lt
  exact grants_vmmMapPage_iff htree hlt hupper hsucceeds

/-- One page has been mapped. -/
def onePageTree : Vmm := (emptyTree.run [.map 0x5000 0x9000 vmmWritable]).1

theorem succeeds_secondPage : onePageTree.Succeeds (.map 0x6000 0xA000 vmmWritable) := by
  obtain ⟨htree, hwalk⟩ := walkFrom_step tree_emptyTree (.map 0x5000 0x9000 vmmWritable)
  have hmapped := hwalk (pathOf 0x5000) rfl
  rw [if_pos ⟨succeeds_emptyTree _, rfl⟩, if_neg (by decide), pathOf_eq, walkFrom,
    Radix.walk_snoc] at hmapped
  obtain ⟨pt, hpath, -⟩ := Option.bind_eq_some_iff.mp hmapped
  have hsame : upperPath 0x5000 = upperPath 0x6000 := by decide
  have hstep : onePageTree = emptyTree.step (.map 0x5000 0x9000 vmmWritable) := by
    rw [onePageTree, run, run]
  rw [hstep]
  exact succeeds_of_walkFrom htree (hsame ▸ hpath)

theorem grants_iff_secondPage : (onePageTree.vmmMapPage 0x6000 0xA000 vmmWritable).Grants 0x6000 vmmWritable :=
  (grants_iff empty_emptyTree [.map 0x5000 0x9000 vmmWritable] 0x6000 0xA000 vmmWritable
    succeeds_secondPage).mpr ⟨by decide, Or.inl (by decide)⟩

/-- A page mapped for user mode is not accessible in user mode. -/
theorem not_grants_vmmUser : emptyTree.Empty ∧
    emptyTree.Succeeds (.map 0x5000 0x9000 (vmmWritable ||| vmmUser)) ∧
    ¬ (emptyTree.vmmMapPage 0x5000 0x9000 (vmmWritable ||| vmmUser)).Grants 0x5000
      (vmmWritable ||| vmmUser) := by
  have hsucceeds := succeeds_emptyTree (.map 0x5000 0x9000 (vmmWritable ||| vmmUser))
  refine ⟨empty_emptyTree, hsucceeds, fun hgrants => ?_⟩
  have hcondition := (grants_vmmMapPage_iff tree_emptyTree empty_emptyTree.root_lt
    empty_emptyTree.upperEntries hsucceeds).mp hgrants
  exact absurd hcondition.1 (by decide)

end SimpleOs.Vmm
