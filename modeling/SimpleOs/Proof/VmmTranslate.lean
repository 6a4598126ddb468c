import SimpleOs.Proof.VmmLevels

/-!
# Translating back what was mapped

`vmm_map_page` puts the frame and the flags into one entry, and `vmm_get_physical` takes the frame out
of it with a mask that reaches up to bit 63. All flags but the one in bit 63 are below the mask.
-/

namespace SimpleOs.Vmm

open X86 (Word)

variable {v : Vmm} {virt phys flags d : Word}

/-- All flags of `vmm.h`. -/
def vmmFlags : Word :=
  vmmPresent ||| vmmWritable ||| vmmUser ||| vmmPwt ||| vmmPcd ||| vmmAccessed ||| vmmDirty |||
    vmmHuge ||| vmmGlobal ||| vmmNx

/-- Any combination of the flags of `vmm.h`. -/
def IsFlags (flags : Word) : Prop := flags &&& vmmFlags = flags

instance (flags : Word) : Decidable (IsFlags flags) := inferInstanceAs (Decidable (_ = _))

theorem IsFlags.and_frameMask (hflags : IsFlags flags) : flags &&& frameMask = flags &&& vmmNx := by
  have hmask : vmmFlags &&& frameMask = vmmFlags &&& vmmNx := by decide
  rw [← hflags, BitVec.and_assoc, hmask, ← BitVec.and_assoc]

/-- What the mask leaves of an entry that maps a page. -/
theorem entry_and_frameMask (hflags : IsFlags flags) :
    (MapCall.map virt phys flags).entry &&& frameMask =
      (phys &&& frameMask) ||| (flags &&& vmmNx) := by
  have hpresent : vmmPresent &&& frameMask = 0 := by decide
  rw [MapCall.entry, mask_and_frameMask hpresent, BitVec.and_or_distrib_right,
    aligned_and_frameMask phys, hflags.and_frameMask]

theorem or_and_vmmNx_eq_iff (hphys : phys.toNat < 2 ^ 52) :
    (phys &&& frameMask) ||| (flags &&& vmmNx) = phys &&& frameMask ↔ flags &&& vmmNx = 0 := by
  have hnx : vmmNx = BitVec.twoPow 64 63 := by decide
  have hbit : phys.getLsbD 63 = false := Nat.testBit_lt_two_pow (hphys.trans (by decide))
  have hnxbit : vmmNx.getLsbD 63 = true := by decide
  constructor
  · intro heq
    have htop := congrArg (BitVec.getLsbD · 63) heq
    simp only [BitVec.getLsbD_or, BitVec.getLsbD_and, hbit, hnxbit, Bool.false_and, Bool.false_or,
      Bool.and_true] at htop
    rwa [hnx, X86.Paging.and_twoPow_eq_zero flags (by decide)]
  · intro hzero
    rw [hzero]
    exact BitVec.or_zero

theorem toNat_add_offset (hvirt : Aligned virt) (hd : d.toNat < 4096) :
    (virt + d).toNat = virt.toNat + d.toNat := by
  have hlt := virt.isLt
  have hpage := hvirt.toNat_eq
  rw [BitVec.toNat_add]
  omega

theorem pageOf_add_offset (hvirt : Aligned virt) (hd : d.toNat < 4096) :
    pageOf (virt + d) = pageOf virt := by
  have hadd := toNat_add_offset hvirt hd
  have hpage := hvirt.toNat_eq
  apply BitVec.eq_of_toNat_eq
  rw [toNat_pageOf, toNat_pageOf]
  omega

theorem add_offset_and (hvirt : Aligned virt) (hd : d.toNat < 4096) :
    (virt + d) &&& 0xFFF#64 = d := by
  have hadd := toNat_add_offset hvirt hd
  have hpage := hvirt.toNat_eq
  have hlow := X86.Paging.toNat_and_ones (k := 12) (by decide) (virt + d)
  apply BitVec.eq_of_toNat_eq
  refine hlow.trans ?_
  omega

theorem frame_or_offset (x : Word) (hd : d.toNat < 4096) :
    (x &&& frameMask) ||| d = (x &&& frameMask) + d := by
  have hones : d &&& 0xFFF#64 = d := by
    have hlow := X86.Paging.toNat_and_ones (k := 12) (by decide) d
    apply BitVec.eq_of_toNat_eq
    refine hlow.trans ?_
    omega
  have hmask : frameMask &&& 0xFFF#64 = 0#64 := by decide
  refine (BitVec.add_eq_or_of_and_eq_zero _ _ ?_).symm
  rw [← hones, BitVec.and_comm d, ← BitVec.and_assoc, BitVec.and_assoc x, hmask, BitVec.and_zero]
  exact BitVec.zero_and

theorem vmmGetPhysical_vmmMapPage (hv : v.Tree) (hvirt : Aligned virt) (hflags : IsFlags flags)
    (hsucceeds : v.Succeeds (.map virt phys flags)) (hd : d.toNat < 4096) :
    (v.vmmMapPage virt phys flags).vmmGetPhysical (virt + d) =
      (phys &&& frameMask) ||| (flags &&& vmmNx) ||| d := by
  obtain ⟨htree, hwalk⟩ := walkFrom_step hv (.map virt phys flags)
  have hpath : pathOf (virt + d) = pathOf virt := pathOf_eq_iff.mpr (pageOf_add_offset hvirt hd)
  have hpresent : ¬ (MapCall.map virt phys flags).entry &&& vmmPresent = 0 := by
    rw [and_vmmPresent_eq_zero]
    simp [MapCall.entry, vmmPresent]
  change (v.step (.map virt phys flags)).vmmGetPhysical (virt + d) = _
  rw [vmmGetPhysical_eq htree.root_ne_zero, hwalk _ rfl, if_pos ⟨hsucceeds, hpath⟩, if_neg hpresent,
    entry_and_frameMask hflags, Option.elim_some, add_offset_and hvirt hd]

/-- **A mapping is translated back unless it forbids execution.** With any flags, the addresses of a
page that was mapped translate to the frame and their offset if and only if `VMM_NX` is not one of
them. -/
theorem translates_back_iff (hv : v.Tree) (hvirt : Aligned virt) (hphys : phys.toNat < 2 ^ 52)
    (hflags : IsFlags flags) (hsucceeds : v.Succeeds (.map virt phys flags)) :
    (∀ d : Word, d.toNat < 4096 → (v.vmmMapPage virt phys flags).vmmGetPhysical (virt + d) =
      (phys &&& frameMask) + d) ↔ flags &&& vmmNx = 0 := by
  rw [← or_and_vmmNx_eq_iff hphys]
  constructor
  · intro hall
    have hzero := hall 0 (by decide)
    rw [vmmGetPhysical_vmmMapPage hv hvirt hflags hsucceeds (by decide)] at hzero
    exact (BitVec.or_zero.symm.trans hzero).trans (BitVec.add_zero _)
  · intro hframe d hd
    rw [vmmGetPhysical_vmmMapPage hv hvirt hflags hsucceeds hd, hframe, frame_or_offset phys hd]

theorem translates_back_emptyTree :
    (emptyTree.vmmMapPage 0x5000 0x9000 3).vmmGetPhysical 0x5004 = 0x9004 := by
  have hvirt : Aligned 0x5000 := (by decide : 0x5000#64 &&& frameMask = 0x5000#64)
  have hphys : (0x9000 : Word).toNat < 2 ^ 52 := by decide
  have hflags : IsFlags 3 := by decide
  have hsucceeds := succeeds_emptyTree (.map 0x5000 0x9000 3)
  exact (translates_back_iff tree_emptyTree hvirt hphys hflags hsucceeds).mpr (by decide) 4
    (by decide)

/-- A page that is mapped for data, writable and not executable, does not translate to its frame. -/
theorem not_translates_back_nx :
    emptyTree.Tree ∧ Aligned 0x5000 ∧ IsFlags (vmmWritable ||| vmmNx) ∧
    emptyTree.Succeeds (.map 0x5000 0x9000 (vmmWritable ||| vmmNx)) ∧
    ¬ ∀ d : Word, d.toNat < 4096 →
      (emptyTree.vmmMapPage 0x5000 0x9000 (vmmWritable ||| vmmNx)).vmmGetPhysical (0x5000 + d) =
        (0x9000 &&& frameMask) + d := by
  have hsucceeds := succeeds_emptyTree (.map 0x5000 0x9000 (vmmWritable ||| vmmNx))
  have hvirt : Aligned 0x5000 := (by decide : 0x5000#64 &&& frameMask = 0x5000#64)
  have hflags : IsFlags (vmmWritable ||| vmmNx) := by decide
  refine ⟨tree_emptyTree, hvirt, hflags, hsucceeds, fun hall => ?_⟩
  have hzero := hall 0 (by decide)
  rw [vmmGetPhysical_vmmMapPage tree_emptyTree hvirt hflags hsucceeds (by decide)] at hzero
  exact absurd hzero (by decide)

end SimpleOs.Vmm
