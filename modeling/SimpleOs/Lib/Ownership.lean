import Mathlib

/-!
# Who owns which cell

An allocator splits a fixed set of cells into those that are free and those held by live handles.
A handle is taken out of the free cells and given back to them; nothing else moves a cell. The
ledger says this once, for any kind of cell and any kind of handle.
-/

namespace Ownership

variable {Handle Cell : Type*} (cells : Handle → Set Cell)

/-- The free cells and the live handles split `managed`, and no cell has two owners. -/
structure Ledger (managed free : Set Cell) (live : List Handle) : Prop where
  free_subset : free ⊆ managed
  live_subset : ∀ handle ∈ live, cells handle ⊆ managed
  live_disjoint_free : ∀ handle ∈ live, Disjoint (cells handle) free
  pairwise : live.Pairwise fun left right => Disjoint (cells left) (cells right)

namespace Ledger

variable {cells} {managed free free' : Set Cell} {live : List Handle} {handle : Handle}

theorem initial (hfree : free ⊆ managed) : Ledger cells managed free [] where
  free_subset := hfree
  live_subset := by simp
  live_disjoint_free := by simp
  pairwise := List.Pairwise.nil

theorem take (h : Ledger cells managed free live) (hfree : cells handle ⊆ free)
    (hfree' : free' = free \ cells handle) : Ledger cells managed free' (handle :: live) where
  free_subset := by
    rw [hfree']
    exact Set.sdiff_subset.trans h.free_subset
  live_subset := by
    intro other hother
    rcases List.mem_cons.mp hother with rfl | hmem
    · exact hfree.trans h.free_subset
    · exact h.live_subset other hmem
  live_disjoint_free := by
    intro other hother
    rw [hfree']
    rcases List.mem_cons.mp hother with rfl | hmem
    · exact Set.disjoint_sdiff_right
    · exact (h.live_disjoint_free other hmem).mono_right Set.sdiff_subset
  pairwise := List.pairwise_cons.mpr
    ⟨fun other hmem => ((h.live_disjoint_free other hmem).mono_right hfree).symm, h.pairwise⟩

theorem perm {live' : List Handle} (h : Ledger cells managed free live) (hperm : live'.Perm live) :
    Ledger cells managed free live' where
  free_subset := h.free_subset
  live_subset := fun other hother => h.live_subset other (hperm.mem_iff.mp hother)
  live_disjoint_free := fun other hother => h.live_disjoint_free other (hperm.mem_iff.mp hother)
  pairwise := (hperm.pairwise_iff fun hdisjoint => hdisjoint.symm).mpr h.pairwise

variable [DecidableEq Handle]

theorem disjoint_of_mem_erase (h : Ledger cells managed free live) (hmem : handle ∈ live)
    {other : Handle} (hother : other ∈ live.erase handle) :
    Disjoint (cells other) (cells handle) := by
  have hperm : live.Perm (handle :: live.erase handle) := List.perm_cons_erase hmem
  have hpairwise := (hperm.pairwise_iff fun hdisjoint => hdisjoint.symm).mp h.pairwise
  exact ((List.pairwise_cons.mp hpairwise).1 other hother).symm

theorem give (h : Ledger cells managed free live) (hmem : handle ∈ live)
    (hfree' : free' = free ∪ cells handle) :
    Ledger cells managed free' (live.erase handle) where
  free_subset := by
    rw [hfree']
    exact Set.union_subset h.free_subset (h.live_subset handle hmem)
  live_subset := fun other hother => h.live_subset other (List.mem_of_mem_erase hother)
  live_disjoint_free := by
    intro other hother
    rw [hfree', Set.disjoint_union_right]
    exact ⟨h.live_disjoint_free other (List.mem_of_mem_erase hother),
      h.disjoint_of_mem_erase hmem hother⟩
  pairwise := h.pairwise.sublist List.erase_sublist

end Ledger

end Ownership
