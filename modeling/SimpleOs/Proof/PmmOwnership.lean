import SimpleOs.Lib.Ownership
import SimpleOs.Proof.PmmAlloc

/-!
# Exclusive ownership of physical pages

Runs of the page allocator in which callers free only what they hold. The bitmap is the free side of
a ledger whose handles are the outstanding allocations, so the whole argument is that each call is a
`take` or a `give`.
-/

namespace SimpleOs.Pmm

open Ownership

/-- An outstanding allocation: the address returned and the number of pages asked for. -/
structure Allocation where
  addr : Nat
  count : Nat
deriving Repr, DecidableEq

def Allocation.pages (a : Allocation) : Set Nat :=
  { p | a.addr / pageSize ≤ p ∧ p < a.addr / pageSize + a.count }

theorem Allocation.mem_pages {a : Allocation} {p : Nat} :
    p ∈ a.pages ↔ a.addr / pageSize ≤ p ∧ p < a.addr / pageSize + a.count := Iff.rfl

instance (a : Allocation) (p : Nat) : Decidable (p ∈ a.pages) :=
  inferInstanceAs (Decidable (_ ∧ _))

def freePages (s : Pmm) : Set Nat := { p | s.bitmapTest p = false }

theorem mem_freePages {s : Pmm} {p : Nat} : p ∈ s.freePages ↔ s.bitmapTest p = false := Iff.rfl

inductive Call where
  | allocPage
  | allocPages (count : Nat)
  | freePage (addr : Nat)
  | freePages (addr count : Nat)
deriving Repr, DecidableEq

structure Holding where
  pmm : Pmm
  live : List Allocation

namespace Holding

/-- A successful allocation is recorded with the page count it was made with. -/
def receive (live : List Allocation) (count : Nat) : Option Nat × Pmm → Holding
  | (some addr, s) => ⟨s, ⟨addr, count⟩ :: live⟩
  | (none, s) => ⟨s, live⟩

def step (h : Holding) : Call → Holding
  | .allocPage => receive h.live 1 h.pmm.pmmAllocPage
  | .allocPages count => receive h.live count (h.pmm.pmmAllocPages count)
  | .freePage addr => ⟨h.pmm.pmmFreePage addr, h.live.erase ⟨addr, 1⟩⟩
  | .freePages addr count => ⟨h.pmm.pmmFreePages addr count, h.live.erase ⟨addr, count⟩⟩

def Matching (h : Holding) : Call → Prop
  | .allocPage => True
  | .allocPages _ => True
  | .freePage addr => ⟨addr, 1⟩ ∈ h.live
  | .freePages addr count => ⟨addr, count⟩ ∈ h.live

def Step (h h' : Holding) : Prop := ∃ call, h.Matching call ∧ h' = h.step call

def Run : Holding → Holding → Prop := Relation.ReflTransGen Step

def managed (es : List MemoryMapEntry) : Set Nat :=
  { p | pmmFirstPage ≤ p ∧ p < pmmMaxPages ∧ UsablePage es p }

/-- The invariant of a run: the bitmap and the callers' holdings keep one ledger. -/
def Sound (es : List MemoryMapEntry) (h : Holding) : Prop :=
  Ledger Allocation.pages (managed es) h.pmm.freePages h.live

variable {es : List MemoryMapEntry} {h h' : Holding}

theorem freePages_markRange {s : Pmm} {p count : Nat} :
    (s.markRange p count).freePages =
      s.freePages \ Allocation.pages ⟨p * pageSize, count⟩ := by
  ext q
  have hdiv : p * pageSize / pageSize = p := Nat.mul_div_cancel p (by decide)
  simp only [mem_freePages, bitmapTest_markRange, Set.mem_sdiff, Allocation.mem_pages, hdiv,
    Bool.or_eq_false_iff, decide_eq_false_iff_not]
  tauto

theorem window_pages {s : Pmm} {p count : Nat} (hwindow : s.Window count p) :
    Allocation.pages ⟨p * pageSize, count⟩ ⊆ s.freePages := by
  intro q hq
  have hdiv : p * pageSize / pageSize = p := Nat.mul_div_cancel p (by decide)
  rw [Allocation.mem_pages, hdiv] at hq
  exact hwindow.free q hq.1 hq.2

theorem Sound.receive {s : Pmm} {live : List Allocation} {count : Nat} {result : Option Nat × Pmm}
    (hsound : Sound es ⟨s, live⟩)
    (hresult : (∃ p, s.Window count p ∧ result = (some (p * pageSize), s.markRange p count)) ∨
      result = (none, s)) : Sound es (receive live count result) := by
  obtain ⟨p, hwindow, rfl⟩ | rfl := hresult
  · exact hsound.take (window_pages hwindow) freePages_markRange
  · exact hsound

theorem freePages_pmmFreePages {s : Pmm} {a : Allocation}
    (hmax : ∀ p ∈ a.pages, p < pmmMaxPages) :
    (s.pmmFreePages a.addr a.count).freePages = s.freePages ∪ a.pages := by
  ext q
  simp only [mem_freePages, pmmFreePages, bitmapTest_releaseRange, Set.mem_union]
  by_cases hq : q ∈ a.pages
  · rw [if_pos ⟨hq.1, hq.2, hmax q hq⟩]
    simp [hq]
  · rw [if_neg fun hmem => hq ⟨hmem.1, hmem.2.1⟩]
    simp [hq]

theorem pmmFreePage_eq (s : Pmm) (addr : Nat) : s.pmmFreePage addr = s.pmmFreePages addr 1 := rfl

theorem Sound.lt_max (hsound : Sound es h) {a : Allocation} (hlive : a ∈ h.live) :
    ∀ p ∈ a.pages, p < pmmMaxPages :=
  fun _ hp => (hsound.live_subset a hlive hp).2.1

theorem Sound.free (hsound : Sound es h) {a : Allocation} (hlive : a ∈ h.live) :
    Sound es ⟨h.pmm.pmmFreePages a.addr a.count, h.live.erase a⟩ :=
  hsound.give hlive (freePages_pmmFreePages (hsound.lt_max hlive))

theorem Sound.step (hsound : Sound es h) (hstep : Step h h') : Sound es h' := by
  obtain ⟨call, hmatch, rfl⟩ := hstep
  cases call with
  | allocPage => exact hsound.receive (pmmAllocPage_cases h.pmm)
  | allocPages count =>
      refine hsound.receive ?_
      obtain ⟨p, hwindow, -, heq⟩ | heq := pmmAllocPages_cases h.pmm count
      · exact Or.inl ⟨p, hwindow, heq⟩
      · exact Or.inr heq
  | freePage addr =>
      have hfree := hsound.free (a := ⟨addr, 1⟩) hmatch
      rwa [← pmmFreePage_eq] at hfree
  | freePages addr count => exact hsound.free (a := ⟨addr, count⟩) hmatch

theorem Sound.run (hsound : Sound es h) (hrun : Run h h') : Sound es h' := by
  induction hrun with
  | refl => exact hsound
  | tail _ hstep ih => exact ih.step hstep

theorem sound_pmmInit {mem : ByteMemory} {mmap entries : Nat} (haccept : Accepts mmap entries)
    (s : Pmm) : Sound (memoryMap mem mmap entries) ⟨pmmInit mem mmap entries s, []⟩ :=
  Ledger.initial fun _ hq => (bitmapTest_pmmInit haccept).mp hq

end Holding

/-- The frees that return the allocation `a`. -/
def Frees (a : Allocation) (call : Call) : Prop :=
  call = .freePages a.addr a.count ∨ a.count = 1 ∧ call = .freePage a.addr

/-- **Exclusive ownership.** From any accepted map, whatever the callers allocate and return: live
ranges are disjoint, every live page is marked used, lies between 2 MiB and 256 MiB and is covered by
a usable entry of the map, and returning a live range frees its pages and no other. -/
theorem live_pages_exclusive {mem : ByteMemory} {mmap entries : Nat}
    (haccept : Accepts mmap entries) (s : Pmm) {h : Holding}
    (hrun : Holding.Run ⟨pmmInit mem mmap entries s, []⟩ h) :
    (h.live.Pairwise fun a b => Disjoint a.pages b.pages) ∧
    (∀ a ∈ h.live, ∀ p ∈ a.pages, h.pmm.bitmapTest p = true ∧
      2 * 1024 * 1024 ≤ p * pageSize ∧ (p + 1) * pageSize ≤ 256 * 1024 * 1024 ∧
      ∃ e ∈ memoryMap mem mmap entries, e.Usable ∧ e.Covers p) ∧
    (∀ a ∈ h.live, ∀ call, Frees a call → ∀ q, (h.step call).pmm.bitmapTest q =
      if q ∈ a.pages then false else h.pmm.bitmapTest q) := by
  have hsound := (Holding.sound_pmmInit haccept s).run hrun
  refine ⟨hsound.pairwise, fun a ha p hp => ?_, fun a ha call hcall q => ?_⟩
  · obtain ⟨hfirst, hmax, husable⟩ := hsound.live_subset a ha hp
    have hused : h.pmm.bitmapTest p = true := by
      by_contra hfree
      have hmem := mem_freePages.mpr (Bool.eq_false_of_not_eq_true hfree)
      exact Set.disjoint_left.mp (hsound.live_disjoint_free a ha) hp hmem
    simp only [pmmFirstPage_eq, pmmMaxPages_eq, pageSize_eq] at *
    exact ⟨hused, by omega, by omega, husable⟩
  · have hpmm : (h.step call).pmm = h.pmm.pmmFreePages a.addr a.count := by
      obtain rfl | ⟨hone, rfl⟩ := hcall
      · rfl
      · rw [hone]
        rfl
    rw [hpmm, pmmFreePages, bitmapTest_releaseRange]
    refine if_congr ?_ rfl rfl
    rw [Allocation.mem_pages]
    exact ⟨fun hq => ⟨hq.1, hq.2.1⟩, fun hq => ⟨hq.1, hq.2, hsound.lt_max ha q hq⟩⟩

theorem live_pages_exclusive_oneRegion :
    ((Holding.mk (pmmInit (oneRegion 4096 0x200000 4) 4096 1 ⟨fun _ => 0, 0, 0⟩) []).step
        (.allocPages 2) |>.step .allocPage).live.Pairwise
      fun a b => Disjoint a.pages b.pages :=
  (live_pages_exclusive (by decide) ⟨fun _ => 0, 0, 0⟩
    ((Relation.ReflTransGen.single ⟨.allocPages 2, trivial, rfl⟩).tail
      ⟨.allocPage, trivial, rfl⟩)).1

end SimpleOs.Pmm
