import SimpleOs.Proof.PmmAccounting

/-!
# After a rejected memory map

`pmm_init` rejects a map by clearing the two counters, and the searches look at the bitmap alone. At
boot the bitmap is clear, so it says that every page is free: the first call that asks for pages gets
some, although there is no page to hand out and `pmm_get_free_pages` says so.
-/

namespace SimpleOs.Pmm

/-- The calls of the allocator, `pmm_init` among them. -/
inductive Request where
  | init (mem : ByteMemory) (mmap entries : Nat)
  | call (call : Call)

/-- No `pmm_init` that is accepted. -/
def Request.Rejected : Request → Prop
  | .init _ mmap entries => ¬ Accepts mmap entries
  | .call _ => True

/-- `pmm_alloc_page`, or `pmm_alloc_pages` with a count that it does not refuse. -/
def Request.Asks : Request → Prop
  | .call .allocPage => True
  | .call (.allocPages count) => 1 ≤ count ∧ count ≤ 256
  | _ => False

/-- What a request returns, `none` being `NULL` or no result, and what it leaves behind. -/
def serve (s : Pmm) : Request → Option Nat × Pmm
  | .init mem mmap entries => (none, pmmInit mem mmap entries s)
  | .call .allocPage => s.pmmAllocPage
  | .call (.allocPages count) => s.pmmAllocPages count
  | .call (.freePage addr) => (none, s.pmmFreePage addr)
  | .call (.freePages addr count) => (none, s.pmmFreePages addr count)

/-- Along the requests no allocation returns a page, and before and after each of them the number of
free pages is given as 0. -/
def HandsOutNothing (s : Pmm) : List Request → Prop
  | [] => s.pmmGetFreePages = 0
  | r :: rs => s.pmmGetFreePages = 0 ∧ (s.serve r).1 = none ∧ HandsOutNothing (s.serve r).2 rs

/-- The static variables as `_start` leaves them. -/
def zeroed : Pmm := ⟨fun _ => 0, 0, 0⟩

variable {page start count : Nat} {r : Request}

theorem bitmapTest_zeroed (hpage : page < pmmMaxPages) : zeroed.bitmapTest page = false := by
  rw [bitmapTest, if_pos hpage]
  exact BitVec.getLsbD_zero

theorem pmmInit_zeroed {mem : ByteMemory} {mmap entries : Nat} (h : ¬ Accepts mmap entries) :
    pmmInit mem mmap entries zeroed = zeroed := by
  rw [pmmInit, if_neg h]
  rfl

/-- Nothing is marked used, so there is nothing to free. -/
theorem releaseRange_zeroed : zeroed.releaseRange start count = zeroed := by
  induction count generalizing start with
  | zero => rfl
  | succ count ih =>
      rw [releaseRange]
      split
      · rename_i hstart
        rw [release, bitmapTest_zeroed hstart]
        exact ih
      · rfl

theorem serve_zeroed (hrejected : r.Rejected) (hasks : ¬ r.Asks) :
    zeroed.serve r = (none, zeroed) := by
  cases r with
  | init mem mmap entries => rw [serve, pmmInit_zeroed hrejected]
  | call call =>
      cases call with
      | allocPage => exact absurd trivial hasks
      | allocPages count =>
          apply pmmAllocPages_of_bad_count
          rw [Request.Asks] at hasks
          omega
      | freePage addr =>
          change (none, zeroed.pmmFreePages addr 1) = _
          rw [pmmFreePages, releaseRange_zeroed]
      | freePages addr count => rw [serve, pmmFreePages, releaseRange_zeroed]

theorem window_zeroed (hcount : count ≤ 256) : zeroed.Window count pmmFirstPage := by
  have hroom : pmmFirstPage + count ≤ pmmMaxPages := by
    rw [pmmFirstPage_eq, pmmMaxPages_eq]
    omega
  exact ⟨le_rfl, hroom, fun q _ hlt => bitmapTest_zeroed (by omega)⟩

theorem serve_zeroed_ne_none (hasks : r.Asks) : (zeroed.serve r).1 ≠ none := by
  have hfirst : ∀ {count : Nat} {result : Option Nat × Pmm}, count ≤ 256 →
      zeroed.FirstFit count result → result.1 ≠ none := by
    rintro count result hcount (⟨p, -, -, rfl⟩ | ⟨hnone, -⟩)
    · simp
    · exact absurd (window_zeroed hcount) (hnone _)
  cases r with
  | init mem mmap entries => exact hasks.elim
  | call call =>
      cases call with
      | allocPage => exact hfirst (by decide) (pmmAllocPage_firstFit zeroed)
      | allocPages count => exact hfirst hasks.2 (pmmAllocPages_firstFit zeroed hasks.1 hasks.2)
      | freePage addr => exact hasks.elim
      | freePages addr count => exact hasks.elim

/-- **A rejected map.** From the boot state, after `pmm_init` has rejected its arguments and along any
later calls among which no `pmm_init` is accepted: nothing is handed out, and the free count stays 0,
exactly when nothing is asked for. -/
theorem handsOutNothing_iff {mem : ByteMemory} {mmap entries : Nat} (hreject : ¬ Accepts mmap entries)
    (requests : List Request) (hrejected : ∀ r ∈ requests, r.Rejected) :
    (pmmInit mem mmap entries zeroed).HandsOutNothing requests ↔ ∀ r ∈ requests, ¬ r.Asks := by
  rw [pmmInit_zeroed hreject]
  induction requests with
  | nil => exact iff_of_true rfl (by simp)
  | cons r rs ih =>
      rw [List.forall_mem_cons] at hrejected ⊢
      rw [HandsOutNothing]
      by_cases hasks : r.Asks
      · exact iff_of_false (fun h => serve_zeroed_ne_none hasks h.2.1) fun h => h.1 hasks
      · rw [serve_zeroed hrejected.1 hasks, ih hrejected.2]
        exact ⟨fun h => ⟨hasks, h.2.2⟩, fun h => ⟨rfl, rfl, h.2⟩⟩

theorem handsOutNothing_freesOnly :
    (pmmInit ByteMemory.zero 0 1 zeroed).HandsOutNothing
      [.call (.freePages 0x200000 4), .init ByteMemory.zero 4096 257, .call (.allocPages 257)] :=
  (handsOutNothing_iff (by decide) _ (by simp [Request.Rejected, Accepts])).mpr
    (by simp [Request.Asks])

theorem not_handsOutNothing_nullMap : ¬ Accepts 0 1 ∧
    (pmmInit ByteMemory.zero 0 1 zeroed).pmmAllocPage.1 = some 0x200000 ∧
    ¬ (pmmInit ByteMemory.zero 0 1 zeroed).HandsOutNothing [.call .allocPage] := by
  have hpage : (pmmInit ByteMemory.zero 0 1 zeroed).pmmAllocPage.1 = some 0x200000 := by decide
  refine ⟨by decide, hpage, ?_⟩
  rintro ⟨-, hnone, -⟩
  cases hpage.symm.trans hnone

end SimpleOs.Pmm
