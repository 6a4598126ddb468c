import SimpleOs.Proof.PmmPages

/-!
# Both searches are first fit

`pmm_alloc_page` walks the bitmap page by page. `pmm_alloc_pages` tests a window and, at the first
used page in it, jumps past that page. Neither misses a window: the jump only passes over starts
whose window holds the used page.
-/

namespace SimpleOs.Pmm

structure Window (s : Pmm) (count p : Nat) : Prop where
  first_le : pmmFirstPage ≤ p
  le_max : p + count ≤ pmmMaxPages
  free : ∀ q, p ≤ q → q < p + count → s.bitmapTest q = false

/-- What a first-fit allocation of `count` pages returns and leaves behind. -/
def FirstFit (s : Pmm) (count : Nat) (result : Option Nat × Pmm) : Prop :=
  (∃ p, s.Window count p ∧ (∀ r, s.Window count r → p ≤ r) ∧
    result = (some (p * pageSize), s.markRange p count)) ∨
  (∀ p, ¬ s.Window count p) ∧ result = (none, s)

variable {s : Pmm} {count : Nat}

theorem allocPageFrom_firstFit (n page : Nat) (hfirst : pmmFirstPage ≤ page)
    (hend : page + n = pmmMaxPages) (hbelow : ∀ r, s.Window 1 r → page ≤ r) :
    s.FirstFit 1 (s.allocPageFrom page n) := by
  induction n generalizing page with
  | zero =>
      refine Or.inr ⟨fun p hp => ?_, rfl⟩
      have hle := hbelow p hp
      have hmax := hp.le_max
      omega
  | succ n ih =>
      rw [allocPageFrom]
      split
      · rename_i hused
        refine ih (page + 1) (by omega) (by omega) fun r hr => ?_
        have hle := hbelow r hr
        have hne : r ≠ page := by
          intro heq
          have hfree := hr.free r le_rfl (by omega)
          rw [heq, hused] at hfree
          exact absurd hfree (by decide)
        omega
      · rename_i hfree
        refine Or.inl ⟨page, ⟨hfirst, by omega, fun q hle hlt => ?_⟩, hbelow, rfl⟩
        have heq : q = page := by omega
        simpa [heq] using hfree

theorem pmmAllocPage_firstFit (s : Pmm) : s.FirstFit 1 s.pmmAllocPage :=
  allocPageFrom_firstFit _ _ le_rfl (by decide) fun _ hr => hr.first_le

theorem firstUsed_eq_none {start i n : Nat} (h : s.firstUsed start i n = none) :
    ∀ q, start + i ≤ q → q < start + i + n → s.bitmapTest q = false := by
  induction n generalizing i with
  | zero => intro q hle hlt; omega
  | succ n ih =>
      rw [firstUsed] at h
      split at h
      · exact absurd h (by simp)
      · rename_i hfree
        intro q hle hlt
        by_cases heq : q = start + i
        · simpa [heq] using hfree
        · exact ih h q (by omega) (by omega)

theorem firstUsed_eq_some {start i n j : Nat} (h : s.firstUsed start i n = some j) :
    i ≤ j ∧ j < i + n ∧ s.bitmapTest (start + j) = true := by
  induction n generalizing i with
  | zero => exact absurd h (by simp [firstUsed])
  | succ n ih =>
      rw [firstUsed] at h
      split at h
      · rename_i hused
        obtain rfl := Option.some.inj h
        exact ⟨le_rfl, by omega, hused⟩
      · obtain ⟨hle, hlt, hused⟩ := ih h
        exact ⟨by omega, by omega, hused⟩

theorem allocPagesFrom_firstFit (hcount : 0 < count) (fuel start : Nat)
    (hfuel : pmmMaxPages ≤ fuel + start) (hfirst : pmmFirstPage ≤ start)
    (hbelow : ∀ r, s.Window count r → start ≤ r) :
    s.FirstFit count (s.allocPagesFrom count fuel start) := by
  induction fuel generalizing start with
  | zero =>
      refine Or.inr ⟨fun p hp => ?_, rfl⟩
      have hle := hbelow p hp
      have hmax := hp.le_max
      omega
  | succ fuel ih =>
      rw [allocPagesFrom]
      split
      · rename_i hroom
        cases hscan : s.firstUsed start 0 count with
        | none =>
            refine Or.inl ⟨start, ⟨hfirst, hroom, fun q hle hlt => ?_⟩, hbelow, rfl⟩
            exact firstUsed_eq_none hscan q (by omega) (by omega)
        | some i =>
            obtain ⟨-, hi, hused⟩ := firstUsed_eq_some hscan
            refine ih (start + i + 1) (by omega) (by omega) fun r hr => ?_
            -- a window starting in the part jumped over would hold the used page
            by_contra hlt
            have hle := hbelow r hr
            have hfree := hr.free (start + i) (by omega) (by omega)
            rw [hused] at hfree
            exact absurd hfree (by decide)
      · rename_i hfull
        refine Or.inr ⟨fun p hp => ?_, rfl⟩
        have hle := hbelow p hp
        have hmax := hp.le_max
        omega

theorem pmmAllocPages_firstFit (s : Pmm) (hpos : 0 < count) (hle : count ≤ 256) :
    s.FirstFit count (s.pmmAllocPages count) := by
  rw [pmmAllocPages, if_neg (by omega)]
  exact allocPagesFrom_firstFit hpos _ _ (by omega) le_rfl fun r hr => hr.first_le

theorem pmmAllocPages_of_bad_count (h : count = 0 ∨ count > 256) :
    s.pmmAllocPages count = (none, s) := by
  rw [pmmAllocPages, if_pos h]

theorem pmmAllocPages_cases (s : Pmm) (count : Nat) :
    (∃ p, s.Window count p ∧ 0 < count ∧
      s.pmmAllocPages count = (some (p * pageSize), s.markRange p count)) ∨
    s.pmmAllocPages count = (none, s) := by
  by_cases hbad : count = 0 ∨ count > 256
  · exact Or.inr (pmmAllocPages_of_bad_count hbad)
  · obtain ⟨p, hwindow, -, heq⟩ | ⟨-, heq⟩ :=
      pmmAllocPages_firstFit s (Nat.pos_of_ne_zero fun h => hbad (Or.inl h))
        (not_lt.mp fun h => hbad (Or.inr h))
    · exact Or.inl ⟨p, hwindow, by omega, heq⟩
    · exact Or.inr heq

theorem pmmAllocPage_cases (s : Pmm) :
    (∃ p, s.Window 1 p ∧ s.pmmAllocPage = (some (p * pageSize), s.markRange p 1)) ∨
    s.pmmAllocPage = (none, s) := by
  obtain ⟨p, hwindow, -, heq⟩ | ⟨-, heq⟩ := pmmAllocPage_firstFit s
  · exact Or.inl ⟨p, hwindow, heq⟩
  · exact Or.inr heq

theorem FirstFit.unique {result result' : Option Nat × Pmm} (h : s.FirstFit count result)
    (h' : s.FirstFit count result') : result = result' := by
  obtain ⟨p, hwindow, hleast, rfl⟩ | ⟨hnone, rfl⟩ := h
  · obtain ⟨p', hwindow', hleast', rfl⟩ | ⟨hnone, -⟩ := h'
    · have heq : p = p' := le_antisymm (hleast p' hwindow') (hleast' p hwindow)
      rw [heq]
    · exact absurd hwindow (hnone p)
  · obtain ⟨p', hwindow', -, -⟩ | ⟨-, rfl⟩ := h'
    · exact absurd hwindow' (hnone p')
    · rfl

theorem totalPages_markRange {start : Nat} :
    (s.markRange start count).totalPages = s.totalPages := by
  induction count generalizing s start with
  | zero => rfl
  | succ count ih =>
      rw [markRange, ih, markUsed, bitmapSet]
      split
      · rfl
      · rfl

/-- **The search of `pmm_alloc_pages`.** For every bitmap it finds the lowest window that a page by page
search would find, sets the bits of its pages, and of these only, and counts them; it fails, changing
nothing, exactly when there is no window. For one page it is `pmm_alloc_page`. -/
theorem pmmAllocPages_least (s : Pmm) {count : Nat} (hpos : 1 ≤ count) (hle : count ≤ 256) :
    (∀ p, IsLeast { p | 512 ≤ p ∧ p + count ≤ 65536 ∧
        ∀ q, p ≤ q → q < p + count → s.bitmapTest q = false } p →
      (s.pmmAllocPages count).1 = some (p * 4096) ∧
      (∀ q, (s.pmmAllocPages count).2.bitmapTest q =
        (decide (p ≤ q ∧ q < p + count) || s.bitmapTest q)) ∧
      (s.pmmAllocPages count).2.usedPages = s.usedPages + BitVec.ofNat 64 count ∧
      (s.pmmAllocPages count).2.totalPages = s.totalPages) ∧
    (s.pmmAllocPages count = (none, s) ↔ ¬ ∃ p, 512 ≤ p ∧ p + count ≤ 65536 ∧
      ∀ q, p ≤ q → q < p + count → s.bitmapTest q = false) ∧
    s.pmmAllocPages 1 = s.pmmAllocPage := by
  have hwindows : ∀ p, (512 ≤ p ∧ p + count ≤ 65536 ∧
      ∀ q, p ≤ q → q < p + count → s.bitmapTest q = false) ↔ s.Window count p := fun p =>
    ⟨fun h => ⟨h.1, h.2.1, h.2.2⟩, fun h => ⟨h.first_le, h.le_max, h.free⟩⟩
  have hone : s.pmmAllocPages 1 = s.pmmAllocPage :=
    (pmmAllocPages_firstFit s Nat.one_pos (by decide)).unique (pmmAllocPage_firstFit s)
  simp only [hwindows]
  obtain ⟨p, hwindow, hleast, heq⟩ | ⟨hnone, heq⟩ := pmmAllocPages_firstFit s hpos hle
  · refine ⟨fun p' hp' => ?_, iff_of_false ?_ (not_not.mpr ⟨p, hwindow⟩), hone⟩
    · obtain rfl : p = p' := le_antisymm (hleast p' hp'.1) (hp'.2 hwindow)
      rw [heq]
      exact ⟨rfl, fun q => bitmapTest_markRange, usedPages_markRange, totalPages_markRange⟩
    · rw [heq]
      simp
  · exact ⟨fun p hp => absurd hp.1 (hnone p), iff_of_true heq (not_exists.mpr hnone), hone⟩

theorem pmmAllocPages_least_three : (allConventional.pmmAllocPages 3).1 = some (512 * 4096) := by
  refine ((pmmAllocPages_least allConventional (show 1 ≤ 3 by decide) (by decide)).1 512
    ⟨⟨le_rfl, by decide, fun q hle hlt => ?_⟩, fun p hp => hp.1⟩).1
  interval_cases q <;> rfl

end SimpleOs.Pmm
