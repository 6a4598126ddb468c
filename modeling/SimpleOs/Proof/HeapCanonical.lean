import SimpleOs.Proof.HeapIsolation

/-!
# The canonical form of the heap

No two free blocks are neighbours, so between two blocks in use there is at most one free block, and
its size is the room that is left. The blocks in use thus determine the whole list, however the heap
came to hold them.
-/

namespace SimpleOs

/-- The payload address and size of every block in use, for blocks laid out from `a` on. -/
def spans (a : Nat) : List Block → List (Nat × Nat)
  | [] => []
  | b :: bs => (if b.free then [] else [(a + 32, b.size)]) ++ spans (a + 32 + b.size) bs

variable {a p n size : Nat} {b c : Block} {bs bs' l₁ l₂ : List Block}

@[simp]
theorem spans_append (a : Nat) (l₁ l₂ : List Block) :
    spans a (l₁ ++ l₂) = spans a l₁ ++ spans (endOf a l₁) l₂ := by
  induction l₁ generalizing a with
  | nil => rfl
  | cons b l₁ ih => rw [List.cons_append, spans, spans, ih, endOf_cons, List.append_assoc]

theorem spans_of_free (hb : b.free = true) : spans a (b :: bs) = spans (a + 32 + b.size) bs := by
  rw [spans, hb]
  rfl

theorem spans_of_inUse (hb : b.free = false) :
    spans a (b :: bs) = (a + 32, b.size) :: spans (a + 32 + b.size) bs := by
  rw [spans, hb]
  rfl

theorem mem_spans : (p, n) ∈ spans a bs ↔
    ∃ l₁ b l₂, bs = l₁ ++ b :: l₂ ∧ b.free = false ∧ p = endOf a l₁ + 32 ∧ n = b.size := by
  constructor
  · intro hp
    induction bs generalizing a with
    | nil => exact absurd hp (by simp [spans])
    | cons b bs ih =>
        rw [spans, List.mem_append] at hp
        obtain hhead | htail := hp
        · cases hfree : b.free with
          | true => simp [hfree] at hhead
          | false =>
              simp only [hfree, Bool.false_eq_true, if_false, List.mem_singleton, Prod.mk.injEq]
                at hhead
              exact ⟨[], b, bs, rfl, hfree, hhead⟩
        · obtain ⟨l₁, c, l₂, rfl, hc⟩ := ih htail
          exact ⟨b :: l₁, c, l₂, rfl, hc⟩
  · rintro ⟨l₁, b, l₂, rfl, hfree, rfl, rfl⟩
    rw [spans_append, spans_of_inUse hfree]
    simp

theorem spans_bounds (hp : (p, n) ∈ spans a bs) : a + 32 ≤ p ∧ p + n ≤ endOf a bs := by
  obtain ⟨l₁, b, l₂, rfl, -, rfl, rfl⟩ := mem_spans.mp hp
  have hstart := le_endOf a l₁
  have hend := le_endOf (endOf a l₁ + 32 + b.size) l₂
  rw [endOf_append, endOf_cons]
  omega

theorem pairwise_spans (a : Nat) (bs : List Block) : (spans a bs).Pairwise fun x y => x.1 < y.1 := by
  induction bs generalizing a with
  | nil => exact List.Pairwise.nil
  | cons b bs ih =>
      cases hb : b.free with
      | true =>
          rw [spans_of_free hb]
          exact ih _
      | false =>
          rw [spans_of_inUse hb, List.pairwise_cons]
          refine ⟨fun y hy => ?_, ih _⟩
          have hbounds := spans_bounds (p := y.1) (n := y.2) hy
          simp only
          omega

theorem spans_joinFree (a : Nat) (b : Block) (bs : List Block) :
    spans a (joinFree b bs) = spans a (b :: bs) := by
  obtain ⟨c, tl, rfl, hb, hc, hjoin⟩ | ⟨-, hjoin⟩ := joinFree_cases b bs
  · rw [hjoin, spans_of_free rfl, spans_of_free hb, spans_of_free hc]
    congr 1
    simp only
    omega
  · rw [hjoin]

theorem spans_coalesce (a : Nat) (bs : List Block) : spans a (coalesce bs) = spans a bs := by
  induction bs generalizing a with
  | nil => rfl
  | cons b bs ih => rw [coalesce_cons, spans_joinFree, spans, spans, ih]

/-- What follows a free block starts with a block in use or not at all. -/
theorem spans_after_free (h : Separated (b :: bs)) (hb : b.free = true) :
    bs = [] ∨ ∃ n rest, spans a bs = (a + 32, n) :: rest := by
  cases bs with
  | nil => exact Or.inl rfl
  | cons d bs =>
      have hd : d.free = false := by
        have hapart := (separated_cons.mp h).1 d (by simp)
        simpa [hb] using hapart
      exact Or.inr ⟨d.size, _, spans_of_inUse hd⟩

/-- Separated lists over the same range with the same blocks in use are the same. -/
theorem eq_of_spans (h : Separated bs) (h' : Separated bs') (hend : endOf a bs = endOf a bs')
    (hspans : spans a bs = spans a bs') : bs = bs' := by
  induction bs generalizing a bs' with
  | nil =>
      cases bs' with
      | nil => rfl
      | cons c tl' =>
          have hle := le_endOf (a + 32 + c.size) tl'
          rw [endOf_nil, endOf_cons] at hend
          omega
  | cons b tl ih =>
      cases bs' with
      | nil =>
          have hle := le_endOf (a + 32 + b.size) tl
          rw [endOf_nil, endOf_cons] at hend
          omega
      | cons c tl' =>
          rw [endOf_cons, endOf_cons] at hend
          -- it is enough that the first blocks are the same
          suffices hbc : b = c by
            subst hbc
            have htails : spans (a + 32 + b.size) tl = spans (a + 32 + b.size) tl' := by
              rw [spans, spans] at hspans
              exact List.append_cancel_left hspans
            rw [ih (separated_cons.mp h).2 (separated_cons.mp h').2 hend htails]
          cases hb : b.free with
          | true =>
              cases hc : c.free with
              | true =>
                  rw [spans_of_free hb, spans_of_free hc] at hspans
                  have hsize : b.size = c.size := by
                    obtain rfl | ⟨n, rest, htl⟩ := spans_after_free (a := a + 32 + b.size) h hb
                    · obtain rfl | ⟨n', rest', htl'⟩ := spans_after_free (a := a + 32 + c.size) h' hc
                      · rw [endOf_nil, endOf_nil] at hend
                        omega
                      · rw [htl'] at hspans
                        cases hspans
                    · obtain rfl | ⟨n', rest', htl'⟩ := spans_after_free (a := a + 32 + c.size) h' hc
                      · rw [htl] at hspans
                        cases hspans
                      · rw [htl, htl', List.cons.injEq, Prod.mk.injEq] at hspans
                        omega
                  obtain ⟨bsize, bfree⟩ := b
                  obtain ⟨csize, cfree⟩ := c
                  simp only at hsize hb hc
                  rw [hsize, hb, hc]
              | false =>
                  rw [spans_of_free hb, spans_of_inUse hc] at hspans
                  have hmem : (a + 32, c.size) ∈ spans (a + 32 + b.size) tl := by simp [hspans]
                  have hbounds := spans_bounds hmem
                  omega
          | false =>
              cases hc : c.free with
              | true =>
                  rw [spans_of_inUse hb, spans_of_free hc] at hspans
                  have hmem : (a + 32, b.size) ∈ spans (a + 32 + c.size) tl' := by simp [← hspans]
                  have hbounds := spans_bounds hmem
                  omega
              | false =>
                  rw [spans_of_inUse hb, spans_of_inUse hc, List.cons.injEq, Prod.mk.injEq] at hspans
                  obtain ⟨bsize, bfree⟩ := b
                  obtain ⟨csize, cfree⟩ := c
                  simp only at hspans hb hc
                  rw [hspans.1.2, hb, hc]

theorem filter_spans (hp : p < a + 32 ∨ endOf a bs < p) :
    (spans a bs).filter (fun x => x.1 ≠ p) = spans a bs := by
  refine List.filter_eq_self.mpr fun x hx => ?_
  have hbounds := spans_bounds (p := x.1) (n := x.2) hx
  rw [decide_eq_true_iff]
  omega

/-- Freeing a block takes its span out and keeps the others in their order. -/
theorem spans_freed (hb : b.free = false) : spans a (coalesce (l₁ ++ ⟨b.size, true⟩ :: l₂)) =
    (spans a (l₁ ++ b :: l₂)).filter fun x => x.1 ≠ endOf a l₁ + 32 := by
  rw [spans_coalesce, spans_append, spans_append, spans_of_free rfl, spans_of_inUse hb,
    List.filter_append, List.filter_cons_of_neg (by simp), filter_spans (by omega),
    filter_spans (by omega)]

namespace Heap

/-- The blocks met along the next links from `current` on, with their addresses; `none` if there is no
end to them. -/
def blockListFrom (m : ByteMemory) : Nat → Nat → Option (List (Nat × Block))
  | 0, _ => none
  | fuel + 1, current =>
      if current = 0 then some []
      else
        (blockListFrom m fuel (getField m current .next)).map
          ((current, ⟨getField m current .size, getField m current .free ≠ 0⟩) :: ·)

def blockList (h : Heap) : Option (List (Nat × Block)) := blockListFrom h.mem (2 ^ 64) h.heapStart

variable {h h' : Heap} {m : ByteMemory} {prev fuel : Nat} {ps qs : List Nat} {s s' : Session}

theorem blockListFrom_chain (hchain : Chain m prev a bs 0) (ha : 0 < a) (hfuel : bs.length < fuel) :
    blockListFrom m fuel (if bs = [] then 0 else a) = some ((headers a bs).zip bs) := by
  induction bs generalizing prev a fuel with
  | nil =>
      obtain ⟨fuel, rfl⟩ := Nat.exists_eq_add_of_lt hfuel
      simp [blockListFrom, headers]
  | cons b bs ih =>
      obtain ⟨fuel, rfl⟩ : ∃ k, fuel = k + 1 := ⟨fuel - 1, by omega⟩
      obtain ⟨hheader, htail⟩ := hchain
      rw [List.length_cons] at hfuel
      have hblock : (⟨getField m a .size, getField m a .free ≠ 0⟩ : Block) = b := by
        rw [hheader.size]
        obtain ⟨bsize, bfree⟩ := b
        simp only [Block.mk.injEq, true_and]
        exact Bool.eq_iff_iff.mpr (decide_eq_true_iff.trans hheader.free)
      rw [if_neg (by simp), blockListFrom, if_neg (by omega), hblock, hheader.next,
        ih htail (by omega) (by omega), Option.map_some]
      rfl

theorem Laid.blockList_eq (hlaid : Laid h bs) :
    h.blockList = some ((headers h.heapStart bs).zip bs) := by
  have hlength := length_le_endOf h.heapStart bs
  have hend := hlaid.endOf_le
  have hstart := hlaid.start
  have hlist := blockListFrom_chain hlaid.chain hlaid.start (by omega : bs.length < 2 ^ 64)
  rwa [if_neg hlaid.nonempty] at hlist

/-- Two heaps over the same range agree on block list and counter. -/
def SameBlocks (h h' : Heap) : Prop :=
  h.blockList = h'.blockList ∧ h.heapUsedSize = h'.heapUsedSize

structure SameRange (h h' : Heap) : Prop where
  start : h'.heapStart = h.heapStart
  total : h'.heapTotalSize = h.heapTotalSize

theorem SameRange.trans {h'' : Heap} (h₁ : SameRange h h') (h₂ : SameRange h' h'') :
    SameRange h h'' :=
  ⟨h₂.start.trans h₁.start, h₂.total.trans h₁.total⟩

theorem sameBlocks_of_spans (hrep : Represents h bs) (hrep' : Represents h' bs')
    (hrange : SameRange h h') (hspans : spans h.heapStart bs = spans h.heapStart bs') :
    SameBlocks h h' := by
  have hend : endOf h.heapStart bs = endOf h.heapStart bs' := by
    rw [hrep.tiles, ← hrange.start, hrep'.tiles, hrange.start, hrange.total]
  obtain rfl := eq_of_spans hrep.separated hrep'.separated hend hspans
  refine ⟨?_, hrep.used.trans hrep'.used.symm⟩
  rw [hrep.toLaid.blockList_eq, hrep'.toLaid.blockList_eq, hrange.start]

theorem sameRange_kfree (h : Heap) (ptr : Nat) : SameRange h (h.kfree ptr) :=
  ⟨heapStart_kfree h ptr, heapTotalSize_kfree h ptr⟩

theorem sameRange_kmalloc (hrun : h.kmalloc n = some (p, h')) : SameRange h h' := by
  unfold kmalloc at hrun
  split at hrun
  · obtain ⟨-, rfl⟩ := Prod.mk.inj (Option.some_inj.mp hrun)
    exact ⟨rfl, rfl⟩
  · obtain ⟨block, -, hblock⟩ := Option.map_eq_some_iff.mp hrun
    split at hblock
    · obtain ⟨-, rfl⟩ := Prod.mk.inj hblock
      exact ⟨rfl, rfl⟩
    · obtain ⟨-, rfl⟩ := Prod.mk.inj hblock
      exact ⟨rfl, rfl⟩

theorem mem_payloads_iff_spans : p ∈ payloads a bs ↔ ∃ n, (p, n) ∈ spans a bs := by
  rw [mem_payloads]
  constructor
  · rintro ⟨l₁, b, l₂, hbs, hb, hp⟩
    exact ⟨b.size, mem_spans.mpr ⟨l₁, b, l₂, hbs, hb, hp, rfl⟩⟩
  · rintro ⟨n, hmem⟩
    obtain ⟨l₁, b, l₂, hbs, hb, hp, -⟩ := mem_spans.mp hmem
    exact ⟨l₁, b, l₂, hbs, hb, hp⟩

theorem represents_kfrees (hrep : Represents h bs) (hnodup : ps.Nodup)
    (hps : ∀ p ∈ ps, p ∈ payloads h.heapStart bs) :
    ∃ bs', Represents (ps.foldl kfree h) bs' ∧ SameRange h (ps.foldl kfree h) ∧
      spans h.heapStart bs' = (spans h.heapStart bs).filter fun x => x.1 ∉ ps := by
  induction ps generalizing h bs with
  | nil => exact ⟨bs, hrep, ⟨rfl, rfl⟩, by simp⟩
  | cons p ps ih =>
      obtain ⟨hnew, hnodup⟩ := List.nodup_cons.mp hnodup
      obtain ⟨l₁, b, l₂, rfl, hb, hp⟩ := mem_payloads.mp (hps p (by simp))
      have hfreed := represents_kfree hrep hb
      have hspans : spans h.heapStart (coalesce (l₁ ++ ⟨b.size, true⟩ :: l₂)) =
          (spans h.heapStart (l₁ ++ b :: l₂)).filter fun x => x.1 ≠ endOf h.heapStart l₁ + 32 :=
        spans_freed hb
      rw [← hp] at hfreed hspans
      have hrange := sameRange_kfree h p
      obtain ⟨bs', hrep', hrange', hspans'⟩ := ih hfreed hnodup (by
        intro q hq
        have hne : q ≠ p := by
          rintro rfl
          exact hnew hq
        rw [hrange.start, mem_payloads_iff_spans, hspans]
        obtain ⟨n, hmem⟩ := mem_payloads_iff_spans.mp (hps q (by simp [hq]))
        exact ⟨n, List.mem_filter.mpr ⟨hmem, by simpa using hne⟩⟩)
      refine ⟨bs', hrep', hrange.trans hrange', ?_⟩
      rw [hrange.start] at hspans'
      rw [hspans', hspans, List.filter_filter]
      congr 1
      funext x
      rw [← Bool.decide_and]
      simp only [List.mem_cons, not_or, and_comm, ne_eq]

/-- An allocation that is returned at once leaves no trace. -/
theorem sameBlocks_kmalloc_kfree (hrep : Represents h bs) (hsafe : n = 0 ∨ h.Unwrapped n)
    (hrun : h.kmalloc n = some (p, h')) (hp : p ≠ 0) : SameBlocks h (h'.kfree p) := by
  obtain ⟨-, hnull⟩ | ⟨p', h'', l₁, b, l₂, hrun', hcarves⟩ := kmalloc_cases hrep hsafe
  · rw [hnull] at hrun
    exact absurd (Prod.mk.inj (Option.some_inj.mp hrun)).1.symm hp
  · obtain ⟨rfl, rfl⟩ := Prod.mk.inj (Option.some_inj.mp (hrun.symm.trans hrun'))
    obtain ⟨size', rest, hcarve⟩ : ∃ size' rest,
        carve (alignSize n) b = ⟨size', false⟩ :: rest := by
      obtain ⟨-, hcarve⟩ | ⟨-, hcarve⟩ := carve_cases (alignSize n) b
      · exact ⟨_, _, hcarve⟩
      · exact ⟨_, _, hcarve⟩
    have hspansCarve : spans (endOf h.heapStart l₁) (carve (alignSize n) b) =
        [(endOf h.heapStart l₁ + 32, size')] := by
      obtain ⟨-, hcases⟩ | ⟨-, hcases⟩ := carve_cases (alignSize n) b
      all_goals
        rw [hcases] at hcarve ⊢
        obtain ⟨hblock, -⟩ := List.cons.inj hcarve
        rw [← (Block.mk.inj hblock).1]
        rfl
    have hafter := hcarves.after
    rw [hcarve, List.cons_append] at hafter
    have hfreed := represents_kfree hafter rfl
    rw [hcarves.start, ← hcarves.ptr] at hfreed
    refine sameBlocks_of_spans hrep hfreed
      ((sameRange_kmalloc hrun).trans (sameRange_kfree h' p)) ?_
    have hend := endOf_carve (alignSize n) (endOf h.heapStart l₁) b
    rw [spans_freed rfl, ← List.cons_append, ← hcarve, hcarves.blocks, spans_append, spans_append,
      spans_append, spans_of_free hcarves.fits.1, hspansCarve, hend, List.filter_append,
      List.filter_append]
    rw [filter_spans (by omega), filter_spans (by omega)]
    simp

theorem live_iff_spans (hrep : Represents s.heap bs)
    (hlive : s.live.Perm (payloads s.heap.heapStart bs)) :
    (p ∈ s.live ∧ s.heap.kmallocSize p = n) ↔ (p, n) ∈ spans s.heap.heapStart bs := by
  rw [mem_spans]
  constructor
  · rintro ⟨hp, rfl⟩
    obtain ⟨l₁, b, l₂, rfl, hb, rfl⟩ := Session.block_of_live hlive hp
    exact ⟨l₁, b, l₂, rfl, hb, rfl, kmallocSize_eq hrep.toLaid⟩
  · rintro ⟨l₁, b, l₂, rfl, hb, rfl, rfl⟩
    exact ⟨hlive.mem_iff.mpr (mem_payloads.mpr ⟨l₁, b, l₂, rfl, hb, rfl⟩),
      kmallocSize_eq hrep.toLaid⟩

theorem Session.sameRange_run {ok : Session → Call → Prop} (hrun : Session.Run ok s s') :
    SameRange s.heap s'.heap := by
  induction hrun with
  | refl => exact ⟨rfl, rfl⟩
  | tail _ hstep ih =>
      obtain ⟨call, -, -, hcall⟩ := hstep
      refine ih.trans ?_
      cases call with
      | kmalloc n =>
          obtain ⟨⟨p, h'⟩, hmalloc, rfl⟩ := Option.map_eq_some_iff.mp hcall
          exact sameRange_kmalloc hmalloc
      | kfree ptr =>
          obtain rfl := Option.some_inj.mp hcall
          exact sameRange_kfree _ ptr
      | store ptr i v =>
          obtain rfl := Option.some_inj.mp hcall
          exact ⟨rfl, rfl⟩

/-- The same live pointers with the same sizes. -/
def SameLive (s s' : Session) : Prop :=
  ∀ p n, (p ∈ s.live ∧ s.heap.kmallocSize p = n) ↔ (p ∈ s'.live ∧ s'.heap.kmallocSize p = n)

theorem Session.Sound.sameBlocks (hsound : s.Sound) (hsound' : s'.Sound)
    (hrange : SameRange s.heap s'.heap) (hlive : SameLive s s') : SameBlocks s.heap s'.heap := by
  obtain ⟨bs, hrep, hperm⟩ := hsound
  obtain ⟨bs', hrep', hperm'⟩ := hsound'
  apply sameBlocks_of_spans hrep hrep' hrange
  have hmem : ∀ x, x ∈ spans s.heap.heapStart bs ↔ x ∈ spans s.heap.heapStart bs' := by
    rintro ⟨p, n⟩
    have hright := live_iff_spans (p := p) (n := n) hrep' hperm'
    rw [hrange.start] at hright
    rw [← live_iff_spans hrep hperm, ← hright]
    exact hlive p n
  have hnodup : ∀ bs, (spans s.heap.heapStart bs).Nodup := fun bs =>
    (pairwise_spans _ bs).imp fun {x y} hlt heq => absurd hlt (by rw [heq]; exact lt_irrefl _)
  refine List.Perm.eq_of_pairwise (fun x y _ _ hxy hyx => ?_) (pairwise_spans _ bs)
    (pairwise_spans _ bs') ((List.perm_ext_iff_of_nodup (hnodup bs) (hnodup bs')).mpr hmem)
  exact absurd hxy (not_lt.mpr hyx.le)

theorem Session.Sound.sameBlocks_kfrees (hsound : s.Sound) (hnodup : ps.Nodup) (hps : ps ⊆ s.live)
    (hperm : ps.Perm qs) : SameBlocks (ps.foldl kfree s.heap) (qs.foldl kfree s.heap) := by
  obtain ⟨bs, hrep, hlive⟩ := hsound
  obtain ⟨bs₁, hrep₁, hrange₁, hspans₁⟩ := represents_kfrees hrep hnodup
    fun p hp => hlive.mem_iff.mp (hps hp)
  obtain ⟨bs₂, hrep₂, hrange₂, hspans₂⟩ := represents_kfrees hrep (hperm.nodup_iff.mp hnodup)
    fun p hp => hlive.mem_iff.mp (hps (hperm.mem_iff.mpr hp))
  refine sameBlocks_of_spans hrep₁ hrep₂ ⟨?_, ?_⟩ ?_
  · rw [hrange₁.start, hrange₂.start]
  · rw [hrange₁.total, hrange₂.total]
  · rw [hrange₁.start, hspans₁, hspans₂]
    simp only [hperm.mem_iff]

theorem Session.Sound.sameBlocks_kfree_all (hsound : s.Sound) {b : Block} (hb : b.free = true)
    (hinit : Represents h [b]) (hrange : SameRange h s.heap) (hps : ps.Perm s.live) :
    SameBlocks h (ps.foldl kfree s.heap) := by
  have hnodup := hps.nodup_iff.mpr hsound.nodup
  obtain ⟨bs, hrep, hlive⟩ := hsound
  obtain ⟨bs', hrep', hrange', hspans'⟩ := represents_kfrees hrep hnodup
    fun p hp => hlive.mem_iff.mp (hps.mem_iff.mp hp)
  refine sameBlocks_of_spans hinit hrep' (hrange.trans hrange') ?_
  rw [← hrange.start, hspans', spans_of_free hb, spans, eq_comm, List.filter_eq_nil_iff]
  intro x hx
  have hmem : x.1 ∈ ps :=
    hps.mem_iff.mpr (hlive.mem_iff.mpr (mem_payloads_iff_spans.mpr ⟨x.2, hx⟩))
  simpa using hmem

/-- **Canonical form.** From one accepted `heap_init`, for histories whose allocations keep the bound of
`split_block` below the word size or find no block: the live pointers and their sizes determine the
block list and `heap_used_size`; so the order in which live pointers are freed does not matter, an
allocation freed at once leaves no trace, and freeing everything restores the one free block there was
at first. -/
theorem sameBlocks_of_run (h : Heap) (start size : Nat) (hacc : Accepts start size) {s : Session}
    (hrun : Session.Run Session.Bounded ⟨h.heapInit start size, []⟩ s) :
    s.heap.blockList.isSome ∧
    (∀ s', Session.Run Session.Bounded ⟨h.heapInit start size, []⟩ s' → SameLive s s' →
      SameBlocks s.heap s'.heap) ∧
    (∀ ps qs : List Nat, ps.Nodup → ps ⊆ s.live → ps.Perm qs →
      SameBlocks (ps.foldl kfree s.heap) (qs.foldl kfree s.heap)) ∧
    (∀ n p h', s.Bounded (.kmalloc n) → s.heap.kmalloc n = some (p, h') → p ≠ 0 →
      SameBlocks s.heap (h'.kfree p)) ∧
    (∀ ps : List Nat, ps.Perm s.live → SameBlocks (h.heapInit start size) (ps.foldl kfree s.heap)) ∧
    (h.heapInit start size).blockList =
      some [((h.heapInit start size).heapStart, ⟨(h.heapInit start size).heapTotalSize - 32, true⟩)] ∧
    (h.heapInit start size).heapUsedSize = 0 := by
  have hfirst := Session.sound_heapInit h hacc
  have hsound := hfirst.run hrun
  have hrange := Session.sameRange_run hrun
  obtain ⟨b, hb, hinit⟩ := represents_heapInit h hacc
  obtain ⟨bs, hrep, hlive⟩ := id hsound
  refine ⟨by rw [hrep.toLaid.blockList_eq]; rfl, fun s' hrun' hsame => ?_,
    fun ps qs hnodup hps hperm => hsound.sameBlocks_kfrees hnodup hps hperm,
    fun n p h' hok hmalloc hp => sameBlocks_kmalloc_kfree hrep hok hmalloc hp,
    fun ps hps => hsound.sameBlocks_kfree_all hb hinit hrange hps, ?_, ?_⟩
  · have hrange' := Session.sameRange_run hrun'
    refine hsound.sameBlocks (hfirst.run hrun') ⟨?_, ?_⟩ hsame
    · rw [hrange'.start, hrange.start]
    · rw [hrange'.total, hrange.total]
  · have htiles := hinit.tiles
    rw [endOf_cons, endOf_nil] at htiles
    have hsize : b.size = (h.heapInit start size).heapTotalSize - 32 := by omega
    obtain ⟨bsize, bfree⟩ := b
    simp only at hb hsize
    rw [hinit.toLaid.blockList_eq, hb, hsize]
    rfl
  · rw [hinit.used, usedBytes, hb]
    rfl

theorem sameBlocks_holeSession :
    SameBlocks ([0x400028, 0x400198].foldl kfree holeSession.heap)
        ([0x400198, 0x400028].foldl kfree holeSession.heap) ∧
      SameBlocks (blank.heapInit 0x400001 0x1000) (holeSession.live.foldl kfree holeSession.heap) := by
  obtain ⟨-, -, horder, -, hall, -⟩ :=
    sameBlocks_of_run blank 0x400001 0x1000 ⟨by decide, by decide, by decide⟩ run_holeSession
  exact ⟨horder [0x400028, 0x400198] [0x400198, 0x400028] (by decide) (by decide +kernel)
    (List.Perm.swap _ _ _), hall holeSession.live (List.Perm.refl _)⟩

/-- The block cut off by a wrapped bound is not merged back: what was one block is two after the
allocation has been freed. -/
theorem not_sameBlocks_wrappedSession : Accepts 8 (2 ^ 64 - 16) ∧
    Session.step ⟨blank.heapInit 8 (2 ^ 64 - 16), []⟩ (.kmalloc (2 ^ 64 - 48)) =
      some wrappedSession ∧
    wrappedSession.live = [40] ∧
    ¬ SameBlocks (blank.heapInit 8 (2 ^ 64 - 16)) (wrappedSession.heap.kfree 40) := by
  refine ⟨⟨by decide, by decide, by decide⟩, (Option.some_get _).symm, by decide +kernel,
    fun hsame => ?_⟩
  have hone : (blank.heapInit 8 (2 ^ 64 - 16)).blockList.map List.length = some 1 := by
    decide +kernel
  have htwo : (wrappedSession.heap.kfree 40).blockList.map List.length = some 2 := by
    decide +kernel
  rw [← hsame.1, hone] at htwo
  cases htwo

end Heap

end SimpleOs
