import SimpleOs.Proof.HeapRealloc

/-!
# Isolation of allocations

Headers are stored between the payloads, so every link or size update is a write into the range that
is handed out. What `kmalloc` writes lies in headers and in the free block it takes, and what `kfree`
writes lies in headers, so the payload of a live allocation is left alone by both.
-/

namespace SimpleOs.Heap

/-- The byte at `y` is not one of the header at `x`. -/
def ClearOf (y x : Nat) : Prop := x + 32 ≤ 2 ^ 64 ∧ (y < x ∨ x + 32 ≤ y)

/-- The byte at `y` is not in the size or a link of the header at `x`; it may be in its flag. -/
def OffLinks (y x : Nat) : Prop :=
  x + 32 ≤ 2 ^ 64 ∧ (y < x ∨ x + 8 ≤ y ∧ y < x + 16 ∨ x + 32 ≤ y)

theorem ClearOf.offLinks {x y : Nat} (h : ClearOf y x) : OffLinks y x :=
  ⟨h.1, h.2.imp_right Or.inr⟩

variable {h h' : Heap} {m : ByteMemory} {a s x y v nx prev size n p : Nat} {b c d : Block}
  {bs l₁ l₂ l₃ l₄ : List Block} {f : Field}

theorem setField_apply (hy : ClearOf y x) : setField m x f v y = m y := by
  obtain ⟨hroom, hclear⟩ := hy
  have hf := f.offset_add_width_le
  apply ByteMemory.write_apply_of_outside
  intro i hi
  rw [Nat.mod_eq_of_lt (by omega)]
  omega

theorem setField_apply_offLinks (hf : f ≠ .free) (hy : OffLinks y x) : setField m x f v y = m y := by
  obtain ⟨hroom, hoff⟩ := hy
  apply ByteMemory.write_apply_of_outside
  intro i hi
  cases f with
  | free => exact absurd rfl hf
  | size | next | prev =>
      simp only [Field.offset, Field.width] at hi ⊢
      rw [Nat.mod_eq_of_lt (by omega)]
      omega

theorem relinkPrev_apply (hy : nx = 0 ∨ OffLinks y nx) : relinkPrev m nx v y = m y := by
  unfold relinkPrev
  split
  · rename_i hnx
    exact setField_apply_offLinks (by decide) (hy.resolve_left hnx)
  · rfl

theorem absorb_apply (ha : OffLinks y a) (hy : nx = 0 ∨ OffLinks y nx) :
    absorb m a size nx y = m y := by
  rw [absorb, relinkPrev_apply hy, setField_apply_offLinks (by decide) ha,
    setField_apply_offLinks (by decide) ha]

theorem splitBlock_apply (hfit : size + 48 ≤ getField m a .size)
    (hend : a + 32 + getField m a .size ≤ 2 ^ 64) (ha : ClearOf y a)
    (hnew : ClearOf y (a + 32 + size))
    (hnext : getField m a .next = 0 ∨ ClearOf y (getField m a .next)) :
    splitBlock m a size y = m y := by
  rw [splitBlock_eq hfit hend, setField_apply ha, setField_apply ha,
    relinkPrev_apply (hnext.imp_right ClearOf.offLinks)]
  simp only [setField_apply hnew]

theorem endOf_mem_headers (a : Nat) (l₁ : List Block) (b : Block) (l₂ : List Block) :
    endOf a l₁ ∈ headers a (l₁ ++ b :: l₂) := by
  rw [headers_append, headers]
  simp

theorem headers_joinFree (hx : x ∈ headers a (joinFree b bs)) : x ∈ headers a (b :: bs) := by
  obtain ⟨c, tl, rfl, -, -, hjoin⟩ | ⟨-, hjoin⟩ := joinFree_cases b bs
  · rw [hjoin, headers, List.mem_cons] at hx
    simp only [headers, List.mem_cons]
    obtain rfl | hx := hx
    · exact Or.inl rfl
    · refine Or.inr (Or.inr ?_)
      rwa [show a + 32 + (b.size + 32 + c.size) = a + 32 + b.size + 32 + c.size by omega] at hx
  · rwa [hjoin] at hx

/-- Different blocks of one list do not overlap. -/
theorem blocks_apart (heq : l₁ ++ b :: l₂ = l₃ ++ c :: l₄) (hne : endOf a l₁ ≠ endOf a l₃) :
    endOf a l₁ + 32 + b.size ≤ endOf a l₃ ∨ endOf a l₃ + 32 + c.size ≤ endOf a l₁ := by
  have hfirst := header_position (heq ▸ endOf_mem_headers a l₃ c l₄ :
    endOf a l₃ ∈ headers a (l₁ ++ b :: l₂))
  have hsecond := header_position (heq ▸ endOf_mem_headers a l₁ b l₂ :
    endOf a l₁ ∈ headers a (l₃ ++ c :: l₄))
  omega

/-- A block is told from another by its place. -/
theorem eq_of_endOf_eq (heq : l₁ ++ b :: l₂ = l₃ ++ c :: l₄) (hend : endOf a l₁ = endOf a l₃) :
    b = c := by
  obtain ⟨l, rfl, hl⟩ | ⟨l, rfl, hl⟩ := List.append_eq_append_iff.mp heq
  · cases l with
    | nil => exact (List.cons.inj hl).1
    | cons d l =>
        have hle := le_endOf (endOf a l₁ + 32 + d.size) l
        rw [endOf_append, endOf_cons] at hend
        omega
  · cases l with
    | nil => exact (List.cons.inj hl).1.symm
    | cons d l =>
        have hle := le_endOf (endOf a l₃ + 32 + d.size) l
        rw [endOf_append, endOf_cons] at hend
        omega

theorem Laid.clearOf_headers (hlaid : Laid h (l₁ ++ b :: l₂)) (hlow : endOf h.heapStart l₁ + 32 ≤ y)
    (hhigh : y < endOf h.heapStart l₁ + 32 + b.size) :
    ∀ x ∈ headers h.heapStart (l₁ ++ b :: l₂), ClearOf y x := by
  intro x hx
  have hend := hlaid.endOf_le
  have hbounds := mem_headers_bounds hx
  have hposition := header_position hx
  exact ⟨by omega, by omega⟩

/-- The part of a block that a split leaves to it. -/
theorem splitBlock_front (hrep : Represents h (l₁ ++ b :: l₂)) (hbound : size + 48 < 2 ^ 64)
    (hlow : endOf h.heapStart l₁ + 32 ≤ y)
    (hhigh : y < endOf h.heapStart l₁ + 32 + size) :
    splitBlock h.mem (endOf h.heapStart l₁) size y = h.mem y := by
  have hheader := hrep.header
  have hroom := hrep.payload_lt
  have hend := hrep.endOf_le
  rw [endOf_append, endOf_cons] at hend
  obtain ⟨hsplit, -⟩ | ⟨hsmall, -⟩ := carve_cases size b
  · apply splitBlock_apply
    · rw [hheader.size]
      exact hsplit
    · rw [hheader.size]
      exact hroom.2.2
    · exact ⟨by omega, by omega⟩
    · exact ⟨by omega, by omega⟩
    · rw [hheader.next]
      exact (nextPast_of_end hend).imp_right fun hpast => ⟨by omega, by omega⟩
  · rw [splitBlock, if_pos]
    rw [hheader.size, minBlockSize_eq, wadd_of_lt hbound]
    exact hsmall

theorem splitBlock_frame (hrep : Represents h (l₁ ++ b :: l₂)) (hbound : size + 48 < 2 ^ 64)
    (heq : l₁ ++ b :: l₂ = l₃ ++ c :: l₄) (hne : endOf h.heapStart l₁ ≠ endOf h.heapStart l₃)
    (hlow : endOf h.heapStart l₃ + 32 ≤ y)
    (hhigh : y < endOf h.heapStart l₃ + 32 + c.size) :
    splitBlock h.mem (endOf h.heapStart l₁) size y = h.mem y := by
  have hheader := hrep.header
  have hroom := hrep.payload_lt
  have hclear := (heq ▸ hrep.toLaid : Laid h (l₃ ++ c :: l₄)).clearOf_headers hlow hhigh
  rw [← heq] at hclear
  have hapart := blocks_apart heq hne
  obtain ⟨hsplit, -⟩ | ⟨hsmall, -⟩ := carve_cases size b
  · apply splitBlock_apply
    · rw [hheader.size]
      exact hsplit
    · rw [hheader.size]
      exact hroom.2.2
    · exact hclear _ (endOf_mem_headers _ _ _ _)
    · exact ⟨by omega, by omega⟩
    · rw [hheader.next]
      cases l₂ with
      | nil => exact Or.inl rfl
      | cons d l₂ =>
          refine Or.inr (hclear _ ?_)
          have hmem := endOf_mem_headers h.heapStart (l₁ ++ [b]) d l₂
          rwa [endOf_append, List.append_assoc] at hmem
  · rw [splitBlock, if_pos]
    rw [hheader.size, minBlockSize_eq, wadd_of_lt hbound]
    exact hsmall

/-- An allocation keeps the payload of every block in use. -/
theorem kmalloc_frame (hrep : Represents h bs) (hsafe : n = 0 ∨ h.Unwrapped n)
    (hrun : h.kmalloc n = some (p, h')) (hc : c.free = false) (hbs : bs = l₃ ++ c :: l₄)
    (hlow : endOf h.heapStart l₃ + 32 ≤ y) (hhigh : y < endOf h.heapStart l₃ + 32 + c.size) :
    h'.mem y = h.mem y := by
  by_cases hzero : n = 0
  · rw [kmalloc_eq_zero (Or.inl hzero)] at hrun
    obtain ⟨-, rfl⟩ := Prod.mk.inj (Option.some_inj.mp hrun)
    rfl
  obtain ⟨l₁, b, l₂, rfl, -, hfits, hfind⟩ | ⟨-, hfind⟩ := findFreeBlock_cases (alignSize n) hrep
  swap
  · rw [kmalloc_eq_zero (Or.inr hfind)] at hrun
    obtain ⟨-, rfl⟩ := Prod.mk.inj (Option.some_inj.mp hrun)
    rfl
  have hpos := hrep.payload_lt
  have hbound : alignSize n + 48 < 2 ^ 64 := by
    obtain hbound | hnull := hsafe.resolve_left hzero
    · exact hbound
    · rw [hfind, Option.some_inj] at hnull
      omega
  have hne : endOf h.heapStart l₁ ≠ endOf h.heapStart l₃ := by
    intro hend
    rw [← eq_of_endOf_eq hbs hend, hfits.1] at hc
    cases hc
  have hclear := (hbs ▸ hrep.toLaid : Laid h (l₃ ++ c :: l₄)).clearOf_headers hlow hhigh
  rw [← hbs] at hclear
  rw [kmalloc, if_neg hzero, hfind, Option.map_some, if_neg (by omega)] at hrun
  obtain ⟨-, rfl⟩ := Prod.mk.inj (Option.some_inj.mp hrun)
  calc setField (splitBlock h.mem (endOf h.heapStart l₁) (alignSize n))
        (endOf h.heapStart l₁) .free 0 y
      = splitBlock h.mem (endOf h.heapStart l₁) (alignSize n) y :=
        setField_apply (hclear _ (endOf_mem_headers _ _ _ _))
    _ = h.mem y := splitBlock_frame hrep hbound hbs hne hlow hhigh

theorem next_offLinks {e : Nat} (hy : ∀ x ∈ headers e l₂, OffLinks y x) :
    (if l₂ = [] then 0 else e) = 0 ∨ OffLinks y (if l₂ = [] then 0 else e) := by
  cases l₂ with
  | nil => exact Or.inl rfl
  | cons c l₂ => exact Or.inr (hy e (by simp [headers]))

theorem coalesceNext_apply (hchain : Chain m prev s (l₁ ++ b :: l₂) 0) (hs : 0 < s)
    (hend : endOf s (l₁ ++ b :: l₂) ≤ 2 ^ 64) (hb : b.free = true)
    (hy : ∀ x ∈ headers s (l₁ ++ b :: l₂), OffLinks y x) :
    coalesceNext m (endOf s l₁) y = m y := by
  obtain ⟨c, l₃, rfl, -, hmem⟩ | ⟨-, hmem⟩ := coalesceNext_cases hchain hs hend hb
  · rw [hmem]
    apply absorb_apply (hy _ (endOf_mem_headers _ _ _ _))
    refine next_offLinks fun x hx => hy x ?_
    rw [headers_append, headers, headers]
    simp [hx]
  · rw [hmem]

theorem coalescePrev_apply (hchain : Chain m prev s (l₁ ++ c :: b :: l₂) 0) (hs : 0 < s)
    (hend : endOf s (l₁ ++ c :: b :: l₂) ≤ 2 ^ 64) (hb : b.free = true)
    (hy : ∀ x ∈ headers s (l₁ ++ c :: b :: l₂), OffLinks y x) :
    coalescePrev m (endOf s l₁ + 32 + c.size) y = m y := by
  obtain ⟨-, hmem⟩ | ⟨-, hmem⟩ := coalescePrev_cases hchain hs hend hb
  · rw [hmem]
    apply absorb_apply (hy _ (endOf_mem_headers _ _ _ _))
    refine next_offLinks fun x hx => hy x ?_
    rw [headers_append, headers, headers]
    simp [hx]
  · rw [hmem]

theorem coalesceBlocks_apply (hchain : Chain m 0 s (l₁ ++ b :: l₂) 0) (hs : 0 < s)
    (hend : endOf s (l₁ ++ b :: l₂) ≤ 2 ^ 64) (hb : b.free = true)
    (hy : ∀ x ∈ headers s (l₁ ++ b :: l₂), OffLinks y x) :
    coalesceBlocks m (endOf s l₁) y = m y := by
  have hnext := chain_coalesceNext hchain hs hend hb
  have hkeep := coalesceNext_apply hchain hs hend hb hy
  obtain ⟨d, tl, hjoin⟩ := List.exists_cons_of_ne_nil (joinFree_ne_nil b l₂)
  have hd : d.free = true := (free_of_mem_head_joinFree b l₂ d (by simp [hjoin])).trans hb
  have hextent := endOf_joinFree (endOf s l₁) b l₂
  obtain rfl | ⟨l₀, c, rfl⟩ := List.eq_nil_or_concat' l₁
  · rw [hjoin] at hnext
    rw [coalesceBlocks, coalescePrev, if_neg fun hprev => hprev.1 hnext.1.prev]
    exact hkeep
  · have hy' : ∀ x ∈ headers s (l₀ ++ c :: d :: tl), OffLinks y x := by
      intro x hx
      apply hy x
      rw [headers_append, headers, List.mem_append, List.mem_cons, ← hjoin] at hx
      rw [List.append_assoc, List.singleton_append, headers_append, headers, List.mem_append,
        List.mem_cons]
      exact hx.imp_right (Or.imp_right headers_joinFree)
    rw [endOf_append, ← hextent, hjoin] at hend
    rw [hjoin, List.append_assoc, List.singleton_append] at hnext
    simp only [endOf_append, endOf_cons, endOf_nil] at hend hnext hkeep ⊢
    rw [coalesceBlocks, coalescePrev_apply hnext hs (by simpa using hend) hd hy']
    exact hkeep

/-- What a release writes besides sizes and links is the flag of the block released. -/
theorem kfree_apply (hrep : Represents h (l₁ ++ b :: l₂)) (hb : b.free = false)
    (hy : ∀ x ∈ headers h.heapStart (l₁ ++ b :: l₂), OffLinks y x)
    (hflag : y < endOf h.heapStart l₁ + 8 ∨ endOf h.heapStart l₁ + 12 ≤ y) :
    (h.kfree (endOf h.heapStart l₁ + 32)).mem y = h.mem y := by
  have hsame : headers h.heapStart (l₁ ++ ⟨b.size, true⟩ :: l₂) =
      headers h.heapStart (l₁ ++ b :: l₂) := by
    rw [headers_append, headers_append]
    rfl
  have hroom := hrep.payload_lt
  rw [← hsame] at hy
  rw [kfree_eq hrep hb]
  dsimp only
  rw [coalesceBlocks_apply hrep.chain_freed hrep.start hrep.endOf_freed_le rfl hy]
  apply ByteMemory.write_apply_of_outside
  intro i hi
  simp only [Field.offset, Field.width] at hi ⊢
  rw [Nat.mod_eq_of_lt (by omega)]
  omega

/-- A release keeps every byte that is in no header. -/
theorem kfree_frame (hrep : Represents h (l₁ ++ b :: l₂)) (hb : b.free = false)
    (hy : ∀ x ∈ headers h.heapStart (l₁ ++ b :: l₂), ClearOf y x) :
    (h.kfree (endOf h.heapStart l₁ + 32)).mem y = h.mem y := by
  have hclear := (hy _ (endOf_mem_headers _ _ _ _)).2
  exact kfree_apply hrep hb (fun x hx => (hy x hx).offLinks) (by omega)

namespace Session

variable {s s' : Session} {call : Call} {q : Nat}

/-- A call of the allocator, as against a store of a client. -/
def OfAllocator : Call → Prop
  | .kmalloc _ => True
  | .kfree _ => True
  | .store _ _ _ => False

theorem Sound.frame (hsound : s.Sound) (hof : OfAllocator call) (hperm : s.Permitted call)
    (hok : s.Bounded call) (hstep : s.step call = some s') (hq : q ∈ s.live)
    (hy : y ∈ s.heap.payload q) : s'.heap.mem y = s.heap.mem y := by
  obtain ⟨bs, hrep, hlive⟩ := hsound
  obtain ⟨l₃, c, l₄, hbs, hc, rfl⟩ := block_of_live hlive hq
  rw [payload, kmallocSize_eq (hbs ▸ hrep.toLaid)] at hy
  cases call with
  | kmalloc n =>
      obtain ⟨⟨p, h'⟩, hrun, rfl⟩ := Option.map_eq_some_iff.mp hstep
      exact kmalloc_frame hrep hok hrun hc hbs hy.1 hy.2
  | kfree ptr =>
      obtain rfl := Option.some_inj.mp hstep
      obtain ⟨l₁, b, l₂, heq, hb, rfl⟩ := block_of_live hlive hperm
      have hclear := (hbs ▸ hrep.toLaid : Laid s.heap (l₃ ++ c :: l₄)).clearOf_headers hy.1 hy.2
      rw [← hbs, heq] at hclear
      exact kfree_frame (heq ▸ hrep) hb hclear
  | store ptr i v => exact hof.elim

theorem Sound.payload_subset (hsound : s.Sound) (hp : p ∈ s.live) :
    s.heap.payload p ⊆ Set.Ico s.heap.heapStart (s.heap.heapStart + s.heap.heapTotalSize) := by
  obtain ⟨bs, hrep, hlive⟩ := hsound
  obtain ⟨l₁, b, l₂, rfl, -, rfl⟩ := block_of_live hlive hp
  have htiles := hrep.tiles
  have hstart := le_endOf s.heap.heapStart l₁
  have hend := le_endOf (endOf s.heap.heapStart l₁ + 32 + b.size) l₂
  rw [endOf_append, endOf_cons] at htiles
  rw [payload, kmallocSize_eq hrep.toLaid]
  intro y hy
  exact ⟨by have := hy.1; omega, by have := hy.2; omega⟩

theorem Sound.payload_disjoint (hsound : s.Sound) (hp : p ∈ s.live) (hq : q ∈ s.live) (hne : p ≠ q) :
    Disjoint (s.heap.payload p) (s.heap.payload q) := by
  obtain ⟨-, -, -, -, hpairwise, -⟩ := hsound.intact
  have hsymm : Std.Symm fun p q => Disjoint (s.heap.payload p) (s.heap.payload q) :=
    ⟨fun _ _ hdisjoint => hdisjoint.symm⟩
  exact hpairwise.forall hp hq hne

end Session

/-- **Isolation.** From any accepted `heap_init`, in every run whose allocations keep the bound of
`split_block` below the word size or find no block: live payloads are disjoint and inside the heap, and
a further such call of `kmalloc` or `kfree` leaves the payload of every allocation that is live before
and after it as it was. -/
theorem isolated_of_run (h : Heap) (start size : Nat) (hacc : Accepts start size) {s : Session}
    (hrun : Session.Run Session.Bounded ⟨h.heapInit start size, []⟩ s) :
    (∀ p ∈ s.live, ∀ q ∈ s.live, p ≠ q → Disjoint (s.heap.payload p) (s.heap.payload q)) ∧
    (∀ p ∈ s.live, s.heap.payload p ⊆
      Set.Ico s.heap.heapStart (s.heap.heapStart + s.heap.heapTotalSize)) ∧
    ∀ call s', Session.OfAllocator call → s.Permitted call → s.Bounded call →
      s.step call = some s' → ∀ q ∈ s.live, q ∈ s'.live → ∀ y ∈ s.heap.payload q,
        s'.heap.mem y = s.heap.mem y := by
  have hsound := (Session.sound_heapInit h hacc).run hrun
  refine ⟨fun p hp q hq hne => hsound.payload_disjoint hp hq hne,
    fun p hp => hsound.payload_subset hp, ?_⟩
  intro call s' hof hperm hok hstep q hq _ y hy
  exact hsound.frame hof hperm hok hstep hq hy

/-- An allocation that is served from the hole. -/
def filledSession : Session := (holeSession.step (.kmalloc 50)).get (by decide +kernel)

theorem isolated_holeSession :
    Disjoint (holeSession.heap.payload 0x400028) (holeSession.heap.payload 0x400198) ∧
      holeSession.heap.payload 0x400198 ⊆ Set.Ico holeSession.heap.heapStart
        (holeSession.heap.heapStart + holeSession.heap.heapTotalSize) ∧
      filledSession.live = [0x4000B0, 0x400198, 0x400028] ∧
      ∀ y ∈ holeSession.heap.payload 0x400198, filledSession.heap.mem y = holeSession.heap.mem y := by
  obtain ⟨hdisjoint, hinside, hframe⟩ :=
    isolated_of_run blank 0x400001 0x1000 ⟨by decide, by decide, by decide⟩ run_holeSession
  exact ⟨hdisjoint 0x400028 (by decide +kernel) 0x400198 (by decide +kernel) (by decide),
    hinside 0x400198 (by decide +kernel), by decide +kernel,
    hframe (.kmalloc 50) filledSession trivial (by decide) (Or.inr (Or.inl (by decide)))
      (Option.some_get _).symm 0x400198 (by decide +kernel) (by decide +kernel)⟩

def overlappedSession : Session := (wrappedSession.step (.kmalloc 8)).get (by decide +kernel)

/-- After the wrapped bound a request for 8 bytes is served from the block that was cut off, and the
header of its rest is written into the first allocation. -/
theorem not_isolated_wrappedSession :
    Accepts 8 (2 ^ 64 - 16) ∧
      Session.Run (fun _ _ => True) ⟨blank.heapInit 8 (2 ^ 64 - 16), []⟩ wrappedSession ∧
      wrappedSession.Permitted (.kmalloc 8) ∧
      wrappedSession.step (.kmalloc 8) = some overlappedSession ∧
      40 ∈ wrappedSession.live ∧ 40 ∈ overlappedSession.live ∧
      40 ∈ wrappedSession.heap.payload 40 ∧
      overlappedSession.heap.mem 40 ≠ wrappedSession.heap.mem 40 := by
  refine ⟨⟨by decide, by decide, by decide⟩, Relation.ReflTransGen.single
    ⟨.kmalloc (2 ^ 64 - 48), by decide, trivial, (Option.some_get _).symm⟩, by decide,
    (Option.some_get _).symm, by decide +kernel, by decide +kernel, ?_, by decide +kernel⟩
  have hsize : 0 < wrappedSession.heap.kmallocSize 40 := by decide +kernel
  exact ⟨le_rfl, by omega⟩

end SimpleOs.Heap
