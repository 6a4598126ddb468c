import SimpleOs.Proof.HeapReallocData

/-!
# Freeing twice

`kfree` tells a second release from a first by the free field in the 32 bytes before its argument. When
the block has been merged into another those bytes are no header any more: they keep their 1 until the
owner of a later allocation stores over them, or a split puts another header there. Calls that do neither
leave the field set for as long as the pointer is not handed out again.
-/

namespace SimpleOs.Heap

variable {h h' : Heap} {m : ByteMemory} {a n p q size x y : Nat} {b c : Block} {bs l₁ l₂ : List Block}

theorem exists_of_mem_headers (hx : x ∈ headers a bs) :
    ∃ l₁ b l₂, bs = l₁ ++ b :: l₂ ∧ x = endOf a l₁ := by
  induction bs generalizing a with
  | nil => exact absurd hx List.not_mem_nil
  | cons b bs ih =>
      rw [headers, List.mem_cons] at hx
      obtain rfl | hx := hx
      · exact ⟨[], b, bs, rfl, rfl⟩
      · obtain ⟨l₁, c, l₂, rfl, hc⟩ := ih hx
        exact ⟨b :: l₁, c, l₂, rfl, hc⟩

theorem mem_headers_carve : x ∈ headers a (l₁ ++ (carve size b ++ l₂)) ↔
    x ∈ headers a (l₁ ++ b :: l₂) ∨ size + 48 ≤ b.size ∧ x = endOf a l₁ + 32 + size := by
  have hcarved : x ∈ headers (endOf a l₁) (carve size b) ↔
      x = endOf a l₁ ∨ size + 48 ≤ b.size ∧ x = endOf a l₁ + 32 + size := by
    obtain ⟨hsplit, hcarve⟩ | ⟨hsmall, hcarve⟩ := carve_cases size b
    · simp [hcarve, headers, hsplit]
    · simp only [hcarve, headers, List.mem_singleton]
      omega
  rw [headers_append, headers_append, endOf_carve, headers_append, headers]
  simp only [List.mem_append, List.mem_cons, hcarved]
  tauto

theorem headers_coalesce (hx : x ∈ headers a (coalesce bs)) : x ∈ headers a bs := by
  induction bs generalizing a with
  | nil => exact hx
  | cons b bs ih =>
      rw [coalesce_cons] at hx
      have hjoined := headers_joinFree hx
      rw [headers, List.mem_cons] at hjoined ⊢
      exact hjoined.imp_right ih

/-- What an allocation writes lies in headers. -/
theorem taken_frame (hrep : Represents h (l₁ ++ b :: l₂)) (hbound : size + 48 < 2 ^ 64)
    (hy : ∀ x ∈ headers h.heapStart (l₁ ++ (carve size b ++ l₂)), ClearOf y x) :
    (h.taken (endOf h.heapStart l₁) size).mem y = h.mem y := by
  have hheader := hrep.header
  have hroom := hrep.payload_lt
  have hold : ∀ x ∈ headers h.heapStart (l₁ ++ b :: l₂), ClearOf y x := fun x hx =>
    hy x (mem_headers_carve.mpr (Or.inl hx))
  have hblock := hold _ (endOf_mem_headers _ _ _ _)
  have hsplit : splitBlock h.mem (endOf h.heapStart l₁) size y = h.mem y := by
    by_cases hlarge : size + 48 ≤ b.size
    · refine splitBlock_apply ?_ ?_ hblock (hy _ (mem_headers_carve.mpr (Or.inr ⟨hlarge, rfl⟩))) ?_
      · rwa [hheader.size]
      · rw [hheader.size]
        exact hroom.2.2
      · rw [hheader.next]
        cases l₂ with
        | nil => exact Or.inl rfl
        | cons c l₂ => exact Or.inr (hold _ (by rw [headers_append, headers, headers]; simp))
    · rw [splitBlock, if_pos]
      rw [hheader.size, minBlockSize_eq, wadd_of_lt hbound]
      omega
  exact (setField_apply hblock).trans hsplit

/-- The four bytes of the free field in the header before `p`. -/
def flagBytes (p : Nat) : Set Nat := Set.Ico (p - 24) (p - 20)

/-- A header at `x` is the one before `p`, or it does not lie over the free field there. -/
def OffFlag (p x : Nat) : Prop := x + 32 = p ∨ Disjoint (flagBytes p) (Set.Ico x (x + 32))

theorem offFlag_iff (hp : 32 ≤ p) : OffFlag p x ↔ x + 32 = p ∨ x + 32 ≤ p - 24 ∨ p - 20 ≤ x := by
  rw [OffFlag, flagBytes, Set.Ico_disjoint_Ico]
  omega

theorem OffFlag.offLinks (hoff : OffFlag p x) (hp : 32 ≤ p) (hroom : x + 32 ≤ 2 ^ 64)
    (hy : y ∈ flagBytes p) : OffLinks y x := by
  have hlow := hy.1
  have hhigh := hy.2
  rw [offFlag_iff hp] at hoff
  exact ⟨hroom, by omega⟩

theorem OffFlag.clearOf (hoff : OffFlag p x) (hp : 32 ≤ p) (hne : x + 32 ≠ p)
    (hroom : x + 32 ≤ 2 ^ 64) (hy : y ∈ flagBytes p) : ClearOf y x := by
  have hlow := hy.1
  have hhigh := hy.2
  rw [offFlag_iff hp] at hoff
  exact ⟨hroom, by omega⟩

theorem free_congr {m' : ByteMemory} (hlow : 32 ≤ p) (hhigh : p ≤ 2 ^ 64)
    (hsame : ∀ y ∈ flagBytes p, m' y = m y) :
    getField m' (p - 32) .free = getField m (p - 32) .free := by
  refine ByteMemory.read_congr fun i hi => ?_
  simp only [Field.offset, Field.width] at hi ⊢
  rw [Nat.mod_eq_of_lt (by omega)]
  exact hsame _ ⟨by omega, by omega⟩

/-- The headers of a list do not lie over each other's free fields. -/
theorem offFlag_of_header (hp : endOf a l₁ + 32 = p) : ∀ x ∈ headers a (l₁ ++ b :: l₂), OffFlag p x := by
  intro x hx
  have hposition := header_position hx
  rw [offFlag_iff (by omega)]
  omega

/-- A release leaves the free field it has set, even when the block is merged into its neighbours. -/
theorem free_kfree (hrep : Represents h (l₁ ++ b :: l₂)) (hb : b.free = false) :
    getField (h.kfree (endOf h.heapStart l₁ + 32)).mem (endOf h.heapStart l₁) .free = 1 := by
  have hroom := hrep.payload_lt
  have hend := hrep.endOf_freed_le
  rw [kfree_eq hrep hb]
  dsimp only
  calc getField (coalesceBlocks (setField h.mem (endOf h.heapStart l₁) .free 1)
        (endOf h.heapStart l₁)) (endOf h.heapStart l₁) .free
      = getField (setField h.mem (endOf h.heapStart l₁) .free 1) (endOf h.heapStart l₁) .free := by
        refine free_congr (p := endOf h.heapStart l₁ + 32) (by omega) (by omega) fun y hy => ?_
        refine coalesceBlocks_apply hrep.chain_freed hrep.start hend rfl fun x hx => ?_
        have hbounds := mem_headers_bounds hx
        exact (offFlag_of_header rfl x hx).offLinks (by omega) (by omega) hy
    _ = 1 := getField_setField_self (by decide)

namespace Session

variable {s s' s₁ : Session} {call : Call}

/-- A further `kfree p` leaves the block list, the counter and every live payload as they are. -/
def Harmless (s : Session) (p : Nat) : Prop :=
  SameBlocks s.heap (s.heap.kfree p) ∧
    ∀ q ∈ s.live, ∀ y ∈ s.heap.payload q, (s.heap.kfree p).mem y = s.heap.mem y

/-- The call does not store into the free field before `p`, and if it splits a block, it does not put
another header over that field. -/
def Spares (p : Nat) (s : Session) : Call → Prop
  | .kmalloc n => n ≠ 0 → ∀ block, s.heap.findFreeBlock (alignSize n) = some block → block ≠ 0 →
      alignSize n + minBlockSize ≤ getField s.heap.mem block .size →
      OffFlag p (block + headerSize + alignSize n)
  | .kfree _ => True
  | .store ptr i _ => wadd ptr i ∉ flagBytes p

/-- No header but the one before `p` lies over the free field there, which is set while `p` is not
live. -/
def Guards (p : Nat) (s : Session) : Prop :=
  ∃ bs, Represents s.heap bs ∧ s.live.Perm (payloads s.heap.heapStart bs) ∧
    (∀ x ∈ headers s.heap.heapStart bs, OffFlag p x) ∧
    (p ∉ s.live → getField s.heap.mem (p - 32) .free ≠ 0)

theorem Sound.guards (hsound : s.Sound) (hp : p ∈ s.live) : s.Guards p := by
  obtain ⟨bs, hrep, hlive⟩ := hsound
  obtain ⟨l₁, b, l₂, rfl, -, rfl⟩ := block_of_live hlive hp
  exact ⟨_, hrep, hlive, offFlag_of_header rfl, fun hnot => absurd hp hnot⟩

theorem Sound.bounds_of_live (hsound : s.Sound) (hp : p ∈ s.live) : 32 < p ∧ p < 2 ^ 64 := by
  obtain ⟨bs, hrep, hlive⟩ := hsound
  obtain ⟨l₁, b, l₂, rfl, -, rfl⟩ := block_of_live hlive hp
  have hroom := hrep.payload_lt
  omega

/-- The header before a pointer that is not live belongs to a free block. -/
theorem free_of_header (hrep : Represents s.heap bs)
    (hlive : s.live.Perm (payloads s.heap.heapStart bs)) (hp : p ∉ s.live)
    (hx : x ∈ headers s.heap.heapStart bs) (hxp : x + 32 = p) :
    getField s.heap.mem x .free ≠ 0 := by
  obtain ⟨l₁, b, l₂, rfl, rfl⟩ := exists_of_mem_headers hx
  refine hrep.header.free.mpr ?_
  by_contra hb
  exact hp (hlive.mem_iff.mpr (mem_payloads.mpr ⟨l₁, b, l₂, rfl, Bool.eq_false_of_not_eq_true hb,
    hxp.symm⟩))

section Steps

variable (hlow : 32 < p) (hhigh : p < 2 ^ 64)

include hlow hhigh

theorem Guards.kmalloc (hguards : s.Guards p) (hok : s.Bounded (.kmalloc n))
    (hspares : s.Spares p (.kmalloc n)) (hstep : s.step (.kmalloc n) = some s') : s'.Guards p := by
  obtain ⟨bs, hrep, hlive, hoff, hflag⟩ := hguards
  obtain ⟨⟨q, h'⟩, hrun, rfl⟩ := Option.map_eq_some_iff.mp hstep
  by_cases hn : n = 0
  · rw [kmalloc_eq_zero (Or.inl hn)] at hrun
    obtain ⟨rfl, rfl⟩ := Prod.mk.inj (Option.some_inj.mp hrun)
    exact ⟨bs, hrep, hlive, hoff, hflag⟩
  obtain ⟨-, -, hnull⟩ | ⟨l₁, b, l₂, rfl, -, hfits, hfind, hfound⟩ := kmalloc_outcomes hrep hn
  · obtain ⟨rfl, rfl⟩ := Prod.mk.inj (Option.some_inj.mp (hnull.symm.trans hrun))
    exact ⟨bs, hrep, hlive, hoff, hflag⟩
  obtain ⟨rfl, rfl⟩ := Prod.mk.inj (Option.some_inj.mp (hfound.symm.trans hrun))
  have hroom := hrep.payload_lt
  have hbound : alignSize n + 48 < 2 ^ 64 := by
    refine (hok.resolve_left hn).resolve_right fun hnone => ?_
    have hzero := Option.some_inj.mp (hfind.symm.trans hnone)
    omega
  have hafter := represents_taken hrep hfits hbound (alignSize_mod n)
  have hoff' : ∀ x ∈ headers s.heap.heapStart (l₁ ++ (carve (alignSize n) b ++ l₂)),
      OffFlag p x := by
    intro x hx
    obtain hx | ⟨hsplit, rfl⟩ := mem_headers_carve.mp hx
    · exact hoff x hx
    · refine hspares hn _ hfind (by omega) ?_
      rwa [hrep.header.size, minBlockSize_eq]
  rw [if_neg (by omega)]
  have hlive' : ((endOf s.heap.heapStart l₁ + 32) :: s.live).Perm
      (payloads s.heap.heapStart (l₁ ++ (carve (alignSize n) b ++ l₂))) :=
    (hlive.cons _).trans (payloads_taken hfits.1).symm
  refine ⟨_, hafter, hlive', hoff', fun hp => ?_⟩
  by_cases hheader : p - 32 ∈ headers s.heap.heapStart (l₁ ++ (carve (alignSize n) b ++ l₂))
  · exact free_of_header (s := ⟨_, _⟩) hafter hlive' hp hheader (by omega)
  · have hkeeps : getField (s.heap.taken (endOf s.heap.heapStart l₁) (alignSize n)).mem (p - 32)
        .free = getField s.heap.mem (p - 32) .free := by
      refine free_congr hlow.le hhigh.le fun y hy => taken_frame hrep hbound fun x hx => ?_
      refine (hoff' x hx).clearOf hlow.le (fun hxp => hheader ?_) ?_ hy
      · rwa [← hxp, Nat.add_sub_cancel]
      · exact (mem_headers_bounds hx).2.trans hafter.endOf_le
    exact hkeeps.trans_ne (hflag fun hmem => hp (List.mem_cons_of_mem _ hmem))

theorem Guards.kfree (hguards : s.Guards p) (hq : q ∈ s.live) :
    Guards p ⟨s.heap.kfree q, s.live.erase q⟩ := by
  obtain ⟨bs, hrep, hlive, hoff, hflag⟩ := hguards
  obtain ⟨l₁, b, l₂, rfl, hb, rfl⟩ := block_of_live hlive hq
  have hroom := hrep.payload_lt
  have herase := (hlive.trans (payloads_freed hb)).erase (endOf s.heap.heapStart l₁ + 32)
  rw [List.erase_cons_head] at herase
  refine ⟨_, represents_kfree hrep hb, by rwa [heapStart_kfree], fun x hx => ?_, fun hp => ?_⟩
  · rw [heapStart_kfree] at hx
    have hx := headers_coalesce hx
    rw [headers_append, headers] at hx
    exact hoff x (by rwa [headers_append, headers])
  · dsimp only
    by_cases hpq : p = endOf s.heap.heapStart l₁ + 32
    · rw [hpq, Nat.add_sub_cancel, free_kfree hrep hb]
      decide
    · have hapart := hoff _ (endOf_mem_headers _ l₁ b l₂)
      rw [offFlag_iff (by omega)] at hapart
      have hkeeps : getField (s.heap.kfree (endOf s.heap.heapStart l₁ + 32)).mem (p - 32) .free =
          getField s.heap.mem (p - 32) .free := by
        refine free_congr hlow.le hhigh.le fun y hy => kfree_apply hrep hb (fun x hx => ?_) ?_
        · exact (hoff x hx).offLinks hlow.le ((mem_headers_bounds hx).2.trans hrep.endOf_le) hy
        · have hfirst := hy.1
          have hlast := hy.2
          omega
      exact hkeeps.trans_ne (hflag fun hmem => hp ((List.mem_erase_of_ne hpq).mpr hmem))

theorem Guards.store {ptr i : Nat} {v : BitVec 8} (hguards : s.Guards p)
    (hperm : s.Permitted (.store ptr i v)) (hspares : s.Spares p (.store ptr i v)) :
    Guards p { s with heap := { s.heap with mem := Function.update s.heap.mem (wadd ptr i) v } } := by
  obtain ⟨bs, hrep, hlive, hoff, hflag⟩ := hguards
  obtain ⟨hptr, hi⟩ := hperm
  obtain ⟨l₁, b, l₂, rfl, hb, rfl⟩ := block_of_live hlive hptr
  rw [kmallocSize_eq hrep.toLaid] at hi
  have hroom := hrep.payload_lt
  have haddr : wadd (endOf s.heap.heapStart l₁ + 32) i = endOf s.heap.heapStart l₁ + 32 + i :=
    wadd_of_lt (by omega)
  refine ⟨_, hrep.update v ?_ ?_, hlive, hoff, fun hp => ?_⟩
  · rw [haddr]
    omega
  · rw [haddr]
    omega
  · have hkeeps : getField (Function.update s.heap.mem (wadd (endOf s.heap.heapStart l₁ + 32) i) v)
        (p - 32) .free = getField s.heap.mem (p - 32) .free :=
      free_congr hlow.le hhigh.le fun y hy =>
        Function.update_of_ne (ne_of_mem_of_not_mem hy hspares) _ _
    exact hkeeps.trans_ne (hflag hp)

theorem Guards.step (hguards : s.Guards p) (hperm : s.Permitted call) (hok : s.Bounded call)
    (hspares : s.Spares p call) (hstep : s.step call = some s') : s'.Guards p := by
  cases call with
  | kmalloc n => exact hguards.kmalloc hlow hhigh hok hspares hstep
  | kfree q =>
      obtain rfl := Option.some_inj.mp hstep
      exact hguards.kfree hlow hhigh hperm
  | store ptr i v =>
      obtain rfl := Option.some_inj.mp hstep
      exact hguards.store hlow hhigh hperm hspares

theorem Guards.run (hguards : s₁.Guards p)
    (hrun : Run (fun t call => t.Bounded call ∧ t.Spares p call) s₁ s) : s.Guards p := by
  induction hrun with
  | refl => exact hguards
  | tail _ hstep ih =>
      obtain ⟨call, hperm, ⟨hok, hspares⟩, hcall⟩ := hstep
      exact ih.step hlow hhigh hperm hok hspares hcall

omit hlow hhigh

end Steps

theorem harmless_of_free (hfree : getField s.heap.mem (wsub p headerSize) .free ≠ 0) :
    s.Harmless p := by
  rw [Harmless, kfree_free hfree]
  exact ⟨⟨rfl, rfl⟩, fun _ _ _ _ => rfl⟩

/-- Where the free field reads 0, a counter that stays the same can only be due to a size of -32. -/
theorem free_of_harmless (hlow : 32 < p) (hhigh : p < 2 ^ 64) (hharmless : s.Harmless p) :
    getField s.heap.mem (wsub p headerSize) .free ≠ 0 ∨
      getField s.heap.mem (wsub p headerSize) .size = 2 ^ 64 - 32 := by
  by_contra hnot
  rw [not_or, not_not] at hnot
  have hblock : wsub p headerSize + 32 ≤ 2 ^ 64 := by
    rw [headerSize_eq, wsub_of_le (by omega) hhigh]
    omega
  have hcounter := hharmless.1.2
  rw [kfree_inUse (by omega) rfl hblock hnot.1] at hcounter
  have hsize := getField_lt s.heap.mem (wsub p headerSize) .size
  dsimp only at hcounter
  rw [headerSize_eq, wsub, wadd] at hcounter
  rw [headerSize_eq] at hnot hsize
  omega

/-- **Freeing twice.** Take a pointer that is live in a run whose allocations keep the bound of
`split_block` from wrapping. In every such run from there that neither stores into the free field before
it nor puts another header over that field, a further `kfree` of it does nothing harmful whenever it is
not live. In any session the further `kfree` is harmless when the field is not 0, and then only, or the
32 bytes before the pointer carry the size -32. -/
theorem harmless_of_run (h : Heap) (start size : Nat) (hacc : Accepts start size) {s₁ : Session}
    (hrun₁ : Run Bounded ⟨h.heapInit start size, []⟩ s₁) {p : Nat} (hp : p ∈ s₁.live) :
    (∀ s, Run (fun t call => t.Bounded call ∧ t.Spares p call) s₁ s → p ∉ s.live → s.Harmless p) ∧
    ∀ s : Session,
      (getField s.heap.mem (wsub p headerSize) .free ≠ 0 → s.Harmless p) ∧
      (s.Harmless p → getField s.heap.mem (wsub p headerSize) .free ≠ 0 ∨
        getField s.heap.mem (wsub p headerSize) .size = 2 ^ 64 - 32) := by
  have hsound := (sound_heapInit h hacc).run hrun₁
  obtain ⟨hlow, hhigh⟩ := hsound.bounds_of_live hp
  refine ⟨fun s hrun hdead => ?_, fun s => ⟨harmless_of_free, free_of_harmless hlow hhigh⟩⟩
  obtain ⟨bs, -, -, -, hflag⟩ := (hsound.guards hp).run hlow hhigh hrun
  apply harmless_of_free
  rw [headerSize_eq, wsub_of_le (by omega) hhigh]
  exact hflag hdead

instance (p x : Nat) : Decidable (OffFlag p x) :=
  decidable_of_iff (x + 32 = p ∨ min (p - 20) (x + 32) ≤ max (p - 24) x)
    (by rw [OffFlag, flagBytes, Set.Ico_disjoint_Ico])

instance (p : Nat) (s : Session) : (call : Call) → Decidable (s.Spares p call)
  | .kmalloc n => inferInstanceAs (Decidable (n ≠ 0 → ∀ block ∈ s.heap.findFreeBlock (alignSize n),
      block ≠ 0 → alignSize n + minBlockSize ≤ getField s.heap.mem block .size →
      OffFlag p (block + headerSize + alignSize n)))
  | .kfree _ => isTrue trivial
  | .store ptr i _ => inferInstanceAs (Decidable (¬ (p - 24 ≤ wadd ptr i ∧ wadd ptr i < p - 20)))

def twoBlocks : Session := (onePage.step (.kmalloc 16)).get (by decide +kernel)

theorem run_twoBlocks : Run Bounded ⟨blank.heapInit 0x1000 0x1000, []⟩ twoBlocks :=
  (Relation.ReflTransGen.single
    ⟨.kmalloc 16, by decide, Or.inr (Or.inl (by decide)), (Option.some_get _).symm⟩).tail
    ⟨.kmalloc 16, by decide, Or.inr (Or.inl (by decide)), (Option.some_get _).symm⟩

/-- Two blocks are freed and merged, and 100 bytes are allocated over both. -/
def coveredBlocks : Session :=
  (twoBlocks.replay (fun t call => t.Bounded call ∧ t.Spares 0x1050 call)
    [.kfree 0x1020, .kfree 0x1050, .kmalloc 100, .store 0x1020 40 7]).get (by decide +kernel)

theorem harmless_coveredBlocks : coveredBlocks.live = [0x1020] ∧ coveredBlocks.Harmless 0x1050 :=
  ⟨by decide +kernel,
    (harmless_of_run blank 0x1000 0x1000 ⟨by decide, by decide, by decide⟩ run_twoBlocks
      (show 0x1050 ∈ twoBlocks.live by decide +kernel)).1 coveredBlocks
      (run_of_replay (Option.some_get _).symm) (by decide +kernel)⟩

def reusedPage : Session :=
  (twoBlocks.replay Bounded [.kfree 0x1020, .kfree 0x1050, .kmalloc 100, .store 0x1020 24 0]).get
    (by decide +kernel)

/-- Two blocks are freed and merged, 100 bytes are allocated over both, and their owner stores a 0 over
the free field of the second header. Freeing the second block again sets that byte to 1 and takes the
0xfd0 bytes of the block as it was last merged off a counter of 136. -/
theorem not_harmless_reusedPage : Accepts 0x1000 0x1000 ∧
    Run Bounded ⟨blank.heapInit 0x1000 0x1000, []⟩ twoBlocks ∧ 0x1050 ∈ twoBlocks.live ∧
    Run Bounded twoBlocks reusedPage ∧ 0x1050 ∉ reusedPage.live ∧
    0x1020 ∈ reusedPage.live ∧ 0x1038 ∈ reusedPage.heap.payload 0x1020 ∧
    (reusedPage.heap.kfree 0x1050).mem 0x1038 ≠ reusedPage.heap.mem 0x1038 ∧
    reusedPage.heap.heapUsedSize = 136 ∧
    (reusedPage.heap.kfree 0x1050).heapUsedSize = 2 ^ 64 - 3912 ∧
    ¬ reusedPage.Harmless 0x1050 := by
  have hreused : Run Bounded twoBlocks reusedPage := run_of_replay (Option.some_get _).symm
  have hmem : 0x1038 ∈ reusedPage.heap.payload 0x1020 := by
    have hsize : reusedPage.heap.kmallocSize 0x1020 = 104 := by decide +kernel
    rw [payload, hsize]
    exact ⟨by decide, by decide⟩
  have hlive : 0x1020 ∈ reusedPage.live := by decide +kernel
  have hbyte : (reusedPage.heap.kfree 0x1050).mem 0x1038 ≠ reusedPage.heap.mem 0x1038 := by
    decide +kernel
  exact ⟨⟨by decide, by decide, by decide⟩, run_twoBlocks, by decide +kernel, hreused, by decide +kernel,
    hlive, hmem, hbyte, by decide +kernel, by decide +kernel,
    fun hharmless => hbyte (hharmless.2 _ hlive _ hmem)⟩

end Session

end SimpleOs.Heap
