import SimpleOs.Proof.HeapAlignedFree

/-!
# Shrinking allocations

`krealloc` shrinks a block with `split_block` alone. What is cut off is marked free, but `heap_used_size`
still counts it, and a free block behind it is not merged with it. So the heap is in order afterwards
exactly if nothing is cut off.
-/

namespace SimpleOs

def freeBytes : List Block → Nat
  | [] => 0
  | b :: bs => (if b.free then b.size + 32 else 0) + freeBytes bs

variable {a n p size v x : Nat} {b : Block} {bs l₁ l₂ : List Block} {m : ByteMemory}

theorem endOf_eq_add (a : Nat) (bs : List Block) : endOf a bs = a + usedBytes bs + freeBytes bs := by
  induction bs generalizing a with
  | nil => rfl
  | cons b bs ih =>
      rw [endOf_cons, ih, usedBytes, freeBytes]
      split <;> omega

namespace Heap

variable {h : Heap} {s : Session}

/-- The blocks listed from `heap_start` on are counted right, used and free, and no two neighbours are
free. -/
def Accounted (h : Heap) : Prop :=
  ∃ l, h.blockList = some l ∧ h.heapGetUsedSize = usedBytes (l.map Prod.snd) ∧
    Separated (l.map Prod.snd) ∧ h.heapGetFreeSize = freeBytes (l.map Prod.snd)

theorem Laid.accounted_iff (hlaid : Laid h bs) :
    h.Accounted ↔ h.heapUsedSize = usedBytes bs ∧ Separated bs := by
  have hlist := hlaid.blockList_eq
  have hmap : ((headers h.heapStart bs).zip bs).map Prod.snd = bs :=
    List.map_snd_zip (length_headers h.heapStart bs).ge
  constructor
  · rintro ⟨l, hl, hused, hsep, -⟩
    obtain rfl := Option.some_inj.mp (hl.symm.trans hlist)
    rw [hmap] at hused hsep
    exact ⟨hused, hsep⟩
  · rintro ⟨hused, hsep⟩
    have hstart := hlaid.start
    have hend := hlaid.end_le
    have htiles := hlaid.tiles
    rw [endOf_eq_add] at htiles
    refine ⟨_, hlist, by rw [hmap]; exact hused, by rw [hmap]; exact hsep, ?_⟩
    rw [hmap, heapGetFreeSize, hused, wsub_of_le (by omega) (by omega)]
    omega

theorem accounted_shrink_iff (hrep : Represents h (l₁ ++ b :: l₂)) (hb : b.free = false)
    (hbound : size + 48 < 2 ^ 64) (hmod : size % 8 = 0) :
    Accounted { h with mem := splitBlock h.mem (endOf h.heapStart l₁) size } ↔
      b.size < size + 48 := by
  rw [(laid_shrink hrep.toLaid hb hbound hmod).accounted_iff]
  dsimp only
  obtain ⟨bsize, bfree⟩ := b
  simp only at hb
  subst hb
  obtain ⟨hsplit, hcarve⟩ | ⟨hsmall, hcarve⟩ := carve_cases size ⟨bsize, false⟩
  · simp only at hsplit
    rw [hcarve, hrep.used]
    simp only [usedBytes_append, usedBytes, List.cons_append, List.nil_append, if_true,
      Bool.false_eq_true, if_false]
    constructor
    · rintro ⟨hused, -⟩
      omega
    · intro hsmall
      omega
  · rw [hcarve]
    exact iff_of_true ⟨hrep.used, hrep.separated⟩ hsmall

/-- The header of the part cut off, as `split_block` writes it. -/
def cutOff (m : ByteMemory) (a x v : Nat) : ByteMemory :=
  let m := setField (setField m x .size v) x .free 1
  setField (setField m x .next (getField m a .next)) x .prev a

theorem splitBlock_cutOff (hsplit : ¬ getField m a .size < wadd size minBlockSize)
    (hnew : wadd (wadd a headerSize) size = x) :
    ∃ v, splitBlock m a size = setField (setField (relinkPrev (cutOff m a x v)
      (getField (cutOff m a x v) a .next) x) a .size size) a .next x := by
  rw [splitBlock, if_neg hsplit, hnew]
  exact ⟨_, rfl⟩

theorem getField_setField_of_bytes {y : Nat} {f g : Field}
    (hapart : ByteMemory.Apart (x + f.offset) f.width (y + g.offset) g.width) :
    getField (setField m y g v) x f = getField m x f :=
  ByteMemory.read_write_of_apart hapart

theorem next_cutOff_apart (hcase : a = 8 ∧ x = 2 ^ 64 - 8 ∨ a = 16 ∧ x = 0) :
    getField (cutOff m a x v) a .next = getField m a .next := by
  obtain ⟨rfl, rfl⟩ | ⟨rfl, rfl⟩ := hcase
  all_goals
    rw [cutOff, getField_setField_of_bytes (by decide), getField_setField_of_bytes (by decide),
      getField_setField_of_bytes (by decide), getField_setField_of_bytes (by decide)]

/-- There the back link of the header cut off is the next link of the block. -/
theorem next_cutOff_touching : getField (cutOff m 8 0 v) 8 .next = 8 :=
  ByteMemory.read_write_self (by decide)

/-- Past the end of the heap: the header cut off wraps around the address space onto that of the block. -/
theorem splitBlock_past (hsize : 2 ^ 64 - 48 ≤ getField m 8 .size) (hnext : getField m 8 .next = 0) :
    getField (splitBlock m 8 (2 ^ 64 - 48)) 8 .free ≠ 0 ∧
      getField (splitBlock m 8 (2 ^ 64 - 48)) (2 ^ 64 - 8) .free ≠ 0 := by
  have hsplit : ¬ getField m 8 .size < wadd (2 ^ 64 - 48) minBlockSize := by
    rw [minBlockSize_eq, wadd]
    omega
  obtain ⟨v, hv⟩ := splitBlock_cutOff (x := 2 ^ 64 - 8) hsplit (by decide)
  have hlink : getField (cutOff m 8 (2 ^ 64 - 8) v) 8 .next = 0 := by
    rw [next_cutOff_apart (Or.inl ⟨rfl, rfl⟩), hnext]
  rw [hv, hlink, relinkPrev, if_neg (by simp)]
  constructor
  · rw [getField_setField_of_ne (by decide) (by decide), getField_setField_of_ne (by decide) (by decide)]
    -- the back link of the header cut off covers the flag of the block
    have hback : ∀ m' : ByteMemory, setField m' (2 ^ 64 - 8) .prev 8 = m'.write 16 8 8 := fun m' =>
      ByteMemory.write_congr (by decide) rfl
    rw [cutOff, hback]
    change ByteMemory.read _ 16 4 ≠ 0
    rw [ByteMemory.read_write_prefix (by decide) (by decide)]
    decide
  · rw [getField_setField_of_bytes (by decide), getField_setField_of_bytes (by decide), cutOff,
      getField_setField_of_bytes (by decide), getField_setField_of_bytes (by decide),
      getField_setField_self (by decide)]
    decide

/-- On the null address, below a heap that starts at 16. -/
theorem splitBlock_below (hsize : 2 ^ 64 - 48 ≤ getField m 16 .size)
    (hnext : getField m 16 .next = 0) : getField (splitBlock m 16 (2 ^ 64 - 48)) 16 .free ≠ 0 := by
  have hsplit : ¬ getField m 16 .size < wadd (2 ^ 64 - 48) minBlockSize := by
    rw [minBlockSize_eq, wadd]
    omega
  obtain ⟨v, hv⟩ := splitBlock_cutOff (x := 0) hsplit (by decide)
  have hlink : getField (cutOff m 16 0 v) 16 .next = 0 := by
    rw [next_cutOff_apart (Or.inr ⟨rfl, rfl⟩), hnext]
  rw [hv, hlink, relinkPrev, if_neg (by simp), getField_setField_of_ne (by decide) (by decide),
    getField_setField_of_ne (by decide) (by decide), cutOff]
  -- the back link of the header cut off covers the flag of the block
  change ByteMemory.read (ByteMemory.write _ 24 8 16) 24 4 ≠ 0
  rw [ByteMemory.read_write_prefix (by decide) (by decide)]
  decide

/-- On the null address, below a heap that starts at 8. -/
theorem splitBlock_touching (hsize : 2 ^ 64 - 40 ≤ getField m 8 .size)
    (hnext : getField m 8 .next = 0) : getField (splitBlock m 8 (2 ^ 64 - 40)) 8 .free = 0 := by
  have hsplit : ¬ getField m 8 .size < wadd (2 ^ 64 - 40) minBlockSize := by
    rw [minBlockSize_eq, wadd]
    omega
  obtain ⟨v, hv⟩ := splitBlock_cutOff (x := 0) hsplit (by decide)
  have hkept : getField (setField (setField m 0 .size v) 0 .free 1) 8 .next = 0 := by
    rw [getField_setField_of_bytes (by decide), getField_setField_of_bytes (by decide), hnext]
  rw [hv, next_cutOff_touching, relinkPrev, if_pos (by simp), getField_setField_of_ne (by decide) (by decide),
    getField_setField_of_ne (by decide) (by decide),
    getField_setField_of_ne (by decide) (by decide), cutOff, hkept,
    getField_setField_of_bytes (by decide)]
  -- the next link of the header cut off covers the flag of the block
  exact ByteMemory.read_write_prefix (by decide) (by decide)

theorem blockListFrom_cons {l : List (Nat × Block)} {fuel : Nat} (hfuel : 0 < fuel) (hx : x ≠ 0)
    (hlist : blockListFrom m fuel x = some l) :
    ∃ tl, l = (x, ⟨getField m x .size, getField m x .free ≠ 0⟩) :: tl ∧
      blockListFrom m (fuel - 1) (getField m x .next) = some tl := by
  obtain ⟨fuel, rfl⟩ : ∃ k, fuel = k + 1 := ⟨fuel - 1, by omega⟩
  rw [blockListFrom, if_neg hx] at hlist
  obtain ⟨tl, htl, rfl⟩ := Option.map_eq_some_iff.mp hlist
  exact ⟨tl, rfl, htl⟩

/-- Two free blocks are listed first. -/
theorem not_accounted_past (total used : Nat) (hsize : 2 ^ 64 - 48 ≤ getField m 8 .size)
    (hnext : getField m 8 .next = 0) :
    ¬ Accounted ⟨splitBlock m 8 (2 ^ 64 - 48), 8, total, used⟩ := by
  rintro ⟨l, hlist, -, hsep, -⟩
  obtain ⟨hfirst, hsecond⟩ := splitBlock_past hsize hnext
  have hlink : getField (splitBlock m 8 (2 ^ 64 - 48)) 8 .next = 2 ^ 64 - 8 := by
    rw [getField_splitBlock_wrapped (by rw [minBlockSize_eq, wadd]; omega)]
    decide
  rw [blockList] at hlist
  dsimp only at hlist
  obtain ⟨tl, rfl, htl⟩ := blockListFrom_cons (by decide) (by decide) hlist
  rw [hlink] at htl
  obtain ⟨tl', rfl, -⟩ := blockListFrom_cons (by decide) (by decide) htl
  rw [List.map_cons, List.map_cons, separated_cons] at hsep
  simp only [List.head?_cons, Option.mem_some_iff, forall_eq', decide_eq_true_eq] at hsep
  exact hsep.1 ⟨hfirst, hsecond⟩

/-- The only block counts as free. -/
theorem not_accounted_below (total : Nat) {used : Nat} (hused : used ≠ 0)
    (hsize : 2 ^ 64 - 48 ≤ getField m 16 .size) (hnext : getField m 16 .next = 0) :
    ¬ Accounted ⟨splitBlock m 16 (2 ^ 64 - 48), 16, total, used⟩ := by
  rintro ⟨l, hlist, hcount, -⟩
  have hflag := splitBlock_below hsize hnext
  have hlink : getField (splitBlock m 16 (2 ^ 64 - 48)) 16 .next = 0 := by
    rw [getField_splitBlock_wrapped (by rw [minBlockSize_eq, wadd]; omega)]
    decide
  rw [blockList] at hlist
  dsimp only at hlist
  obtain ⟨tl, rfl, htl⟩ := blockListFrom_cons (by decide) (by decide) hlist
  rw [hlink] at htl
  obtain rfl : [] = tl := Option.some_inj.mp htl
  rw [List.map_cons, List.map_nil, usedBytes, decide_eq_true hflag] at hcount
  exact hused hcount

/-- The block fills the heap again. -/
theorem laid_touching {total : Nat} (used : Nat) (htotal : 8 + total = 2 ^ 64)
    (hsize : getField m 8 .size = 2 ^ 64 - 40) (hnext : getField m 8 .next = 0)
    (hprev : getField m 8 .prev = 0) :
    Laid ⟨splitBlock m 8 (2 ^ 64 - 40), 8, total, used⟩ [⟨2 ^ 64 - 40, false⟩] := by
  have hflag := splitBlock_touching hsize.ge hnext
  have hfull : 8 + 32 + (2 ^ 64 - 40) = 2 ^ 64 := by decide
  obtain ⟨hfsize, hfnext, hfprev⟩ := splitBlock_null (Or.inl rfl) hfull hsize hprev (Or.inl hnext)
  exact laid_single hfsize hflag hfnext hfprev (by decide) (by omega) htotal.le (by decide)
    (by decide)

theorem accounted_wrapped_iff (hrep : Represents h (l₁ ++ b :: l₂)) (hb : b.free = false)
    (hstart : h.heapStart % 8 = 0) (hmod : size % 8 = 0) (hle : size ≤ b.size)
    (hwrap : 2 ^ 64 ≤ size + 48) :
    Accounted { h with mem := splitBlock h.mem (endOf h.heapStart l₁) size } ↔
      endOf h.heapStart l₁ = 8 ∧ size = 2 ^ 64 - 40 := by
  have hroom := hrep.payload_lt
  have hend := hrep.end_le
  obtain rfl := first_of_wrap size hrep.toLaid hwrap (by omega)
  have htiles := hrep.tiles
  have hheader := hrep.header
  have hused := hrep.used
  simp only [List.nil_append, endOf_nil, endOf_cons] at *
  obtain rfl := nil_of_full (h.heapStart + 32 + b.size) l₂ (by omega)
  obtain ⟨m, a, total, used⟩ := h
  have hnext : getField m a .next = 0 := by rw [hheader.next, if_pos rfl]
  have hsize : getField m a .size = b.size := hheader.size
  have hprev : getField m a .prev = 0 := hheader.prev
  simp only [usedBytes, hb, Bool.false_eq_true, if_false, endOf_nil] at *
  obtain ⟨rfl, rfl⟩ | ⟨rfl, rfl⟩ | ⟨rfl, rfl⟩ : a = 8 ∧ size = 2 ^ 64 - 48 ∨
      a = 16 ∧ size = 2 ^ 64 - 48 ∨ a = 8 ∧ size = 2 ^ 64 - 40 := by omega
  · exact iff_of_false (not_accounted_past total used (by omega) hnext) (by omega)
  · exact iff_of_false (not_accounted_below total (by omega) (by omega) hnext) (by omega)
  · refine iff_of_true ?_ ⟨rfl, rfl⟩
    rw [(laid_touching used (by omega) (by omega) hnext hprev).accounted_iff]
    refine ⟨?_, List.isChain_singleton _⟩
    simp only [usedBytes, Bool.false_eq_true, if_false]
    omega

/-- Nothing is cut off; or the bound wraps and the part cut off lands on the null address, below a heap
that starts at 8. -/
def LeavesWhole (h : Heap) (ptr n : Nat) : Prop :=
  if roundUp n + minBlockSize < 2 ^ 64 then h.kmallocSize ptr < roundUp n + minBlockSize
  else ptr = 40 ∧ roundUp n = 2 ^ 64 - 40

instance (h : Heap) (ptr n : Nat) : Decidable (h.LeavesWhole ptr n) :=
  inferInstanceAs (Decidable (ite _ _ _))

/-- **Shrinking.** In every heap reached by calls that keep the bound of `split_block` from wrapping,
`krealloc` of a live pointer to a size it has leaves the counters right and no two free neighbours exactly
when nothing is cut off, up to the one case in which the part cut off vanishes. -/
theorem shrink_accounted_iff (h : Heap) (start size : Nat) (hacc : Accepts start size) {s : Session}
    (hrun : Session.Run Session.Bounded ⟨h.heapInit start size, []⟩ s) {p n : Nat}
    (hp : p ∈ s.live) (hpos : 1 ≤ n) (hle : roundUp n ≤ s.heap.kmallocSize p) :
    (∃ r, s.heap.krealloc p n = some r ∧ r.2.Accounted) ↔ s.heap.LeavesWhole p n := by
  obtain ⟨bs, hrep, hlive⟩ := (Session.sound_heapInit h hacc).run hrun
  obtain ⟨l₁, b, l₂, rfl, hb, hptr⟩ := Session.block_of_live hlive hp
  have hstart : s.heap.heapStart % 8 = 0 := by
    rw [(Session.sameRange_run hrun).start]
    exact heapStart_heapInit_mod h hacc
  have hsize : s.heap.kmallocSize p = b.size := by rw [hptr, kmallocSize_eq hrep.toLaid]
  have hroom := hrep.payload_lt
  have hround : alignSize n = roundUp n := by
    refine alignSize_of_le ?_
    rw [hsize] at hle
    unfold roundUp at hle
    omega
  have hmod := alignSize_mod n
  rw [hsize] at hle
  rw [krealloc_shrink hrep hptr hpos (by omega), LeavesWhole, hsize, ← hround, minBlockSize_eq]
  by_cases hbound : alignSize n + 48 < 2 ^ 64
  · rw [if_pos hbound, ← accounted_shrink_iff hrep hb hbound hmod]
    simp
  · rw [if_neg hbound]
    have hwrapped := accounted_wrapped_iff hrep hb hstart hmod (by omega) (not_lt.mp hbound)
    rw [show p = 40 ↔ endOf s.heap.heapStart l₁ = 8 by omega, ← hwrapped]
    simp

theorem shrink_accounted_smallSession :
    ∃ r, smallSession.heap.krealloc 0x400028 60 = some r ∧ r.2.Accounted :=
  (shrink_accounted_iff blank 0x400001 0x1000 ⟨by decide, by decide, by decide⟩
    (Relation.ReflTransGen.single
      ⟨.kmalloc 100, by decide, Or.inr (Or.inl (by decide)), (Option.some_get _).symm⟩)
    (by decide +kernel) (by decide) (by decide +kernel)).mpr (by decide +kernel)

/-- Shrunk to 8 bytes, its 104 are still counted, and what is cut off stays apart from the free block
behind it. -/
theorem not_accounted_smallSession : Accepts 0x400001 0x1000 ∧
    Session.Run (fun _ _ => True) ⟨blank.heapInit 0x400001 0x1000, []⟩ smallSession ∧
    0x400028 ∈ smallSession.live ∧ roundUp 8 ≤ smallSession.heap.kmallocSize 0x400028 ∧
    ¬ ∃ r, smallSession.heap.krealloc 0x400028 8 = some r ∧ r.2.Accounted := by
  refine ⟨⟨by decide, by decide, by decide⟩, Relation.ReflTransGen.single
    ⟨.kmalloc 100, by decide, trivial, (Option.some_get _).symm⟩, by decide +kernel,
    by decide +kernel, ?_⟩
  rintro ⟨r, hr, l, hlist, hused, -⟩
  have hcount : (smallSession.heap.krealloc 0x400028 8).map (fun r => r.2.heapGetUsedSize) =
      some 136 := by decide +kernel
  have hblocks : (smallSession.heap.krealloc 0x400028 8).map
      (fun r => r.2.blockList.map fun l => usedBytes (l.map Prod.snd)) = some (some 40) := by
    decide +kernel
  rw [hr, Option.map_some, Option.some_inj] at hcount hblocks
  rw [hlist, Option.map_some, Option.some_inj] at hblocks
  omega

end Heap

end SimpleOs
