import SimpleOs.Proof.HeapBlocks
import SimpleOs.Proof.HeapEdit

/-!
# The allocator refines the block list

`Laid h bs` says that memory holds the block list `bs` and that it fills the heap; `Represents h bs`
adds what the allocator keeps on top of it: no free neighbours and a right byte counter. `heap_init`
establishes it; `kmalloc` and `kfree` carry it along the list operations, so a call can be read off
the list alone.
-/

namespace SimpleOs.Heap

structure Laid (h : Heap) (bs : List Block) : Prop where
  chain : Chain h.mem 0 h.heapStart bs 0
  start : 0 < h.heapStart
  nonempty : bs ≠ []
  tiles : endOf h.heapStart bs = h.heapStart + h.heapTotalSize
  end_le : h.heapStart + h.heapTotalSize ≤ 2 ^ 64
  shaped : Shaped bs

structure Represents (h : Heap) (bs : List Block) : Prop extends Laid h bs where
  separated : Separated bs
  used : h.heapUsedSize = usedBytes bs

variable {h : Heap} {m : ByteMemory} {a s x prev size n fuel : Nat} {b c : Block}
  {bs l₁ l₂ : List Block}

theorem Laid.endOf_le (hlaid : Laid h bs) : endOf h.heapStart bs ≤ 2 ^ 64 :=
  hlaid.tiles ▸ hlaid.end_le

theorem Laid.header (hlaid : Laid h (l₁ ++ b :: l₂)) :
    Header h.mem (endOf h.heapStart l₁) b
      (if l₂ = [] then 0 else endOf h.heapStart l₁ + 32 + b.size)
      (lastHeader 0 h.heapStart l₁) :=
  hlaid.chain.header

/-- A payload starts before the end of the address space: only the last block can touch the end, and
it is not empty. -/
theorem Laid.payload_lt (hlaid : Laid h (l₁ ++ b :: l₂)) :
    0 < endOf h.heapStart l₁ ∧ endOf h.heapStart l₁ + 32 < 2 ^ 64 ∧
      endOf h.heapStart l₁ + 32 + b.size ≤ 2 ^ 64 := by
  have hend := hlaid.endOf_le
  have hle := le_endOf (endOf h.heapStart l₁ + 32 + b.size) l₂
  have hfirst := le_endOf h.heapStart l₁
  have hstart := hlaid.start
  rw [endOf_append, endOf_cons] at hend
  refine ⟨by omega, ?_, by omega⟩
  cases l₂ with
  | nil =>
      have hpos := hlaid.shaped.last b (by simp)
      rw [endOf_nil] at hend
      omega
  | cons c l₃ =>
      have hnext := le_endOf (endOf h.heapStart l₁ + 32 + b.size + 32 + c.size) l₃
      rw [endOf_cons] at hend
      omega

theorem Laid.wsub_payload (hlaid : Laid h (l₁ ++ b :: l₂)) :
    wsub (endOf h.heapStart l₁ + 32) headerSize = endOf h.heapStart l₁ := by
  have hpos := hlaid.payload_lt
  rw [headerSize_eq, wsub_of_le (by omega) hpos.2.1]
  omega

theorem findFreeBlockFrom_chain (size : Nat) (hchain : Chain m prev a bs 0) (ha : 0 < a)
    (hfuel : bs.length < fuel) :
    (∃ l₁ b l₂, bs = l₁ ++ b :: l₂ ∧ (∀ c ∈ l₁, ¬ c.Fits size) ∧ b.Fits size ∧
      findFreeBlockFrom m size fuel (if bs = [] then 0 else a) = some (endOf a l₁)) ∨
    ((∀ c ∈ bs, ¬ c.Fits size) ∧
      findFreeBlockFrom m size fuel (if bs = [] then 0 else a) = some 0) := by
  induction bs generalizing prev a fuel with
  | nil =>
      obtain ⟨fuel, rfl⟩ := Nat.exists_eq_add_of_lt hfuel
      exact Or.inr ⟨by simp, by simp [findFreeBlockFrom]⟩
  | cons b bs ih =>
      obtain ⟨fuel, rfl⟩ : ∃ k, fuel = k + 1 := ⟨fuel - 1, by omega⟩
      obtain ⟨hheader, htail⟩ := hchain
      have hcond : (getField m a .free ≠ 0 ∧ size ≤ getField m a .size) ↔ b.Fits size := by
        rw [hheader.free, hheader.size, Block.Fits]
      have hstep : findFreeBlockFrom m size (fuel + 1) a =
          if b.Fits size then some a
          else findFreeBlockFrom m size fuel (if bs = [] then 0 else a + 32 + b.size) := by
        rw [findFreeBlockFrom, if_neg (by omega), hheader.next]
        exact if_congr hcond rfl rfl
      rw [if_neg (by simp), hstep]
      by_cases hfits : b.Fits size
      · exact Or.inl ⟨[], b, bs, rfl, by simp, hfits, if_pos hfits⟩
      · rw [if_neg hfits]
        rw [List.length_cons] at hfuel
        obtain ⟨l₁, c, l₂, rfl, hfirst, hc, hfind⟩ | ⟨hnone, hfind⟩ :=
          ih htail (by omega) (by omega : bs.length < fuel)
        · exact Or.inl ⟨b :: l₁, c, l₂, rfl, by simpa [hfits] using hfirst, hc, hfind⟩
        · exact Or.inr ⟨by simpa [hfits] using hnone, hfind⟩

theorem findFreeBlock_cases (size : Nat) (hrep : Represents h bs) :
    (∃ l₁ b l₂, bs = l₁ ++ b :: l₂ ∧ (∀ c ∈ l₁, ¬ c.Fits size) ∧ b.Fits size ∧
      h.findFreeBlock size = some (endOf h.heapStart l₁)) ∨
    ((∀ c ∈ bs, ¬ c.Fits size) ∧ h.findFreeBlock size = some 0) := by
  have hlength := length_le_endOf h.heapStart bs
  have hend := hrep.endOf_le
  have hstart := hrep.start
  have hfind := findFreeBlockFrom_chain size hrep.chain hrep.start
    (by omega : bs.length < 2 ^ 64)
  rwa [if_neg hrep.nonempty] at hfind

theorem alignSize_mod (n : Nat) : alignSize n % 8 = 0 := by
  rw [alignSize, alignDown_eq (wadd_lt _ _)]
  omega

theorem chain_take (hrep : Represents h (l₁ ++ b :: l₂))
    (hbound : size + 48 < 2 ^ 64) :
    Chain (setField (splitBlock h.mem (endOf h.heapStart l₁) size) (endOf h.heapStart l₁) .free 0)
      0 h.heapStart (l₁ ++ (carve size b ++ l₂)) 0 := by
  have hend := hrep.endOf_le
  obtain ⟨hsplit, hcarve⟩ | ⟨hsmall, hcarve⟩ := carve_cases size b
  · rw [hcarve]
    refine chain_setFree false (chain_splitBlock hrep.chain hend hsplit) ?_
    simp only [endOf_append, endOf_cons] at hend ⊢
    rwa [show endOf h.heapStart l₁ + 32 + size + 32 + (b.size - size - 32) =
      endOf h.heapStart l₁ + 32 + b.size by omega]
  · have hkeep : splitBlock h.mem (endOf h.heapStart l₁) size = h.mem := by
      rw [splitBlock, if_pos]
      rw [hrep.header.size, minBlockSize_eq, wadd_of_lt hbound]
      exact hsmall
    rw [hkeep, hcarve]
    exact chain_setFree false hrep.chain hend

/-- The blocks after the allocation of `size` bytes: the first block that fits is carved. -/
structure Carves (h h' : Heap) (bs : List Block) (size ptr : Nat) (l₁ : List Block) (b : Block)
    (l₂ : List Block) : Prop where
  blocks : bs = l₁ ++ b :: l₂
  first : ∀ c ∈ l₁, ¬ c.Fits size
  fits : b.Fits size
  ptr : ptr = endOf h.heapStart l₁ + 32
  start : h'.heapStart = h.heapStart
  total : h'.heapTotalSize = h.heapTotalSize
  after : Represents h' (l₁ ++ (carve size b ++ l₂))

theorem represents_take (hrep : Represents h (l₁ ++ b :: l₂)) (hfits : b.Fits size)
    (hbound : size + 48 < 2 ^ 64) (hsize : size % 8 = 0) :
    Represents { h with
        mem := setField (splitBlock h.mem (endOf h.heapStart l₁) size) (endOf h.heapStart l₁) .free 0
        heapUsedSize := wadd h.heapUsedSize (wadd (getField (setField
          (splitBlock h.mem (endOf h.heapStart l₁) size) (endOf h.heapStart l₁) .free 0)
          (endOf h.heapStart l₁) .size) headerSize) }
      (l₁ ++ (carve size b ++ l₂)) := by
  have hchain := chain_take hrep hbound
  have htiles : endOf h.heapStart (l₁ ++ (carve size b ++ l₂)) =
      h.heapStart + h.heapTotalSize := by
    rw [← hrep.tiles, endOf_append, endOf_append, endOf_carve, endOf_append, endOf_cons]
  refine ⟨⟨hchain, hrep.start, ?_, htiles, hrep.end_le, shaped_carve hrep.shaped hsize⟩,
    separated_carve size hrep.separated hfits.1, ?_⟩
  · have hne := congrArg List.length (payloads_carve size 0 b)
    rintro hnil
    simp_all [payloads]
  · have hbytes := usedBytes_le_endOf h.heapStart (l₁ ++ (carve size b ++ l₂))
    have hend := hrep.end_le
    have hstart := hrep.start
    have hused := hrep.used
    have hfree := hfits.1
    rw [htiles] at hbytes
    obtain ⟨-, hcarve⟩ | ⟨-, hcarve⟩ := carve_cases size b
    all_goals
      rw [hcarve] at hchain hbytes ⊢
      simp only [List.cons_append, List.nil_append] at hchain hbytes ⊢
      rw [hchain.header.size, headerSize_eq]
      simp only [usedBytes_append, usedBytes, hfree, if_true, Bool.false_eq_true, if_false,
        zero_add] at hused hbytes ⊢
      rw [wadd_of_lt (b := 32) (by omega), wadd_of_lt (by omega), hused]
      omega

/-- The bound computed by `split_block` does not wrap, or it is not reached. -/
def Unwrapped (h : Heap) (n : Nat) : Prop :=
  alignSize n + minBlockSize < 2 ^ 64 ∨ h.findFreeBlock (alignSize n) = some 0

theorem kmalloc_eq_zero (hnone : n = 0 ∨ h.findFreeBlock (alignSize n) = some 0) :
    h.kmalloc n = some (0, h) := by
  by_cases hzero : n = 0
  · exact if_pos hzero
  · rw [kmalloc, if_neg hzero, hnone.resolve_left hzero, Option.map_some, if_pos rfl]

/-- `kmalloc` returns: null with the heap unchanged, or the payload of the block it carved. -/
theorem kmalloc_cases (hrep : Represents h bs) (hsafe : n = 0 ∨ h.Unwrapped n) :
    ((n = 0 ∨ ∀ c ∈ bs, ¬ c.Fits (alignSize n)) ∧ h.kmalloc n = some (0, h)) ∨
    (∃ p h' l₁ b l₂, h.kmalloc n = some (p, h') ∧ Carves h h' bs (alignSize n) p l₁ b l₂) := by
  by_cases hzero : n = 0
  · exact Or.inl ⟨Or.inl hzero, kmalloc_eq_zero (Or.inl hzero)⟩
  obtain ⟨l₁, b, l₂, rfl, hfirst, hfits, hfind⟩ | ⟨hnone, hfind⟩ :=
    findFreeBlock_cases (alignSize n) hrep
  swap
  · exact Or.inl ⟨Or.inr hnone, kmalloc_eq_zero (Or.inr hfind)⟩
  have hbound : alignSize n + 48 < 2 ^ 64 := by
    obtain hbound | hnull := hsafe.resolve_left hzero
    · exact hbound
    · have hpos := hrep.payload_lt.1
      rw [hfind, Option.some_inj] at hnull
      omega
  refine Or.inr ⟨endOf h.heapStart l₁ + 32, _, l₁, b, l₂, ?_, rfl, hfirst, hfits, rfl, ?_, ?_,
    represents_take hrep hfits hbound (alignSize_mod n)⟩
  · have hpos := hrep.payload_lt
    have hptr : wadd (endOf h.heapStart l₁) headerSize = endOf h.heapStart l₁ + 32 :=
      wadd_of_lt hpos.2.1
    rw [kmalloc, if_neg hzero, hfind, Option.map_some, if_neg (by omega), hptr]
  · rfl
  · rfl

theorem coalesceNext_eq (hnext : getField m a .next ≠ 0)
    (hfree : getField m (getField m a .next) .free ≠ 0)
    (hapart : HeadersApart (getField m a .next) a)
    (hsum : getField m a .size + 32 + getField m (getField m a .next) .size < 2 ^ 64) :
    coalesceNext m a =
      absorb m a (getField m a .size + 32 + getField m (getField m a .next) .size)
        (getField m (getField m a .next) .next) := by
  have hsize : wadd (getField m a .size)
      (wadd headerSize (getField m (getField m a .next) .size)) =
      getField m a .size + 32 + getField m (getField m a .next) .size := by
    rw [headerSize_eq, wadd_of_lt (a := 32) (by omega), wadd_of_lt (by omega), add_assoc]
  have hnext' : ∀ v, getField (setField m a .size v) a .next = getField m a .next := fun v =>
    getField_setField_of_ne (by decide) hapart.2.2
  rw [coalesceNext, if_pos ⟨hnext, hfree⟩, hsize]
  simp only [hnext', getField_setField_of_apart hapart]
  rw [getField_setField_self (getField_lt m _ .next)]
  rfl

/-- Whatever the sizes say: a previous block that is free takes on the next link. -/
theorem coalescePrev_absorb (hprev : getField m x .prev ≠ 0)
    (hfree : getField m (getField m x .prev) .free ≠ 0)
    (hapart : HeadersApart x (getField m x .prev)) :
    coalescePrev m x =
      absorb m (getField m x .prev) (wadd (getField m (getField m x .prev) .size)
        (wadd headerSize (getField m x .size))) (getField m x .next) := by
  rw [coalescePrev, if_pos ⟨hprev, hfree⟩]
  simp only [getField_setField_of_apart hapart]
  rfl

theorem coalescePrev_eq (hprev : getField m x .prev ≠ 0)
    (hfree : getField m (getField m x .prev) .free ≠ 0)
    (hapart : HeadersApart x (getField m x .prev))
    (hsum : getField m (getField m x .prev) .size + 32 + getField m x .size < 2 ^ 64) :
    coalescePrev m x =
      absorb m (getField m x .prev) (getField m (getField m x .prev) .size + 32 +
        getField m x .size) (getField m x .next) := by
  have hsize : wadd (getField m (getField m x .prev) .size)
      (wadd headerSize (getField m x .size)) =
      getField m (getField m x .prev) .size + 32 + getField m x .size := by
    rw [headerSize_eq, wadd_of_lt (a := 32) (by omega), wadd_of_lt (by omega), add_assoc]
  rw [coalescePrev_absorb hprev hfree hapart, hsize]

theorem coalesceNext_cases (hchain : Chain m prev s (l₁ ++ b :: l₂) 0) (hs : 0 < s)
    (hend : endOf s (l₁ ++ b :: l₂) ≤ 2 ^ 64) (hb : b.free = true) :
    (∃ c l₃, l₂ = c :: l₃ ∧ joinFree b l₂ = ⟨b.size + 32 + c.size, b.free⟩ :: l₃ ∧
      coalesceNext m (endOf s l₁) = absorb m (endOf s l₁) (b.size + 32 + c.size)
        (if l₃ = [] then 0 else endOf s l₁ + 32 + b.size + 32 + c.size)) ∨
    (joinFree b l₂ = b :: l₂ ∧ coalesceNext m (endOf s l₁) = m) := by
  have hheader := hchain.header
  have hpos := le_endOf s l₁
  obtain ⟨c, l₃, rfl, -, hc, hjoin⟩ | ⟨hhead, hjoin⟩ := joinFree_cases b l₂
  · have hneighbour := hchain.neighbour
    have hlen := le_endOf (endOf s l₁ + 32 + b.size + 32 + c.size) l₃
    rw [endOf_append, endOf_cons, endOf_cons] at hend
    have hnext : getField m (endOf s l₁) .next = endOf s l₁ + 32 + b.size := by
      rw [hheader.next, if_neg (by simp)]
    have hmerge := coalesceNext_eq (m := m) (a := endOf s l₁)
    rw [hnext, hheader.size, hneighbour.size, hneighbour.free, hneighbour.next, hc] at hmerge
    refine Or.inl ⟨c, l₃, rfl, by rw [hjoin, hb], ?_⟩
    exact hmerge (by omega) (by decide) ⟨by omega, by omega, by omega⟩ (by omega)
  · refine Or.inr ⟨hjoin, ?_⟩
    rw [coalesceNext, if_neg]
    rintro ⟨hne, hfree⟩
    cases l₂ with
    | nil => exact hne (by rw [hheader.next, if_pos rfl])
    | cons c l₃ =>
        rw [hheader.next, if_neg (by simp), hchain.neighbour.free] at hfree
        exact hhead c (by simp) ⟨hb, hfree⟩

theorem coalescePrev_cases (hchain : Chain m prev s (l₁ ++ c :: b :: l₂) 0) (hs : 0 < s)
    (hend : endOf s (l₁ ++ c :: b :: l₂) ≤ 2 ^ 64) (hb : b.free = true) :
    (joinFree c (b :: l₂) = ⟨c.size + 32 + b.size, c.free⟩ :: l₂ ∧
      coalescePrev m (endOf s l₁ + 32 + c.size) = absorb m (endOf s l₁) (c.size + 32 + b.size)
        (if l₂ = [] then 0 else endOf s l₁ + 32 + c.size + 32 + b.size)) ∨
    (joinFree c (b :: l₂) = c :: b :: l₂ ∧ coalescePrev m (endOf s l₁ + 32 + c.size) = m) := by
  have hheader := hchain.header
  have hneighbour := hchain.neighbour
  have hpos := le_endOf s l₁
  by_cases hc : c.free = true
  · have hlen := le_endOf (endOf s l₁ + 32 + c.size + 32 + b.size) l₂
    rw [endOf_append, endOf_cons, endOf_cons] at hend
    have hmerge := coalescePrev_eq (m := m) (x := endOf s l₁ + 32 + c.size)
    rw [hneighbour.prev, hheader.free, hheader.size, hneighbour.size, hneighbour.next, hc] at hmerge
    refine Or.inl ⟨by simp [joinFree, hb, hc], ?_⟩
    exact hmerge (by omega) (by decide) ⟨by omega, by omega, by omega⟩ (by omega)
  · refine Or.inr ⟨by simp [joinFree, hc], ?_⟩
    rw [coalescePrev, if_neg]
    rw [hneighbour.prev, hheader.free]
    simp [hc]

theorem chain_coalesceNext (hchain : Chain m prev s (l₁ ++ b :: l₂) 0) (hs : 0 < s)
    (hend : endOf s (l₁ ++ b :: l₂) ≤ 2 ^ 64) (hb : b.free = true) :
    Chain (coalesceNext m (endOf s l₁)) prev s (l₁ ++ joinFree b l₂) 0 := by
  obtain ⟨c, l₃, rfl, hjoin, hmem⟩ | ⟨hjoin, hmem⟩ := coalesceNext_cases hchain hs hend hb
  · rw [hjoin, hmem]
    exact chain_absorb hchain hend
  · rw [hjoin, hmem]
    exact hchain

theorem chain_coalescePrev (hchain : Chain m prev s (l₁ ++ c :: b :: l₂) 0) (hs : 0 < s)
    (hend : endOf s (l₁ ++ c :: b :: l₂) ≤ 2 ^ 64) (hb : b.free = true) :
    Chain (coalescePrev m (endOf s l₁ + 32 + c.size)) prev s (l₁ ++ joinFree c (b :: l₂)) 0 := by
  obtain ⟨hjoin, hmem⟩ | ⟨hjoin, hmem⟩ := coalescePrev_cases hchain hs hend hb
  · rw [hjoin, hmem]
    exact chain_absorb hchain hend
  · rw [hjoin, hmem]
    exact hchain

/-- Coalescing around a block between separated lists merges exactly what can be merged. -/
theorem chain_coalesceBlocks (hchain : Chain m 0 s (l₁ ++ b :: l₂) 0) (hs : 0 < s)
    (hend : endOf s (l₁ ++ b :: l₂) ≤ 2 ^ 64) (hb : b.free = true) (hleft : Separated l₁)
    (hright : Separated l₂) :
    Chain (coalesceBlocks m (endOf s l₁)) 0 s (coalesce (l₁ ++ b :: l₂)) 0 := by
  have hnext := chain_coalesceNext hchain hs hend hb
  have hfree := free_of_mem_head_joinFree b l₂
  have hextent := endOf_joinFree (endOf s l₁) b l₂
  obtain rfl | ⟨l₀, c, rfl⟩ := List.eq_nil_or_concat' l₁
  · rw [List.nil_append, coalesce_first b hright, coalesceBlocks]
    obtain ⟨d, tl, hjoin⟩ := List.exists_cons_of_ne_nil (joinFree_ne_nil b l₂)
    rw [hjoin] at hnext ⊢
    rw [coalescePrev, if_neg]
    · exact hnext
    · exact fun hprev => hprev.1 hnext.1.prev
  · rw [List.append_assoc, List.singleton_append, coalesce_middle b hleft hright, coalesceBlocks]
    rw [endOf_append] at hend
    obtain ⟨d, tl, hjoin⟩ := List.exists_cons_of_ne_nil (joinFree_ne_nil b l₂)
    rw [hjoin, List.append_assoc, List.singleton_append] at hnext
    rw [hjoin] at hfree hextent ⊢
    rw [← hextent] at hend
    have hd : d.free = true := (hfree d (by simp)).trans hb
    simp only [endOf_append, endOf_cons, endOf_nil] at hend hnext ⊢
    exact chain_coalescePrev hnext hs (by simpa using hend) hd

theorem kfree_free {ptr : Nat} (hfree : getField h.mem (wsub ptr headerSize) .free ≠ 0) :
    h.kfree ptr = h := by
  rw [kfree]
  split
  · rfl
  · exact if_pos hfree

/-- `kfree` goes by what stands in the 32 bytes before its argument. -/
theorem kfree_inUse {ptr : Nat} (hptr : ptr ≠ 0) (hblock : wsub ptr headerSize = x)
    (hroom : x + 32 ≤ 2 ^ 64) (hinuse : getField h.mem x .free = 0) :
    h.kfree ptr =
      { h with
        mem := coalesceBlocks (setField h.mem x .free 1) x
        heapUsedSize := wsub h.heapUsedSize (wadd (getField h.mem x .size) headerSize) } := by
  have hsize : getField (setField h.mem x .free 1) x .size = getField h.mem x .size :=
    getField_setField_of_ne (by decide) hroom
  rw [kfree, if_neg hptr, hblock, if_neg (not_not.mpr hinuse)]
  simp only [hsize]

theorem kfree_eq (hrep : Represents h (l₁ ++ b :: l₂)) (hb : b.free = false) :
    h.kfree (endOf h.heapStart l₁ + 32) =
      { h with
        mem := coalesceBlocks (setField h.mem (endOf h.heapStart l₁) .free 1)
          (endOf h.heapStart l₁)
        heapUsedSize := wsub h.heapUsedSize (wadd b.size headerSize) } := by
  have hpos := hrep.payload_lt
  have hheader := hrep.header
  have hinuse : getField h.mem (endOf h.heapStart l₁) .free = 0 := by
    by_contra hfree
    rw [← ne_eq, hheader.free, hb] at hfree
    cases hfree
  rw [kfree_inUse (by omega) hrep.wsub_payload (by omega) hinuse, hheader.size]

theorem usedBytes_kfree (hrep : Represents h (l₁ ++ b :: l₂)) (hb : b.free = false) :
    wsub h.heapUsedSize (wadd b.size headerSize) = usedBytes (l₁ ++ ⟨b.size, true⟩ :: l₂) := by
  have hbytes := usedBytes_le_endOf h.heapStart (l₁ ++ b :: l₂)
  have hend := hrep.endOf_le
  have hstart := hrep.start
  have hafter : usedBytes (l₁ ++ ⟨b.size, true⟩ :: l₂) = usedBytes l₁ + usedBytes l₂ := by
    simp [usedBytes]
  have hbefore : usedBytes (l₁ ++ b :: l₂) = usedBytes l₁ + (b.size + 32 + usedBytes l₂) := by
    simp [usedBytes, hb]
  rw [hbefore] at hbytes
  rw [hafter, hrep.used, hbefore, headerSize_eq, wadd_of_lt (by omega),
    wsub_of_le (by omega) (by omega)]
  omega

/-- Before anything is merged, the blocks of a release lie where they lay. -/
theorem Represents.chain_freed (hrep : Represents h (l₁ ++ b :: l₂)) :
    Chain (setField h.mem (endOf h.heapStart l₁) .free 1) 0 h.heapStart
      (l₁ ++ ⟨b.size, true⟩ :: l₂) 0 :=
  chain_setFree true hrep.chain hrep.endOf_le

theorem Represents.endOf_freed_le (hrep : Represents h (l₁ ++ b :: l₂)) :
    endOf h.heapStart (l₁ ++ ⟨b.size, true⟩ :: l₂) ≤ 2 ^ 64 := by
  have hle := hrep.endOf_le
  rw [endOf_append] at hle ⊢
  exact hle

/-- `kfree` of the payload of a block in use frees the block and merges it with its neighbours. -/
theorem represents_kfree (hrep : Represents h (l₁ ++ b :: l₂)) (hb : b.free = false) :
    Represents (h.kfree (endOf h.heapStart l₁ + 32)) (coalesce (l₁ ++ ⟨b.size, true⟩ :: l₂)) := by
  have hend : endOf h.heapStart (l₁ ++ ⟨b.size, true⟩ :: l₂) = endOf h.heapStart (l₁ ++ b :: l₂) :=
    by simp
  obtain ⟨hleft, hright, -⟩ := separated_append.mp hrep.separated
  have hmerged := chain_coalesceBlocks hrep.chain_freed hrep.start hrep.endOf_freed_le rfl hleft
    (separated_cons.mp hright).2
  rw [kfree_eq hrep hb]
  refine ⟨⟨?_, hrep.start, coalesce_ne_nil (by simp), ?_, hrep.end_le,
    shaped_coalesce (shaped_setFree true hrep.shaped)⟩, separated_coalesce _, ?_⟩
  · dsimp only
    exact hmerged
  · rw [endOf_coalesce, hend]
    exact hrep.tiles
  · rw [usedBytes_coalesce]
    exact usedBytes_kfree hrep hb

@[simp]
theorem heapStart_kfree (h : Heap) (ptr : Nat) : (h.kfree ptr).heapStart = h.heapStart := by
  unfold kfree
  split
  · rfl
  · simp only
    split <;> rfl

@[simp]
theorem heapTotalSize_kfree (h : Heap) (ptr : Nat) :
    (h.kfree ptr).heapTotalSize = h.heapTotalSize := by
  unfold kfree
  split
  · rfl
  · simp only
    split <;> rfl

/-- The arguments `heap_init` accepts, for a range inside the address space. -/
structure Accepts (start size : Nat) : Prop where
  start_ne : start ≠ 0
  size_ge : minBlockSize ≤ size
  range : start + size ≤ 2 ^ 64

theorem represents_heapInit (h : Heap) {start size : Nat} (hacc : Accepts start size) :
    ∃ b : Block, b.free = true ∧ Represents (h.heapInit start size) [b] := by
  obtain ⟨hne, hsize, hrange⟩ := hacc
  rw [minBlockSize_eq] at hsize
  obtain ⟨a, ha⟩ : ∃ a, a = (start + 7) / 8 * 8 := ⟨_, rfl⟩
  obtain ⟨t, ht⟩ : ∃ t, t = (size - (a - start)) / 8 * 8 := ⟨_, rfl⟩
  have hstart : alignDown (wadd start 7) = a := by
    rw [wadd_of_lt (by omega), alignDown_eq (by omega), ha]
  have hskip : wsub a start = a - start := wsub_of_le (by omega) (by omega)
  have htotal : alignDown (wsub size (a - start)) = t := by
    rw [wsub_of_le (by omega) (by omega), alignDown_eq (by omega), ht]
  have hheap : h.heapInit start size =
      ⟨setField (setField (setField (setField h.mem a .size (t - 32)) a .free 1) a .next 0)
        a .prev 0, a, t, 0⟩ := by
    have hreject : ¬ (start = 0 ∨ size < minBlockSize) := by
      rw [minBlockSize_eq]
      omega
    have hpayload : wsub t headerSize = t - 32 := wsub_of_le (by rw [headerSize_eq]; omega) (by omega)
    rw [heapInit, if_neg hreject, hstart]
    simp only [hskip, htotal, hpayload]
  have hroom : a + 32 ≤ 2 ^ 64 := by omega
  rw [hheap]
  refine ⟨⟨t - 32, true⟩, rfl, ⟨⟨⟨⟨?_, ?_, ?_, ?_⟩, trivial⟩, ?_, by simp, ?_, ?_, ?_⟩, ?_, rfl⟩⟩
  · simp only [getField_setField_of_ne (show Field.size ≠ .prev by decide) hroom,
      getField_setField_of_ne (show Field.size ≠ .next by decide) hroom,
      getField_setField_of_ne (show Field.size ≠ .free by decide) hroom]
    exact getField_setField_self (by simp only [Field.width]; omega)
  · simp only [getField_setField_of_ne (show Field.free ≠ .prev by decide) hroom,
      getField_setField_of_ne (show Field.free ≠ .next by decide) hroom]
    rw [getField_setField_self (by decide)]
    simp
  · simp only [getField_setField_of_ne (show Field.next ≠ .prev by decide) hroom]
    exact getField_setField_self (by decide)
  · exact getField_setField_self (by decide)
  · simp only
    omega
  · simp only [endOf_cons, endOf_nil]
    omega
  · simp only
    omega
  · refine ⟨fun b hb => ?_, fun b hb => ?_⟩
    · simp only [List.mem_singleton] at hb
      rw [hb]
      simp only
      omega
    · simp only [List.getLast?_singleton, Option.mem_some_iff] at hb
      rw [← hb]
      simp only
      omega
  · exact List.isChain_singleton _

end SimpleOs.Heap
