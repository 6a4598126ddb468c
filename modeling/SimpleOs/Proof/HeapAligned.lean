import SimpleOs.Proof.HeapGaps

/-!
# Aligned allocations

`kmalloc_aligned` stores the pointer it got from `kmalloc` in the word before the one it returns. Where
that word is depends on where the allocator happened to find room: payloads start at multiples of 8, so
if the payload found is not aligned already, the aligned address is at least 8 bytes further on and the
word lies in the payload; if it is, the word is the `prev` field of the block.
-/

namespace SimpleOs.Heap

variable {h h' : Heap} {m : ByteMemory} {a k n p q ptr size y : Nat} {b c : Block}
  {bs l₁ l₂ l₃ : List Block} {s : Session}

theorem endOf_mod (a : Nat) (hsizes : ∀ b ∈ bs, b.size % 8 = 0) : endOf a bs % 8 = a % 8 := by
  induction bs generalizing a with
  | nil => rfl
  | cons b bs ih =>
      have hb := hsizes b (by simp)
      rw [endOf_cons, ih _ fun c hc => hsizes c (by simp [hc])]
      omega

theorem heapStart_heapInit_mod (h : Heap) {start size : Nat} (hacc : Accepts start size) :
    (h.heapInit start size).heapStart % 8 = 0 := by
  obtain ⟨hne, hsize, -⟩ := hacc
  rw [heapInit, if_neg (by omega), alignDown_eq (wadd_lt _ _)]
  exact Nat.mul_mod_left _ _

theorem Laid.payload_mod (hlaid : Laid h (l₁ ++ b :: l₂)) (hmod : h.heapStart % 8 = 0) :
    (endOf h.heapStart l₁ + 32) % 8 = 0 := by
  have hfirst := endOf_mod h.heapStart fun c (hc : c ∈ l₁) => hlaid.shaped.aligned c (by simp [hc])
  omega

theorem laid_single {total used : Nat} (hsize : getField m a .size = size)
    (hfree : getField m a .free = 0) (hnext : getField m a .next = 0)
    (hprev : getField m a .prev = 0) (hpos : 0 < a) (htiles : a + 32 + size = a + total)
    (hend : a + total ≤ 2 ^ 64) (hmod : size % 8 = 0) (hne : 0 < size) :
    Laid ⟨m, a, total, used⟩ [⟨size, false⟩] := by
  refine ⟨⟨⟨hsize, by simp [hfree], hnext, hprev⟩, trivial⟩, hpos, by simp, htiles, hend, ?_, ?_⟩
  · simpa using hmod
  · simpa using hne

/-- Allocating keeps the heap laid out if the bound of the split does not wrap, and also if what is cut
off with a wrapped bound lands on the null address. -/
theorem laid_taken (hrep : Represents h (l₁ ++ b :: l₂)) (hmod : h.heapStart % 8 = 0)
    (hfits : b.Fits size) (hsize : size % 8 = 0)
    (hbound : size + 48 < 2 ^ 64 ∨ endOf h.heapStart l₁ + 32 + size = 2 ^ 64) :
    ∃ c l₃, Laid (h.taken (endOf h.heapStart l₁) size) (l₁ ++ c :: l₃) ∧ size ≤ c.size := by
  by_cases hwrap : size + 48 < 2 ^ 64
  · have hafter := (represents_taken hrep hfits hwrap hsize).toLaid
    obtain ⟨-, hcarve⟩ | ⟨-, hcarve⟩ := carve_cases size b
    · rw [hcarve] at hafter
      exact ⟨_, _, hafter, le_rfl⟩
    · rw [hcarve] at hafter
      exact ⟨_, _, hafter, hfits.2⟩
  have hroom := hrep.payload_lt
  have hle := hfits.2
  obtain rfl := first_of_wrap size hrep.toLaid (by omega) (by omega)
  have hend := hrep.end_le
  have htiles := hrep.tiles
  have hheader := hrep.header
  simp only [List.nil_append, endOf_nil, endOf_cons] at *
  have hfull := hbound.resolve_left hwrap
  obtain rfl := nil_of_full (h.heapStart + 32 + b.size) l₂ (by omega)
  rw [endOf_nil] at htiles
  have hnext : getField h.mem h.heapStart .next = 0 := by rw [hheader.next, if_pos rfl]
  obtain ⟨hfsize, hfnext, hfprev⟩ := splitBlock_null (m := h.mem) (by omega) hfull
    (by rw [hheader.size]; omega) hheader.prev (Or.inl hnext)
  refine ⟨⟨size, false⟩, [], laid_single ?_ ?_ ?_ ?_ hrep.start (by omega) hend hsize (by omega),
    le_rfl⟩
  · rw [getField_setField_of_ne (by decide) (by omega), hfsize]
  · exact getField_setField_self (by decide)
  · rw [getField_setField_of_ne (by decide) (by omega), hfnext]
  · rw [getField_setField_of_ne (by decide) (by omega), hfprev]

/-- Otherwise the block is linked to a header that does not fit in the heap. -/
theorem not_tiled_taken (hrep : Represents h (l₁ ++ b :: l₂)) (hfits : b.Fits size)
    (hwrap : 2 ^ 64 ≤ size + 48) (hne : endOf h.heapStart l₁ + 32 + size ≠ 2 ^ 64)
    (hnext : getField h'.mem h'.heapStart .next =
      getField (h.taken (endOf h.heapStart l₁) size).mem h.heapStart .next)
    (hrange : SameRange h h') : ¬ h'.Tiled := by
  have hroom := hrep.payload_lt
  have hle := hfits.2
  have hend := hrep.end_le
  obtain rfl := first_of_wrap size hrep.toLaid (by omega) (by omega)
  have hheader := hrep.header
  simp only [List.nil_append, endOf_nil] at *
  have hsplit : ¬ getField h.mem h.heapStart .size < wadd size minBlockSize := by
    rw [hheader.size, minBlockSize_eq, wadd]
    omega
  rw [taken, getField_setField_of_ne (by decide) (by omega), getField_splitBlock_wrapped hsplit,
    headerSize_eq, wadd_of_lt (a := h.heapStart) (by omega), wadd_of_lt (by omega)] at hnext
  apply not_tiled_of_next
  · omega
  · rw [hnext, hrange.start, hrange.total]
    omega

/-- Storing a word in the payload of a block changes no header. -/
theorem write_header_apply (hlaid : Laid h (l₁ ++ b :: l₂)) (hlow : endOf h.heapStart l₁ + 32 ≤ a)
    (hhigh : a + 8 ≤ endOf h.heapStart l₁ + 32 + b.size) {x i : Nat}
    (hx : x ∈ headers h.heapStart (l₁ ++ b :: l₂)) (hi : i < 32) (v : Nat) :
    h.mem.write a 8 v (x + i) = h.mem (x + i) := by
  apply ByteMemory.write_apply_of_outside
  intro j hj
  have hposition := header_position hx
  have hroom := hlaid.payload_lt
  rw [Nat.mod_eq_of_lt (by omega)]
  omega

theorem alignUp_of_dvd {j : Nat} (hj : j ≤ 64) (hpos : 0 < ptr) (hptr : ptr + 2 ^ j ≤ 2 ^ 64)
    (hdvd : 2 ^ j ∣ ptr) : alignUp (2 ^ j) ptr = ptr := by
  obtain ⟨⟨d, hd⟩, hle, hlt⟩ := alignUp_spec hj hpos hptr
  obtain ⟨e, rfl⟩ := hdvd
  rw [hd] at hle hlt ⊢
  have hlow : e ≤ d := Nat.le_of_mul_le_mul_left hle (Nat.two_pow_pos j)
  have hhigh : d < e + 1 := Nat.lt_of_mul_lt_mul_left (a := 2 ^ j) (by rw [Nat.mul_add_one]; exact hlt)
  rw [show d = e by omega]

/-- A payload that starts at a multiple of 8 and not at one of the alignment is followed by at least 8
bytes before the aligned address. -/
theorem add_eight_le_alignUp (hptr : ptr % 8 = 0) (hle : ptr ≤ q) (hq : max (2 ^ k) 8 ∣ q)
    (hdvd : ¬ max (2 ^ k) 8 ∣ ptr) : ptr + 8 ≤ q := by
  have height : 8 ∣ max (2 ^ k) 8 := by
    rw [max_two_pow]
    exact pow_dvd_pow 2 (le_max_right k 3)
  have hmod := Nat.mod_eq_zero_of_dvd (height.trans hq)
  have hne : q ≠ ptr := by
    rintro rfl
    exact hdvd hq
  omega

theorem max_add_lt (hmod : ptr % 8 = 0) (hn : n + 2 ^ k + 39 < 2 ^ 64)
    (hdvd : ¬ max (2 ^ k) 8 ∣ ptr) : n + max (2 ^ k) 8 + 39 < 2 ^ 64 := by
  obtain hle | hlt := Nat.le_total (2 ^ k) 8
  · rw [max_eq_right hle] at hdvd
    exact absurd (Nat.dvd_of_mod_eq_zero hmod) hdvd
  · rwa [max_eq_left hlt]

theorem paddedSize_ne_zero (hpos : 1 ≤ n) (hn : n + 2 ^ k + 39 < 2 ^ 64) :
    paddedSize n (2 ^ k) ≠ 0 := by
  have hpow := Nat.two_pow_pos k
  obtain hle | hlt := Nat.le_total (2 ^ k) 8
  · rw [paddedSize, max_eq_right hle, headerSize_eq, wadd_of_lt (a := n) (by omega),
      wadd_of_lt (by omega)]
    omega
  · rw [paddedSize, max_eq_left hlt, headerSize_eq, wadd_of_lt (a := n) (by omega),
      wadd_of_lt (by omega)]
    omega

theorem alignUp_found (hrep : Represents h (l₁ ++ b :: l₂)) (hmod : h.heapStart % 8 = 0)
    (hn : n + 2 ^ k + 39 < 2 ^ 64) (hfits : b.Fits (alignSize (paddedSize n (2 ^ k))))
    (hdvd : max (2 ^ k) 8 ∣ endOf h.heapStart l₁ + 32) :
    alignUp (max (2 ^ k) 8) (endOf h.heapStart l₁ + 32) = endOf h.heapStart l₁ + 32 := by
  have hroom := hrep.payload_lt
  have hptr := hrep.toLaid.payload_mod hmod
  have hsize := hfits.2
  have hfar : endOf h.heapStart l₁ + 32 + max (2 ^ k) 8 ≤ 2 ^ 64 := by
    obtain hle | hlt := Nat.le_total (2 ^ k) 8
    · rw [max_eq_right hle]
      omega
    · rw [max_eq_left hlt] at *
      have hpadded := paddedSize_eq (n := n) (k := k) (by rw [max_eq_left hlt]; exact hn)
      rw [max_eq_left hlt] at hpadded
      have hround := le_alignSize (n := paddedSize n (2 ^ k)) (by rw [hpadded]; omega)
      omega
  have hpow := Nat.two_pow_pos k
  rw [max_two_pow] at hdvd hfar ⊢
  refine alignUp_of_dvd ?_ (by omega) hfar hdvd
  by_contra hgt
  have hle : 2 ^ 64 ≤ 2 ^ max k 3 := Nat.pow_le_pow_right (by decide) (by omega)
  omega

/-- What `kmalloc_aligned` returns is aligned, the word stored before it lies in the payload of the block
it is in, and the store leaves every header of the list as it was, so that the blocks tile the heap. -/
def AlignedStore (h : Heap) (n align : Nat) : Prop :=
  ∀ q h', h.kmallocAligned n align = some (q, h') → q ≠ 0 →
    max align 8 ∣ q ∧
    ∃ ptr h₁ l, h.kmalloc (paddedSize n align) = some (ptr, h₁) ∧ h₁.blockList = some l ∧
      q ∈ h₁.payload ptr ∧ Set.Ico (q - 8) q ⊆ h₁.payload ptr ∧
      (∀ e ∈ l, ∀ f, getField h'.mem e.1 f = getField h₁.mem e.1 f) ∧ h'.Tiled

/-- The block found for the padded size does not start its payload at a multiple of the alignment, and
the bound of its split does not wrap or what is cut off lands on the null address. -/
def StoreHasRoom (h : Heap) (n align : Nat) : Prop :=
  ∀ block, h.findFreeBlock (alignSize (paddedSize n align)) = some block → block ≠ 0 →
    ¬ max align 8 ∣ block + headerSize ∧
    (alignSize (paddedSize n align) + minBlockSize < 2 ^ 64 ∨
      block + headerSize + alignSize (paddedSize n align) = 2 ^ 64)

theorem alignedStore_of_room (hrep : Represents h bs) (hmod : h.heapStart % 8 = 0)
    (hn : n + 2 ^ k + 39 < 2 ^ 64) (hroom : h.StoreHasRoom n (2 ^ k)) : h.AlignedStore n (2 ^ k) := by
  intro q h' hq hne
  obtain ⟨-, hnull⟩ | ⟨l₁, b, l₂, rfl, hfits, hfind, hmalloc, hrun⟩ :=
    kmallocAligned_outcomes hrep n k
  · exact absurd (Prod.mk.inj (Option.some_inj.mp (hq.symm.trans hnull))).1 hne
  obtain ⟨rfl, rfl⟩ := Prod.mk.inj (Option.some_inj.mp (hrun.symm.trans hq))
  have hpos := hrep.payload_lt.1
  obtain ⟨hdvd, hbound⟩ := hroom _ hfind (by omega)
  have hptr := hrep.toLaid.payload_mod hmod
  obtain ⟨hq, hle, hend⟩ := alignUp_within hrep (max_add_lt hptr hn hdvd) hfits rfl
  have hfar := add_eight_le_alignUp hptr hle hq hdvd
  obtain ⟨c, l₃, hlaid, hsize⟩ := laid_taken hrep hmod hfits (alignSize_mod _) hbound
  have hpayload := kmallocSize_eq hlaid
  have hroom₁ := hlaid.payload_lt
  have hkeep := fun x (hx : x ∈ headers h.heapStart (l₁ ++ c :: l₃)) i (hi : i < 32) =>
    write_header_apply hlaid (a := alignUp (max (2 ^ k) 8) (endOf h.heapStart l₁ + 32) - 8)
      (by dsimp only [taken]; omega) (by dsimp only [taken]; omega) hx hi
        (endOf h.heapStart l₁ + 32)
  have hback : wsub (alignUp (max (2 ^ k) 8) (endOf h.heapStart l₁ + 32)) 8 =
      alignUp (max (2 ^ k) 8) (endOf h.heapStart l₁ + 32) - 8 := by
    dsimp only [taken] at hroom₁
    exact wsub_of_le (by omega) (by omega)
  refine ⟨hq, _, _, _, hmalloc, hlaid.blockList_eq, ?_, ?_, fun e he f => ?_, ?_⟩
  · dsimp only [taken] at hpayload
    rw [payload, taken, hpayload]
    exact ⟨by omega, by omega⟩
  · dsimp only [taken] at hpayload
    rw [payload, taken, hpayload]
    exact fun y hy => ⟨by have := hy.1; omega, by have := hy.2; omega⟩
  · have hx : e.1 ∈ headers h.heapStart (l₁ ++ c :: l₃) := (List.of_mem_zip he).1
    have hend := hlaid.endOf_le
    have hbounds := mem_headers_bounds hx
    rw [backPointed, hback]
    exact getField_congr (by dsimp only [taken] at hend; omega) (hkeep _ hx)
  · rw [backPointed, hback]
    exact (hlaid.congr_mem hkeep).tiled

theorem room_of_alignedStore (hrep : Represents h bs) (hmod : h.heapStart % 8 = 0) (hpos : 1 ≤ n)
    (hn : n + 2 ^ k + 39 < 2 ^ 64) (hstore : h.AlignedStore n (2 ^ k)) :
    h.StoreHasRoom n (2 ^ k) := by
  intro block hblock hne
  obtain ⟨hcause, -⟩ | ⟨l₁, b, l₂, rfl, hfits, hfind, hmalloc, hrun⟩ :=
    kmallocAligned_outcomes hrep n k
  · obtain hzero | hnone := hcause
    · exact absurd hzero (paddedSize_ne_zero hpos hn)
    · exact absurd (Option.some_inj.mp (hblock.symm.trans hnone)) hne
  obtain rfl := Option.some_inj.mp (hblock.symm.trans hfind)
  have hptr := hrep.toLaid.payload_mod hmod
  have hroom := hrep.payload_lt
  -- in a payload that is aligned already there is no room before the address returned
  have hdvd : ¬ max (2 ^ k) 8 ∣ endOf h.heapStart l₁ + 32 := by
    intro hdvd
    have hup := alignUp_found hrep hmod hn hfits hdvd
    rw [hup] at hrun
    obtain ⟨-, ptr, h₁, l, hmalloc', -, -, hsub, -⟩ := hstore _ _ hrun (by omega)
    obtain ⟨rfl, rfl⟩ := Prod.mk.inj (Option.some_inj.mp (hmalloc.symm.trans hmalloc'))
    have hmem := hsub ⟨le_rfl, by omega⟩
    have hlow := hmem.1
    omega
  refine ⟨hdvd, ?_⟩
  obtain ⟨-, hle, hend⟩ := alignUp_within hrep (max_add_lt hptr hn hdvd) hfits rfl
  obtain ⟨-, ptr, h₁, l, -, -, -, -, -, htiled⟩ := hstore _ _ hrun (by omega)
  by_contra hbound
  rw [minBlockSize_eq, headerSize_eq, not_or, not_lt] at hbound
  have hsize := hfits.2
  refine absurd htiled (not_tiled_taken hrep hfits hbound.1 hbound.2 ?_ ⟨rfl, rfl⟩)
  obtain rfl := first_of_wrap _ hrep.toLaid hbound.1 (by omega)
  simp only [List.nil_append, endOf_nil] at *
  rw [backPointed, wsub_of_le (by omega) (by omega), getField, getField]
  refine ByteMemory.read_write_of_apart (ByteMemory.apart_of_le ?_ (by omega) (Or.inl ?_))
  all_goals
    simp only [taken, Field.offset, Field.width]
    omega

/-- **Aligned allocations.** In every heap reached by calls that keep the bound of `split_block` from
wrapping, `kmalloc_aligned` leaves the headers alone exactly when it finds nothing or finds a payload that
is not aligned already. -/
theorem alignedStore_iff (h : Heap) (start size : Nat) (hacc : Accepts start size) {s : Session}
    (hrun : Session.Run Session.Bounded ⟨h.heapInit start size, []⟩ s) {n k : Nat} (hpos : 1 ≤ n)
    (hn : n + 2 ^ k + 39 < 2 ^ 64) :
    s.heap.AlignedStore n (2 ^ k) ↔ s.heap.StoreHasRoom n (2 ^ k) := by
  obtain ⟨bs, hrep, -⟩ := (Session.sound_heapInit h hacc).run hrun
  have hmod : s.heap.heapStart % 8 = 0 := by
    rw [(Session.sameRange_run hrun).start]
    exact heapStart_heapInit_mod h hacc
  exact ⟨room_of_alignedStore hrep hmod hpos hn, alignedStore_of_room hrep hmod hn⟩

theorem alignedStore_onePage : onePage.heap.AlignedStore 16 (2 ^ 6) := by
  refine (alignedStore_iff blank 0x1000 0x1000 ⟨by decide, by decide, by decide⟩
    (Relation.ReflTransGen.single
      ⟨.kmalloc 16, by decide, Or.inr (Or.inl (by decide)), (Option.some_get _).symm⟩)
    (by decide) (by decide)).mpr fun block hblock _ => ?_
  have hfind : onePage.heap.findFreeBlock (alignSize (paddedSize 16 (2 ^ 6))) = some 0x1030 := by
    decide +kernel
  obtain rfl := Option.some_inj.mp (hblock.symm.trans hfind)
  exact ⟨by decide, Or.inl (by decide)⟩

/-- The first payload of the heap of one page is at 0x1020. Asked for there at a multiple of 32, it gets
its own address stored in its `prev` field. -/
theorem not_alignedStore_firstBlock : Accepts 0x1000 0x1000 ∧
    Session.Run (fun _ _ => True) ⟨blank.heapInit 0x1000 0x1000, []⟩
      ⟨blank.heapInit 0x1000 0x1000, []⟩ ∧
    ((blank.heapInit 0x1000 0x1000).kmallocAligned 16 (2 ^ 5)).map
      (fun r => (r.1, getField r.2.mem 0x1000 .prev)) = some (0x1020, 0x1020) ∧
    ¬ (blank.heapInit 0x1000 0x1000).AlignedStore 16 (2 ^ 5) := by
  have hgranted : ((blank.heapInit 0x1000 0x1000).kmallocAligned 16 (2 ^ 5)).map
      (fun r => (r.1, getField r.2.mem 0x1000 .prev)) = some (0x1020, 0x1020) := by decide +kernel
  have hinner : ((blank.heapInit 0x1000 0x1000).kmalloc (paddedSize 16 (2 ^ 5))).map Prod.fst =
      some 0x1020 := by decide +kernel
  refine ⟨⟨by decide, by decide, by decide⟩, Relation.ReflTransGen.refl, hgranted, fun hstore => ?_⟩
  obtain ⟨⟨q, h'⟩, hrun, hq⟩ := Option.map_eq_some_iff.mp hgranted
  obtain ⟨rfl, -⟩ := Prod.mk.inj hq
  obtain ⟨-, ptr, h₁, l, hmalloc, -, -, hsub, -⟩ := hstore _ _ hrun (by decide)
  rw [hmalloc] at hinner
  obtain rfl := Option.some_inj.mp hinner
  have hmem := hsub ⟨le_rfl, by decide⟩
  exact absurd hmem.1 (by decide)

end SimpleOs.Heap
