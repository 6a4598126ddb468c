import SimpleOs.Proof.HeapShrink

/-!
# What resizing keeps

Shrinking writes a header behind the part that is kept, growing in place writes into the header of the
neighbour, and moving allocates, copies and frees. None of this touches the bytes kept or the payload of
another allocation, not even where the bound of the split wraps: the header cut off then lands past the
heap or below it.
-/

namespace SimpleOs.Heap

variable {h h' : Heap} {m : ByteMemory} {a k n p q size v x y : Nat} {b c : Block}
  {bs l₁ l₂ l₃ l₄ : List Block} {s : Session}

theorem copyBytes_apply {dst src i j : Nat} (hdst : dst + (i + k) ≤ 2 ^ 64)
    (hsrc : src + (i + k) ≤ 2 ^ 64)
    (hdisjoint : dst + (i + k) ≤ src + i ∨ src + (i + k) ≤ dst + i) (hlow : i ≤ j)
    (hhigh : j < i + k) : copyBytes m dst src i k (dst + j) = m (src + j) := by
  induction k generalizing m i with
  | zero => omega
  | succ k ih =>
      rw [copyBytes, Nat.mod_eq_of_lt (by omega), Nat.mod_eq_of_lt (by omega)]
      obtain rfl | hlt := Nat.eq_or_lt_of_le hlow
      · rw [copyBytes_apply_of_outside, Function.update_self]
        intro j hj hj'
        rw [Nat.mod_eq_of_lt (by omega)]
        omega
      · rw [ih (by omega) (by omega) (by omega) hlt (by omega)]
        exact Function.update_of_ne (by omega) _ _

theorem cutOff_apply (hout : ∀ i < 32, (x + i) % 2 ^ 64 ≠ y) : cutOff m a x v y = m y := by
  have hfield : ∀ (m' : ByteMemory) (f : Field) (w : Nat), setField m' x f w y = m' y := by
    intro m' f w
    apply ByteMemory.write_apply_of_outside
    intro i hi
    have hf := f.offset_add_width_le
    rw [Nat.add_assoc]
    exact hout _ (by omega)
  rw [cutOff, hfield, hfield, hfield, hfield]

/-- Wherever the header cut off lands, past the end of the heap or on the null address, the part of the
block that is left to it is not touched. -/
theorem splitBlock_wrapped_apply (hstart : a % 8 = 0) (hpos : 0 < a) (hmod : size % 8 = 0)
    (hwrap : 2 ^ 64 ≤ size + 48) (hroom : a + 32 + size ≤ 2 ^ 64) (hsize : size ≤ getField m a .size)
    (hnext : getField m a .next = 0 ∨ ClearOf y (getField m a .next)) (hlow : a + 32 ≤ y)
    (hhigh : y < a + 32 + size) : splitBlock m a size y = m y := by
  have hsplit : ¬ getField m a .size < wadd size minBlockSize := by
    rw [minBlockSize_eq, wadd]
    omega
  obtain ⟨x, hx⟩ : ∃ x, x = (a + 32 + size) % 2 ^ 64 := ⟨_, rfl⟩
  have hnew : wadd (wadd a headerSize) size = x := by
    rw [headerSize_eq, wadd_of_lt (a := a) (by omega), wadd, hx]
  obtain ⟨v, hv⟩ := splitBlock_cutOff hsplit hnew
  have hblock : ClearOf y a := ⟨by omega, by omega⟩
  have hout : ∀ i < 32, (x + i) % 2 ^ 64 ≠ y := by
    intro i hi
    omega
  rw [hv, setField_apply hblock, setField_apply hblock, relinkPrev_apply, cutOff_apply hout]
  obtain hapart | hapart | ⟨rfl, rfl⟩ : a = 8 ∧ x = 2 ^ 64 - 8 ∨ a = 16 ∧ x = 0 ∨ a = 8 ∧ x = 0 := by
    omega
  · rw [next_cutOff_apart (Or.inl hapart)]
    exact hnext.imp_right ClearOf.offLinks
  · rw [next_cutOff_apart (Or.inr hapart)]
    exact hnext.imp_right ClearOf.offLinks
  · rw [next_cutOff_touching]
    exact Or.inr hblock.offLinks

section Paths

variable (hrep : Represents s.heap (l₁ ++ b :: l₂)) (hb : b.free = false)
  (hlive : s.live.Perm (payloads s.heap.heapStart (l₁ ++ b :: l₂)))
  (hptr : p = endOf s.heap.heapStart l₁ + 32) (hstart : s.heap.heapStart % 8 = 0)

include hrep hlive hptr hstart

theorem shrink_keeps (hle : alignSize n ≤ b.size)
    (hy : p ≤ y ∧ y < p + alignSize n ∨ ∃ p' ∈ s.live, p' ≠ p ∧ y ∈ s.heap.payload p') :
    splitBlock s.heap.mem (endOf s.heap.heapStart l₁) (alignSize n) y = s.heap.mem y := by
  have hroom := hrep.payload_lt
  by_cases hbound : alignSize n + 48 < 2 ^ 64
  · obtain hy | ⟨p', hp', hne, hy⟩ := hy
    · exact splitBlock_front hrep hbound (by omega) (by omega)
    · obtain ⟨l₃, c, l₄, hbs, -, rfl⟩ := Session.block_of_live hlive hp'
      rw [payload, kmallocSize_eq (hbs ▸ hrep.toLaid)] at hy
      exact splitBlock_frame hrep hbound hbs (by omega) hy.1 hy.2
  · have hend := hrep.endOf_le
    have hheader := hrep.header
    obtain rfl := first_of_wrap (alignSize n) hrep.toLaid (by omega) (by omega)
    simp only [List.nil_append, endOf_nil, endOf_cons] at *
    obtain rfl := nil_of_full (s.heap.heapStart + 32 + b.size) l₂ (by omega)
    obtain hy | ⟨p', hp', hne, -⟩ := hy
    · exact splitBlock_wrapped_apply hstart hrep.start (alignSize_mod n) (by omega) (by omega)
        (by rw [hheader.size]; exact hle) (Or.inl (by rw [hheader.next, if_pos rfl])) (by omega)
        (by omega)
    · have hmem := hlive.mem_iff.mp hp'
      obtain ⟨l₃, c, l₄, hbs, -, rfl⟩ := mem_payloads.mp hmem
      cases l₃ with
      | nil => exact absurd hptr.symm hne
      | cons d l₃ => simp at hbs

theorem grow_keeps (hlt : b.size < alignSize n) (hb : b.free = false)
    (hexpand : CanExpand s.heap.mem (endOf s.heap.heapStart l₁) (alignSize n))
    (hy : p ≤ y ∧ y < p + b.size ∨ ∃ p' ∈ s.live, p' ≠ p ∧ y ∈ s.heap.payload p') :
    splitBlock (grown s.heap.mem (endOf s.heap.heapStart l₁)
      (getField s.heap.mem (endOf s.heap.heapStart l₁) .next) (alignSize n))
      (endOf s.heap.heapStart l₁) (alignSize n) y = s.heap.mem y := by
  obtain ⟨hnext, hfree, havailable⟩ := hexpand
  have hheader := hrep.header
  have hend := hrep.endOf_le
  have hroom := hrep.payload_lt
  have hclear : ∀ x ∈ headers s.heap.heapStart (l₁ ++ b :: l₂), ClearOf y x := by
    obtain hy | ⟨p', hp', -, hy⟩ := hy
    · exact hrep.toLaid.clearOf_headers (by omega) (by omega)
    · obtain ⟨l₃, c, l₄, hbs, -, rfl⟩ := Session.block_of_live hlive hp'
      rw [payload, kmallocSize_eq (hbs ▸ hrep.toLaid)] at hy
      rw [hbs]
      exact (hbs ▸ hrep.toLaid : Laid s.heap (l₃ ++ c :: l₄)).clearOf_headers hy.1 hy.2
  cases l₂ with
  | nil => exact absurd (by rw [hheader.next, if_pos rfl]) hnext
  | cons c l₂ =>
      have hneighbour := hrep.chain.neighbour
      rw [endOf_append, endOf_cons, endOf_cons] at hend
      have hrest := le_endOf (endOf s.heap.heapStart l₁ + 32 + b.size + 32 + c.size) l₂
      rw [hheader.next, if_neg (by simp)] at hnext hfree havailable ⊢
      rw [hheader.size, hneighbour.size, headerSize_eq, wadd_of_lt (a := b.size) (by omega),
        wadd_of_lt (by omega)] at havailable
      have hplace := endOf_mem_headers s.heap.heapStart (l₁ ++ [b]) c l₂
      rw [List.append_assoc, List.singleton_append, endOf_append, endOf_cons, endOf_nil] at hplace
      have hgrown : grown s.heap.mem (endOf s.heap.heapStart l₁)
          (endOf s.heap.heapStart l₁ + 32 + b.size) (alignSize n) y = s.heap.mem y := by
        rw [grown, setField_apply (hclear _ (endOf_mem_headers _ _ _ _)),
          setField_apply (hclear _ hplace)]
      have hsize : getField (grown s.heap.mem (endOf s.heap.heapStart l₁)
          (endOf s.heap.heapStart l₁ + 32 + b.size) (alignSize n)) (endOf s.heap.heapStart l₁) .size =
          alignSize n := getField_setField_self (alignSize_lt n)
      have hlink : getField (grown s.heap.mem (endOf s.heap.heapStart l₁)
          (endOf s.heap.heapStart l₁ + 32 + b.size) (alignSize n)) (endOf s.heap.heapStart l₁) .next =
          endOf s.heap.heapStart l₁ + 32 + b.size := by
        rw [getField_grown (by decide) ⟨by omega, by omega, by omega⟩, hheader.next,
          if_neg (by simp)]
      by_cases hbound : alignSize n + 48 < 2 ^ 64
      · rw [splitBlock, if_pos, hgrown]
        rw [hsize, minBlockSize_eq, wadd_of_lt hbound]
        omega
      rw [← hgrown]
      obtain rfl := first_of_wrap (alignSize n) hrep.toLaid (by omega) (by omega)
      have hc := hneighbour.free.mp hfree
      simp only [List.nil_append, endOf_nil] at *
      obtain rfl := nil_of_full (s.heap.heapStart + 32 + b.size + 32 + c.size) l₂ (by omega)
      have hown : p ≤ y ∧ y < p + b.size := by
        refine hy.resolve_right ?_
        rintro ⟨p', hp', hne, -⟩
        have hmem := hlive.mem_iff.mp hp'
        exact hne (by simpa [payloads, hb, hc, hptr] using hmem)
      refine splitBlock_wrapped_apply hstart hrep.start (alignSize_mod n) (by omega) (by omega)
        hsize.ge (Or.inr ?_) (by omega) (by omega)
      rw [hlink]
      exact hclear _ hplace

end Paths

/-- Allocating leaves the sizes of the other allocations. -/
theorem Session.Sound.kmallocSize_kmalloc (hsound : s.Sound) (hsafe : n = 0 ∨ s.heap.Unwrapped n)
    (hrun : s.heap.kmalloc n = some (q, h')) (hp : p ∈ s.live) :
    h'.kmallocSize p = s.heap.kmallocSize p := by
  obtain ⟨bs, hrep, hlive⟩ := hsound
  obtain ⟨-, hnull⟩ | ⟨q', h'', l₁, b, l₂, hrun', hcarves⟩ := kmalloc_cases hrep hsafe
  · rw [hnull] at hrun
    obtain ⟨-, rfl⟩ := Prod.mk.inj (Option.some_inj.mp hrun)
    rfl
  · obtain ⟨rfl, rfl⟩ := Prod.mk.inj (Option.some_inj.mp (hrun.symm.trans hrun'))
    have hspan := (live_iff_spans hrep hlive).mp ⟨hp, rfl⟩
    apply kmallocSize_of_span hcarves.after
    rw [hcarves.blocks, spans_append, spans_of_free hcarves.fits.1] at hspan
    rw [hcarves.start, spans_append, spans_append, endOf_carve]
    simp only [List.mem_append] at hspan ⊢
    exact hspan.imp_right Or.inr

theorem Session.Sound.payload_end (hsound : s.Sound) (hp : p ∈ s.live) :
    p + s.heap.kmallocSize p ≤ 2 ^ 64 := by
  obtain ⟨bs, hrep, hlive⟩ := hsound
  obtain ⟨l₁, b, l₂, rfl, -, rfl⟩ := Session.block_of_live hlive hp
  rw [kmallocSize_eq hrep.toLaid]
  exact hrep.payload_lt.2.2

/-- The call that moves an allocation: every other payload stays, and the bytes are copied. -/
theorem Session.Sound.move_keeps (hsound : s.Sound) (hp : p ∈ s.live) (hn : n < 2 ^ 64)
    (hgrow : s.heap.kmallocSize p ≤ alignSize n) (hq : s.heap.kmalloc n = some (q, h))
    (hne : q ≠ 0) (hh' : h' = kfree { h with
      mem := Heap.copyBytes h.mem q p 0 (s.heap.kmallocSize p) } p) :
    (∀ i < s.heap.kmallocSize p, h'.mem (q + i) = s.heap.mem (p + i)) ∧
      ∀ p' ∈ s.live, p' ≠ p → ∀ y ∈ s.heap.payload p', h'.mem y = s.heap.mem y := by
  obtain ⟨hqp, hlarge, hmoved, hcopied⟩ := hsound.copied hp hn hgrow hq hne
  have hsafe : s.Bounded (.kmalloc n) := by
    obtain ⟨bs, hrep, hlive⟩ := hsound
    obtain ⟨l₁, b, l₂, rfl, hb, -⟩ := Session.block_of_live hlive hp
    exact Or.inr (unwrapped_of_inUse hrep hb n)
  have hstep : s.step (.kmalloc n) = some ⟨h, q :: s.live⟩ := by
    rw [Session.step, hq, Option.map_some, if_neg hne]
  have hkept : ∀ p' ∈ s.live, ∀ y ∈ s.heap.payload p', h.mem y = s.heap.mem y := fun p' hp' y hy =>
    hsound.frame (show OfAllocator (.kmalloc n) from trivial) hn hsafe hstep hp' hy
  have hsizes : ∀ p' ∈ s.live, h.kmallocSize p' = s.heap.kmallocSize p' := fun p' hp' =>
    hsound.kmallocSize_kmalloc hsafe hq hp'
  have hcopySizes : ∀ p' ∈ q :: s.live, Heap.kmallocSize { h with
      mem := Heap.copyBytes h.mem q p 0 (s.heap.kmallocSize p) } p' = h.kmallocSize p' :=
    fun p' hp' => hmoved.kmallocSize_copyBytes p List.mem_cons_self (hgrow.trans hlarge) hp'
  have hfreed : ∀ p' ∈ q :: s.live, ∀ y ∈ Set.Ico p' (p' + h.kmallocSize p'),
      h'.mem y = Heap.copyBytes h.mem q p 0 (s.heap.kmallocSize p) y := by
    intro p' hp' y hy
    rw [← hcopySizes p' hp'] at hy
    rw [hh']
    exact hcopied.frame (show OfAllocator (.kfree p) from trivial) (List.mem_cons_of_mem _ hp) trivial rfl
      hp' hy
  have hdisjoint : ∀ p' ∈ s.live, Disjoint (h.payload p') (h.payload q) := fun p' hp' =>
    hmoved.payload_disjoint (List.mem_cons_of_mem _ hp') List.mem_cons_self fun heq =>
      (List.nodup_cons.mp hmoved.nodup).1 (heq ▸ hp')
  constructor
  · intro i hi
    have hapart := hdisjoint p hp
    have hend := hmoved.payload_end (List.mem_cons_of_mem q hp)
    have hend' := hmoved.payload_end List.mem_cons_self
    dsimp only at hend hend'
    rw [payload, payload, hsizes p hp, Set.Ico_disjoint_Ico] at hapart
    rw [hsizes p hp] at hend
    rw [hfreed q List.mem_cons_self _ ⟨by omega, by omega⟩,
      copyBytes_apply (by omega) (by omega) (by omega) (Nat.zero_le i) (by omega)]
    exact hkept p hp _ ⟨by omega, by omega⟩
  · intro p' hp' _ y hy
    have hout : y ∉ h.payload q := by
      refine Set.disjoint_left.mp (hdisjoint p' hp') ?_
      rw [payload, hsizes p' hp']
      exact hy
    have hend' := hmoved.payload_end List.mem_cons_self
    dsimp only at hend'
    rw [hfreed p' (List.mem_cons_of_mem _ hp') y (by rw [hsizes p' hp']; exact hy),
      copyBytes_apply_of_outside]
    · exact hkept p' hp' y hy
    · intro j _ hj heq
      rw [Nat.mod_eq_of_lt (by omega)] at heq
      exact hout ⟨by omega, by omega⟩

/-- `krealloc(p, n)` returns; what it returns, if not null, holds the old bytes as far as both sizes
reach, and the other payloads are as they were; if it returns null nothing has changed. -/
structure Session.KeepsData (s : Session) (p n : Nat) : Prop where
  returns : (s.heap.krealloc p n).isSome
  kept : ∀ q h', s.heap.krealloc p n = some (q, h') → q ≠ 0 →
    ∀ i < min (s.heap.kmallocSize p) n, h'.mem (q + i) = s.heap.mem (p + i)
  others : ∀ q h', s.heap.krealloc p n = some (q, h') → q ≠ 0 →
    ∀ p' ∈ s.live, p' ≠ p → ∀ y ∈ s.heap.payload p', h'.mem y = s.heap.mem y
  failed : ∀ h', s.heap.krealloc p n = some (0, h') →
    h' = s.heap ∧ p ∈ (s.reallocated p (0, h')).live

/-- Resizing in place. -/
theorem keepsData_of_same (hp : p ≠ 0) (hrun : s.heap.krealloc p n = some (p, { s.heap with mem := m }))
    (hkept : ∀ y, p ≤ y ∧ y < p + min (s.heap.kmallocSize p) n ∨
      (∃ p' ∈ s.live, p' ≠ p ∧ y ∈ s.heap.payload p') → m y = s.heap.mem y) : s.KeepsData p n := by
  refine ⟨by rw [hrun]; rfl, fun q h' hq _ i hi => ?_, fun q h' hq _ p' hp' hne y hy => ?_,
    fun h' hq => ?_⟩
  all_goals
    obtain ⟨hpq, rfl⟩ := Prod.mk.inj (Option.some_inj.mp (hrun.symm.trans hq))
  · rw [← hpq]
    exact hkept _ (Or.inl ⟨by omega, by omega⟩)
  · exact hkept _ (Or.inr ⟨p', hp', hne, hy⟩)
  · exact absurd hpq hp

theorem Session.Sound.keepsData (hsound : s.Sound) (hstart : s.heap.heapStart % 8 = 0)
    (hp : p ∈ s.live) (hpos : 1 ≤ n) (hn : n ≤ 2 ^ 64 - 8) : s.KeepsData p n := by
  obtain ⟨bs, hrep, hlive⟩ := id hsound
  obtain ⟨l₁, b, l₂, rfl, hb, hptr⟩ := Session.block_of_live hlive hp
  have hsize : s.heap.kmallocSize p = b.size := by rw [hptr, kmallocSize_eq hrep.toLaid]
  have hround := le_alignSize (n := n) (by omega)
  by_cases hle : alignSize n ≤ b.size
  · refine keepsData_of_same (by omega) (krealloc_shrink hrep hptr hpos hle) fun y hy => ?_
    exact shrink_keeps hrep hlive hptr hstart hle (hy.imp_left fun hown => ⟨hown.1, by omega⟩)
  by_cases hexpand : CanExpand s.heap.mem (endOf s.heap.heapStart l₁) (alignSize n)
  · refine keepsData_of_same (by omega) (krealloc_grow hrep hptr hpos (by omega) hexpand) fun y hy => ?_
    exact grow_keeps hrep hlive hptr hstart (by omega) hb hexpand
      (hy.imp_left fun hown => ⟨hown.1, by omega⟩)
  have hgrow : s.heap.kmallocSize p ≤ alignSize (alignSize n) := by
    rw [hsize, alignSize_alignSize hn]
    omega
  have hmove := krealloc_move_eq hrep hptr hpos (by omega) hexpand
  rw [← hsize] at hmove
  obtain ⟨r, hr, -⟩ := krealloc_move hrep hptr hp hpos hn hsound (by omega) hexpand
  have hcases : ∀ q h', s.heap.krealloc p n = some (q, h') →
      q = 0 ∧ h' = s.heap ∨ q ≠ 0 ∧ ∃ h, s.heap.kmalloc (alignSize n) = some (q, h) ∧
        h' = kfree { h with mem := Heap.copyBytes h.mem q p 0 (s.heap.kmallocSize p) } p := by
    intro q h' hq
    rw [hmove] at hq
    obtain ⟨⟨q', h⟩, hmalloc, hresult⟩ := Option.map_eq_some_iff.mp hq
    by_cases hzero : q' = 0
    · rw [if_pos hzero] at hresult
      obtain ⟨rfl, rfl⟩ := Prod.mk.inj hresult
      refine Or.inl ⟨hzero, ?_⟩
      obtain ⟨-, -, hnull⟩ | ⟨l₃, c, l₄, -, -, -, -, hfound⟩ :=
        kmalloc_outcomes (n := alignSize n) hrep (by omega)
      · exact (Prod.mk.inj (Option.some_inj.mp (hmalloc.symm.trans hnull))).2
      · have hplace := (Prod.mk.inj (Option.some_inj.mp (hmalloc.symm.trans hfound))).1
        omega
    · rw [if_neg hzero] at hresult
      obtain ⟨rfl, rfl⟩ := Prod.mk.inj hresult
      exact Or.inr ⟨hzero, h, hmalloc, rfl⟩
  refine ⟨by rw [hr]; rfl, fun q h' hq hne i hi => ?_, fun q h' hq hne => ?_, fun h' hq => ?_⟩
  · obtain ⟨hzero, -⟩ | ⟨-, h, hmalloc, hh'⟩ := hcases q h' hq
    · exact absurd hzero hne
    · exact (hsound.move_keeps hp (alignSize_lt n) hgrow hmalloc hne hh').1 i (by omega)
  · obtain ⟨hzero, -⟩ | ⟨-, h, hmalloc, hh'⟩ := hcases q h' hq
    · exact absurd hzero hne
    · exact (hsound.move_keeps hp (alignSize_lt n) hgrow hmalloc hne hh').2
  · obtain ⟨-, hsame⟩ | ⟨hne, -⟩ := hcases 0 h' hq
    · exact ⟨hsame, hp⟩
    · exact absurd rfl hne

/-- **Resizing keeps data.** In every heap reached by calls that keep the bound of `split_block` from
wrapping, `krealloc` of a live pointer keeps its bytes and those of all others, and changes nothing if it
fails. -/
theorem keepsData_of_run (h : Heap) (start size : Nat) (hacc : Accepts start size) {s : Session}
    (hrun : Session.Run Session.Bounded ⟨h.heapInit start size, []⟩ s) {p n : Nat}
    (hp : p ∈ s.live) (hpos : 1 ≤ n) (hn : n ≤ 2 ^ 64 - 8) : s.KeepsData p n := by
  have hstart : s.heap.heapStart % 8 = 0 := by
    rw [(Session.sameRange_run hrun).start]
    exact heapStart_heapInit_mod h hacc
  exact ((Session.sound_heapInit h hacc).run hrun).keepsData hstart hp hpos hn

theorem keepsData_onePage : onePage.KeepsData 0x1020 100 :=
  keepsData_of_run blank 0x1000 0x1000 ⟨by decide, by decide, by decide⟩
    (Relation.ReflTransGen.single
      ⟨.kmalloc 16, by decide, Or.inr (Or.inl (by decide)), (Option.some_get _).symm⟩)
    (by decide +kernel) (by decide) (by decide)

/-- After the wrapped bound the 8 bytes at 24 were served from below the heap. Growing them to 16 goes in
place and changes the first byte of the allocation at 40. -/
theorem not_keepsData_overlappedSession : Accepts 8 (2 ^ 64 - 16) ∧
    Session.Run (fun _ _ => True) ⟨blank.heapInit 8 (2 ^ 64 - 16), []⟩ overlappedSession ∧
    overlappedSession.live = [24, 40] ∧ ¬ overlappedSession.KeepsData 24 16 := by
  have hlive : overlappedSession.live = [24, 40] := by decide +kernel
  refine ⟨⟨by decide, by decide, by decide⟩, (Relation.ReflTransGen.single
    ⟨.kmalloc (2 ^ 64 - 48), by decide, trivial, (Option.some_get _).symm⟩).tail
    ⟨.kmalloc 8, by decide, trivial, (Option.some_get _).symm⟩, hlive, fun hkeeps => ?_⟩
  have hsize : overlappedSession.heap.kmallocSize 40 = 32 := by decide +kernel
  have hgrown : (overlappedSession.heap.krealloc 24 16).map (fun r => (r.1, r.2.mem 40)) =
      some (24, 0) := by decide +kernel
  have hbefore : overlappedSession.heap.mem 40 = 1 := by decide +kernel
  obtain ⟨⟨q, h'⟩, hrun, hq⟩ := Option.map_eq_some_iff.mp hgrown
  obtain ⟨rfl, hafter⟩ := Prod.mk.inj hq
  have hsame := hkeeps.others _ _ hrun (by decide) 40 (by simp [hlive]) (by decide) 40
    ⟨le_rfl, by omega⟩
  exact absurd (hbefore.symm.trans (hsame.symm.trans hafter)) (by decide)

end SimpleOs.Heap
