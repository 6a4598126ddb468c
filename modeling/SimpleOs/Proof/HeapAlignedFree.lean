import SimpleOs.Proof.HeapAligned

/-!
# Freeing aligned allocations

`kfree` takes the 32 bytes before its argument for the header of the block. That is right if the payload
was aligned already: the header has lost its `prev` field to the stored pointer, but a walk along the next
links does not read it, and what the block is merged with on its account lies in the payload just freed.
Otherwise the header read is a piece of the real one and of the payload, and whatever happens the block
is not released.
-/

namespace SimpleOs

/-- A walk along the next links sees the same block at `x`. -/
structure Alike (m m' : ByteMemory) (x : Nat) : Prop where
  size : getField m' x .size = getField m x .size
  free : getField m' x .free ≠ 0 ↔ getField m x .free ≠ 0
  next : getField m' x .next = getField m x .next

variable {m m' m'' : ByteMemory} {a k n p prev prev' after after' fuel q size v x y : Nat} {b c : Block}
  {bs l₁ l₂ : List Block}

theorem Alike.trans (h : Alike m m' x) (h' : Alike m' m'' x) : Alike m m'' x :=
  ⟨h'.size.trans h.size, h'.free.trans h.free, h'.next.trans h.next⟩

theorem alike_of_fields (h : ∀ f, f ≠ .prev → getField m' x f = getField m x f) : Alike m m' x := by
  refine ⟨h _ (by decide), ?_, h _ (by decide)⟩
  rw [h _ (by decide)]

theorem Chain.alike (h : Chain m prev a bs after) (h' : Chain m' prev' a bs after) (hx : x ∈ headers a bs) :
    Alike m m' x := by
  induction bs generalizing prev prev' a with
  | nil => exact absurd hx (by simp [headers])
  | cons b bs ih =>
      obtain ⟨hheader, htail⟩ := h
      obtain ⟨hheader', htail'⟩ := h'
      rw [headers, List.mem_cons] at hx
      obtain rfl | hx := hx
      · exact ⟨hheader'.size.trans hheader.size.symm, hheader'.free.trans hheader.free.symm,
          hheader'.next.trans hheader.next.symm⟩
      · exact ih htail htail' hx

namespace Heap

variable {h h' : Heap} {s : Session} {ptr : Nat}

theorem blockListFrom_congr (hchain : Chain m prev a bs 0)
    (halike : ∀ x ∈ headers a bs, Alike m m' x) :
    blockListFrom m' fuel (if bs = [] then 0 else a) =
      blockListFrom m fuel (if bs = [] then 0 else a) := by
  induction bs generalizing prev a fuel with
  | nil =>
      cases fuel with
      | zero => rfl
      | succ fuel => simp [blockListFrom]
  | cons b bs ih =>
      cases fuel with
      | zero => rfl
      | succ fuel =>
          have hfirst := halike a (by simp [headers])
          have hrest : blockListFrom m' fuel _ = blockListFrom m fuel _ := ih hchain.2 fun x hx =>
            halike x (by rw [headers]; exact List.mem_cons_of_mem _ hx)
          rw [← hchain.1.next] at hrest
          rw [if_neg (List.cons_ne_nil b bs)]
          simp only [blockListFrom, hfirst.size, hfirst.next, hfirst.free, hrest]

theorem Laid.blockList_congr (hlaid : Laid h bs) (hstart : h'.heapStart = h.heapStart)
    (halike : ∀ x ∈ headers h.heapStart bs, Alike h.mem h'.mem x) : h.blockList = h'.blockList := by
  have hlist : blockListFrom h'.mem (2 ^ 64) _ = blockListFrom h.mem (2 ^ 64) _ :=
    blockListFrom_congr hlaid.chain halike
  rw [if_neg hlaid.nonempty] at hlist
  rw [blockList, blockList, hstart, hlist]

theorem mem_blockListFrom {l : List (Nat × Block)} (hlist : blockListFrom m fuel p = some l)
    {e : Nat × Block} (he : e ∈ l) :
    e.2 = ⟨getField m e.1 .size, getField m e.1 .free ≠ 0⟩ := by
  induction fuel generalizing p l with
  | zero => cases hlist
  | succ fuel ih =>
      rw [blockListFrom] at hlist
      split at hlist
      · obtain rfl := Option.some_inj.mp hlist
        exact absurd he List.not_mem_nil
      · obtain ⟨tl, htl, rfl⟩ := Option.map_eq_some_iff.mp hlist
        obtain rfl | he := List.mem_cons.mp he
        · rfl
        · exact ih htl he

theorem length_headers (a : Nat) (bs : List Block) : (headers a bs).length = bs.length := by
  induction bs generalizing a with
  | nil => rfl
  | cons b bs ih => rw [headers, List.length_cons, List.length_cons, ih]

theorem mem_zip_headers {e : Nat × Block} : e ∈ (headers a bs).zip bs ↔
    ∃ l₁ l₂, bs = l₁ ++ e.2 :: l₂ ∧ e.1 = endOf a l₁ := by
  constructor
  · intro he
    induction bs generalizing a with
    | nil => exact absurd he (by simp [headers])
    | cons b bs ih =>
        rw [headers, List.zip_cons_cons, List.mem_cons] at he
        obtain rfl | he := he
        · exact ⟨[], bs, rfl, rfl⟩
        · obtain ⟨l₁, l₂, hbs, he⟩ := ih he
          exact ⟨b :: l₁, l₂, by rw [hbs]; rfl, he⟩
  · rintro ⟨l₁, l₂, rfl, he⟩
    rw [headers_append, List.zip_append (length_headers a l₁), headers, List.zip_cons_cons, ← he]
    simp

/-- The previous link of the first block of a chain may lead into its own payload: then coalescing
leaves what a walk along the next links sees. -/
theorem coalescePrev_into_payload (hchain : Chain m (a + 32) a (c :: l₂) 0) (hsize : 32 ≤ c.size)
    (hend : endOf a (c :: l₂) ≤ 2 ^ 64) :
    (∀ x f, x + 32 ≤ a → getField (coalescePrev m a) x f = getField m x f) ∧
      ∀ x ∈ headers a (c :: l₂), Alike m (coalescePrev m a) x := by
  rw [endOf_cons] at hend
  have hle := le_endOf (a + 32 + c.size) l₂
  have hprev := hchain.1.prev
  have hnext := hchain.1.next
  by_cases hfree : getField m (a + 32) .free ≠ 0
  · have hmerge := coalescePrev_absorb (m := m) (x := a)
    rw [hprev, hnext] at hmerge
    rw [hmerge (by omega) hfree ⟨by omega, by omega, by omega⟩]
    have hpast := nextPast_of_end hend
    have hfields : ∀ x f, x + 32 ≤ a ∨ x = a ∨ a + 64 ≤ x ∧ x + 32 ≤ 2 ^ 64 →
        ((if l₂ = [] then 0 else a + 32 + c.size) = 0 ∨
          HeadersApart x (if l₂ = [] then 0 else a + 32 + c.size)) ∨
          x = (if l₂ = [] then 0 else a + 32 + c.size) ∧ f ≠ .prev →
        getField (absorb m (a + 32) (wadd (getField m (a + 32) .size) (wadd headerSize
          (getField m a .size))) (if l₂ = [] then 0 else a + 32 + c.size)) x f = getField m x f := by
      intro x f hx hcase
      have hapart : HeadersApart x (a + 32) := ⟨by omega, by omega, by omega⟩
      obtain hnx | ⟨rfl, hf⟩ := hcase
      · exact getField_absorb_of_apart hapart hnx
      · exact getField_absorb_next hf hapart
    refine ⟨fun x f hx => hfields x f (Or.inl hx) (Or.inl ?_), fun x hx =>
      alike_of_fields fun f hf => ?_⟩
    · exact hpast.imp_right fun hlt => ⟨by omega, by omega, by omega⟩
    · rw [headers, List.mem_cons] at hx
      obtain rfl | hx := hx
      · refine hfields x f (Or.inr (Or.inl rfl)) (Or.inl ?_)
        exact hpast.imp_right fun hlt => ⟨by omega, by omega, by omega⟩
      · have hbounds := mem_headers_bounds hx
        have hne : l₂ ≠ [] := by
          rintro rfl
          exact absurd hx (by simp [headers])
        refine hfields x f (Or.inr (Or.inr ⟨by omega, by omega⟩)) ?_
        rw [if_neg hne]
        obtain rfl | hlt := eq_or_le_of_mem_headers hx
        · exact Or.inr ⟨rfl, hf⟩
        · exact Or.inl (Or.inr ⟨by omega, by omega, by omega⟩)
  · have hkeep : coalescePrev m a = m := by
      rw [coalescePrev, if_neg]
      rw [hprev]
      exact fun hand => hfree hand.2
    rw [hkeep]
    exact ⟨fun x f hx => rfl, fun x hx => alike_of_fields fun f hf => rfl⟩

theorem backPointed_header (hrep : Represents h (l₁ ++ b :: l₂)) (v : Nat) :
    h.backPointed (endOf h.heapStart l₁ + 32) v =
      { h with mem := setField h.mem (endOf h.heapStart l₁) .prev v } := by
  have hroom := hrep.payload_lt
  rw [backPointed, wsub_of_le (by omega) hroom.2.1]
  rfl

/-- Freeing a block whose previous link was replaced by its payload address. -/
theorem kfree_backPointed (hrep : Represents h (l₁ ++ c :: l₂)) (hc : c.free = false) :
    (h.backPointed (endOf h.heapStart l₁ + 32) (endOf h.heapStart l₁ + 32)).kfree
        (endOf h.heapStart l₁ + 32) =
      { h with
        mem := coalesceBlocks (setField (setField h.mem (endOf h.heapStart l₁) .prev
          (endOf h.heapStart l₁ + 32)) (endOf h.heapStart l₁) .free 1) (endOf h.heapStart l₁)
        heapUsedSize := wsub h.heapUsedSize (wadd c.size headerSize) } := by
  have hroom := hrep.payload_lt
  have hheader := hrep.header
  have hinuse : getField (setField h.mem (endOf h.heapStart l₁) .prev
      (endOf h.heapStart l₁ + 32)) (endOf h.heapStart l₁) .free = 0 := by
    rw [getField_setField_of_ne (by decide) (by omega)]
    by_contra hfree
    rw [← ne_eq, hheader.free, hc] at hfree
    cases hfree
  have hsize : getField (setField h.mem (endOf h.heapStart l₁) .prev (endOf h.heapStart l₁ + 32))
      (endOf h.heapStart l₁) .size = c.size := by
    rw [getField_setField_of_ne (by decide) (by omega), hheader.size]
  let h' : Heap :=
    { h with mem := setField h.mem (endOf h.heapStart l₁) .prev (endOf h.heapStart l₁ + 32) }
  rw [backPointed_header hrep, kfree_inUse (h := h') (by omega) hrep.wsub_payload (by omega) hinuse,
    hsize]

theorem alike_kfree_backPointed (hrep : Represents h (l₁ ++ c :: l₂)) (hsize : 32 ≤ c.size)
    {m' : ByteMemory} (hm' : m' = coalesceBlocks (setField (setField h.mem
      (endOf h.heapStart l₁) .prev (endOf h.heapStart l₁ + 32)) (endOf h.heapStart l₁) .free 1)
      (endOf h.heapStart l₁)) :
    (∀ x f, x + 32 ≤ endOf h.heapStart l₁ → getField m' x f = getField h.mem x f) ∧
      ∃ m₂, Chain m₂ (endOf h.heapStart l₁ + 32) (endOf h.heapStart l₁)
        (joinFree ⟨c.size, true⟩ l₂) 0 ∧
        ∀ x ∈ headers (endOf h.heapStart l₁) (joinFree ⟨c.size, true⟩ l₂), Alike m₂ m' x := by
  obtain ⟨hpos, hlow, hroom⟩ := hrep.payload_lt
  have hend := hrep.endOf_le
  have hsuffix := (chain_append.mp hrep.chain).2
  rw [endOf_append] at hend
  generalize endOf h.heapStart l₁ = a at *
  have hrest := le_endOf (a + 32 + c.size) l₂
  rw [endOf_cons] at hend
  have hlinked : Chain (setField h.mem a .prev (a + 32)) (a + 32) a ([] ++ c :: l₂) 0 := by
    refine hsuffix.relink (fun x hx f hcase => ?_) fun _ =>
      getField_setField_self (by simp only [Field.width]; omega)
    have hbounds := mem_headers_bounds hx
    rw [endOf_cons] at hbounds
    obtain rfl | hlt := eq_or_le_of_mem_headers hx
    · exact getField_setField_of_ne (hcase.resolve_left fun hne => hne rfl) (by omega)
    · exact getField_setField_of_apart ⟨by omega, by omega, by omega⟩
  have hfreed : Chain (setField (setField h.mem a .prev (a + 32)) a .free 1) (a + 32) a
      ([] ++ ⟨c.size, true⟩ :: l₂) 0 := chain_setFree true hlinked hend
  have hmerged := chain_coalesceNext hfreed hpos hend rfl
  have hcases := coalesceNext_cases hfreed hpos hend rfl
  have hextent := endOf_joinFree a ⟨c.size, true⟩ l₂
  simp only [List.nil_append, endOf_nil] at hmerged hcases
  have hnext : ∀ x f, x + 32 ≤ a → getField (coalesceNext (setField (setField h.mem a .prev
      (a + 32)) a .free 1) a) x f = getField h.mem x f := by
    intro x f hx
    have hapart : HeadersApart x a := ⟨by omega, by omega, by omega⟩
    have hset : getField (setField (setField h.mem a .prev (a + 32)) a .free 1) x f =
        getField h.mem x f := by
      rw [getField_setField_of_apart hapart, getField_setField_of_apart hapart]
    obtain ⟨d, l₃, rfl, -, hmem⟩ | ⟨-, hmem⟩ := hcases
    · rw [hmem, ← hset]
      apply getField_absorb_of_apart hapart
      rw [endOf_cons] at hend
      exact (nextPast_of_end hend).imp_right fun hlt => ⟨by omega, by omega, by omega⟩
    · rw [hmem, hset]
  obtain ⟨d, tl, hjoin⟩ := List.exists_cons_of_ne_nil (joinFree_ne_nil ⟨c.size, true⟩ l₂)
  have hd : c.size ≤ d.size := by
    obtain ⟨e, l₃, -, -, -, hcons⟩ | ⟨-, hcons⟩ := joinFree_cases ⟨c.size, true⟩ l₂
    all_goals
      rw [hjoin] at hcons
      obtain ⟨rfl, -⟩ := List.cons.inj hcons
      simp only
      omega
  rw [hjoin] at hmerged hextent ⊢
  obtain ⟨hbefore, hafter⟩ := coalescePrev_into_payload hmerged (by omega) (hextent.trans_le hend)
  rw [hm', coalesceBlocks]
  exact ⟨fun x f hx => (hbefore x f hx).trans (hnext x f hx), _, hmerged, hafter⟩

theorem joinFree_carve (hsep : Separated (b :: l₂)) (hfits : b.Fits size) :
    ∃ c r, carve size b ++ l₂ = c :: r ∧ c.free = false ∧ size ≤ c.size ∧
      joinFree ⟨c.size, true⟩ r = b :: l₂ := by
  obtain ⟨hb, hle⟩ := hfits
  obtain ⟨bsize, bfree⟩ := b
  simp only at hb hle
  subst hb
  obtain ⟨hsplit, hcarve⟩ | ⟨-, hcarve⟩ := carve_cases size ⟨bsize, true⟩
  · refine ⟨_, _, by rw [hcarve]; rfl, rfl, le_rfl, ?_⟩
    simp only at hsplit
    have hjoin : joinFree ⟨size, true⟩ (⟨bsize - size - 32, true⟩ :: l₂) =
        ⟨size + 32 + (bsize - size - 32), true⟩ :: l₂ := by simp [joinFree]
    rw [show size + 32 + (bsize - size - 32) = bsize by omega] at hjoin
    exact hjoin
  · refine ⟨_, _, by rw [hcarve]; rfl, rfl, hle, ?_⟩
    obtain ⟨d, tl, rfl, -, hd, -⟩ | ⟨-, hjoin⟩ := joinFree_cases ⟨bsize, true⟩ l₂
    · exact absurd ⟨rfl, hd⟩ ((separated_cons.mp hsep).1 d (by simp))
    · exact hjoin

/-- An allocation whose payload was aligned already is released like any other. -/
theorem sameBlocks_kfree_aligned (hrep : Represents h (l₁ ++ b :: l₂)) (hfits : b.Fits size)
    (hbound : size + 48 < 2 ^ 64) (hmod : size % 8 = 0) (hlarge : 32 ≤ size) :
    SameBlocks h (((h.taken (endOf h.heapStart l₁) size).backPointed (endOf h.heapStart l₁ + 32)
      (endOf h.heapStart l₁ + 32)).kfree (endOf h.heapStart l₁ + 32)) := by
  have hafter := represents_taken hrep hfits hbound hmod
  obtain ⟨c, r, hcarve, hc, hle, hjoin⟩ :=
    joinFree_carve (separated_append.mp hrep.separated).2.1 hfits
  rw [hcarve] at hafter
  have hchain := chain_append.mp hafter.chain
  have hfree := kfree_backPointed hafter hc
  generalize hm' : coalesceBlocks _ _ = m' at hfree
  obtain ⟨hbefore, m₂, hmerged, hsame⟩ := alike_kfree_backPointed hafter (by omega) hm'.symm
  have hused := usedBytes_kfree hafter hc
  have hchain₀ := chain_append.mp hrep.chain
  simp only [heapStart_taken] at hchain hfree hbefore hmerged hsame
  rw [hfree]
  constructor
  · refine hrep.toLaid.blockList_congr rfl fun x hx => ?_
    rw [headers_append, List.mem_append] at hx
    obtain hx | hx := hx
    · have hleft := hchain₀.1
      have hright := hchain.1
      rw [if_neg (by simp)] at hleft hright
      exact (hleft.alike hright hx).trans
        (alike_of_fields fun f _ => hbefore x f (mem_headers_bounds hx).2)
    · rw [hjoin] at hmerged hsame
      exact (hchain₀.2.alike hmerged hx).trans (hsame x hx)
  · rw [hrep.used]
    refine Eq.trans ?_ hused.symm
    have hbytes := usedBytes_joinFree ⟨c.size, true⟩ r
    rw [hjoin] at hbytes
    rw [usedBytes_append, usedBytes_append, hbytes]

theorem taken_apply (hrep : Represents h (l₁ ++ b :: l₂)) (hbound : size + 48 < 2 ^ 64)
    (hlow : endOf h.heapStart l₁ + 32 ≤ y)
    (hhigh : y < endOf h.heapStart l₁ + 32 + size) :
    (h.taken (endOf h.heapStart l₁) size).mem y = h.mem y := by
  have hroom := hrep.payload_lt
  calc setField (splitBlock h.mem (endOf h.heapStart l₁) size) (endOf h.heapStart l₁) .free 0 y
      = splitBlock h.mem (endOf h.heapStart l₁) size y := setField_apply ⟨by omega, by omega⟩
    _ = h.mem y := splitBlock_front hrep hbound hlow hhigh

theorem free_of_sameBlocks (hrep : Represents h (l₁ ++ b :: l₂)) (hb : b.free = true)
    (hsame : SameBlocks h h') : getField h'.mem (endOf h.heapStart l₁) .free ≠ 0 := by
  have hlist := hsame.1.symm.trans hrep.toLaid.blockList_eq
  have hblock := mem_blockListFrom hlist (mem_zip_headers.mpr ⟨l₁, l₂, rfl, rfl⟩ :
    (endOf h.heapStart l₁, b) ∈ _)
  have hfree := congrArg Block.free hblock
  rw [hb] at hfree
  exact of_decide_eq_true hfree.symm

theorem coalesceBlocks_none
    (hnext : getField m x .next = 0 ∨ getField m (getField m x .next) .free = 0)
    (hprev : getField m x .prev = 0 ∨ getField m (getField m x .prev) .free = 0) :
    coalesceBlocks m x = m := by
  have hskip : coalesceNext m x = m := by
    rw [coalesceNext, if_neg]
    rintro ⟨hne, hfree⟩
    exact hnext.elim hne hfree
  rw [coalesceBlocks, hskip, coalescePrev, if_neg]
  rintro ⟨hne, hfree⟩
  exact hprev.elim hne hfree

theorem size_eq_of_used {used : Nat} (hsize : size < 2 ^ 64) (hv : v < 2 ^ 64)
    (heq : used = wsub (wadd used (wadd size headerSize)) (wadd v headerSize)) : v = size := by
  rw [headerSize_eq] at heq
  unfold wsub wadd at heq
  omega

/-- What `kfree` finds before an aligned address `q` that is not the payload of the block at `a`: the last
fields of the header there, then zeros, and the pointer stored before `q`. -/
structure Stray (m : ByteMemory) (a q size next prev : Nat) : Prop where
  free : getField m a .free = 0
  next : getField m a .next = next
  prev : getField m a .prev = prev
  back : m.read (q - 8) 8 = a + 32
  zero : ∀ x w, a + 32 ≤ x → x + w ≤ a + 32 + size → x + w ≤ q - 8 ∨ q ≤ x → m.read x w = 0

theorem read_setField_free {w : Nat} (hx : x + 32 ≤ 2 ^ 64) (hy : y + w ≤ 2 ^ 64)
    (hapart : y + w ≤ x + 8 ∨ x + 12 ≤ y) : (setField m x .free v).read y w = m.read y w := by
  apply ByteMemory.read_write_of_apart
  refine ByteMemory.apart_of_le hy ?_ ?_
  all_goals
    simp only [Field.offset, Field.width]
    omega

theorem Stray.size_eq {next : Nat} (hstray : Stray m a q size next prev) (hlow : a + 40 ≤ q)
    (hhigh : q + 33 ≤ a + 32 + size) (hmod : (q - a) % 8 = 0) :
    q = a + 40 ∨ q = a + 56 ∨ getField m (q - 32) .size = next ∨ getField m (q - 32) .size = 0 := by
  obtain rfl | rfl | rfl | hfar : q = a + 40 ∨ q = a + 56 ∨ q = a + 48 ∨ a + 64 ≤ q := by omega
  · exact Or.inl rfl
  · exact Or.inr (Or.inl rfl)
  · exact Or.inr (Or.inr (Or.inl hstray.next))
  · refine Or.inr (Or.inr (Or.inr (hstray.zero _ _ ?_ ?_ (Or.inl ?_))))
    all_goals
      simp only [Field.offset, Field.width]
      omega

/-- At 8 and at 24 bytes from the payload, nothing around the piece of memory freed looks free. -/
theorem Stray.coalesceBlocks_eq {next : Nat} (hstray : Stray m a q size next prev)
    (hroom : a + 32 + size ≤ 2 ^ 64) (hq : q = a + 40 ∨ q = a + 56) (hhigh : q + 33 ≤ a + 32 + size)
    (hprev : prev = 0 ∨ prev + 32 ≤ a ∧ getField m prev .free = 0) :
    coalesceBlocks (setField m (q - 32) .free 1) (q - 32) = setField m (q - 32) .free 1 := by
  have hread : ∀ y w, y + w ≤ a + 32 + size → y + w ≤ q - 24 ∨ q - 20 ≤ y →
      (setField m (q - 32) .free 1).read y w = m.read y w := fun y w hy hapart =>
    read_setField_free (by omega) (by omega) (by omega)
  have hback : getField (setField m (q - 32) .free 1) (q - 32) .prev = a + 32 := by
    rw [getField, hread _ _ (by simp only [Field.offset, Field.width]; omega)
      (by simp only [Field.offset]; omega), ← hstray.back]
    simp only [Field.offset, Field.width]
    congr 1
    omega
  have hfree : getField (setField m (q - 32) .free 1) (a + 32) .free = 0 := by
    rw [getField, hread _ _ (by simp only [Field.offset, Field.width]; omega)
      (by simp only [Field.offset, Field.width]; omega)]
    exact hstray.zero _ _ (by omega) (by simp only [Field.offset, Field.width]; omega)
      (by simp only [Field.offset, Field.width]; omega)
  refine coalesceBlocks_none ?_ (Or.inr (by rw [hback, hfree]))
  obtain rfl | rfl := hq
  · have hnext : getField (setField m (a + 40 - 32) .free 1) (a + 40 - 32) .next = prev := by
      rw [getField, hread _ _ (by simp only [Field.offset, Field.width]; omega)
        (by simp only [Field.offset]; omega), ← hstray.prev]
      rfl
    rw [hnext]
    obtain hzero | ⟨hbefore, hinuse⟩ := hprev
    · exact Or.inl hzero
    · refine Or.inr ?_
      rw [getField, hread _ _ (by simp only [Field.offset, Field.width]; omega)
        (by simp only [Field.offset, Field.width]; omega)]
      exact hinuse
  · refine Or.inl ?_
    rw [getField, hread _ _ (by simp only [Field.offset, Field.width]; omega)
      (by simp only [Field.offset]; omega)]
    exact hstray.zero _ _ (by simp only [Field.offset]; omega)
      (by simp only [Field.offset, Field.width]; omega)
      (by simp only [Field.offset, Field.width]; omega)

theorem stray_taken (hrep : Represents h (l₁ ++ b :: l₂)) (hfits : b.Fits size)
    (hbound : size + 48 < 2 ^ 64) (hafter : Represents (h.taken (endOf h.heapStart l₁) size)
      (l₁ ++ c :: bs)) (hc : c.free = false)
    (hlow : endOf h.heapStart l₁ + 32 + 8 ≤ q) (hhigh : q ≤ endOf h.heapStart l₁ + 32 + size)
    (hzero : ∀ y, endOf h.heapStart l₁ + 32 ≤ y → y < endOf h.heapStart l₁ + 32 + size →
      h.mem y = 0) :
    Stray ((h.taken (endOf h.heapStart l₁) size).mem.write (q - 8) 8 (endOf h.heapStart l₁ + 32))
      (endOf h.heapStart l₁) q size (if bs = [] then 0 else endOf h.heapStart l₁ + 32 + c.size)
      (lastHeader 0 h.heapStart l₁) := by
  have hroom := hrep.payload_lt
  have hle := hfits.2
  have hheader := hafter.header
  have hfields : ∀ f, getField ((h.taken (endOf h.heapStart l₁) size).mem.write (q - 8) 8
      (endOf h.heapStart l₁ + 32)) (endOf h.heapStart l₁) f =
      getField (h.taken (endOf h.heapStart l₁) size).mem (endOf h.heapStart l₁) f := by
    intro f
    have hf := f.offset_add_width_le
    exact ByteMemory.read_write_of_apart
      (ByteMemory.apart_of_le (by omega) (by omega) (Or.inl (by omega)))
  refine ⟨?_, ?_, ?_, ?_, fun x w hx hxw hcase => ?_⟩
  · rw [hfields]
    by_contra hfree
    have hinuse := hheader.free.mp hfree
    rw [hc] at hinuse
    cases hinuse
  · rw [hfields]
    exact hheader.next
  · rw [hfields]
    exact hheader.prev
  · rw [ByteMemory.read_write_self (by decide), Nat.mod_eq_of_lt (by omega)]
  · refine ByteMemory.read_of_zero fun i hi => ?_
    rw [Nat.mod_eq_of_lt (by omega), ByteMemory.write_apply_of_outside,
      taken_apply hrep hbound (by omega) (by omega)]
    · exact hzero _ (by omega) (by omega)
    · intro j hj
      rw [Nat.mod_eq_of_lt (by omega)]
      omega

theorem lastHeader_concat (prev a : Nat) (l₁ : List Block) (b : Block) :
    lastHeader prev a (l₁ ++ [b]) = endOf a l₁ := by
  induction l₁ generalizing prev a with
  | nil => rfl
  | cons c l₁ ih => exact ih _ _

/-- The block before one that was free is in use. -/
theorem previous_taken (hrep : Represents h (l₁ ++ b :: l₂)) (hb : b.free = true)
    (hafter : Represents (h.taken (endOf h.heapStart l₁) size) (l₁ ++ c :: bs))
    (hlow : endOf h.heapStart l₁ + 32 + 8 ≤ q) (hhigh : q ≤ 2 ^ 64) :
    lastHeader 0 h.heapStart l₁ = 0 ∨ lastHeader 0 h.heapStart l₁ + 32 ≤ endOf h.heapStart l₁ ∧
      getField ((h.taken (endOf h.heapStart l₁) size).mem.write (q - 8) 8
        (endOf h.heapStart l₁ + 32)) (lastHeader 0 h.heapStart l₁) .free = 0 := by
  obtain rfl | ⟨l₀, d, rfl⟩ := List.eq_nil_or_concat' l₁
  · exact Or.inl rfl
  have hd : d.free = false := by
    obtain ⟨-, -, hjoint⟩ := separated_append.mp hrep.separated
    simpa [hb] using hjoint d (by simp) b (by simp)
  have hplace : endOf h.heapStart (l₀ ++ [d]) = endOf h.heapStart l₀ + 32 + d.size := by
    rw [endOf_append]
    rfl
  rw [List.append_assoc, List.singleton_append] at hafter
  have hheader := hafter.header
  rw [heapStart_taken] at hheader
  rw [lastHeader_concat]
  refine Or.inr ⟨by omega, ?_⟩
  rw [getField, ByteMemory.read_write_of_apart (ByteMemory.apart_of_le
    (by simp only [Field.offset, Field.width]; omega) (by omega)
    (Or.inl (by simp only [Field.offset, Field.width]; omega)))]
  by_contra hfree
  have hinuse := hheader.free.mp hfree
  rw [hd] at hinuse
  cases hinuse

/-- Freeing an aligned address that is not the payload itself: the size counted back is not that of the
block, or the block keeps its flag. -/
theorem not_sameBlocks_kfree_unaligned (hrep : Represents h (l₁ ++ b :: l₂)) (hfits : b.Fits size)
    (hbound : size + 48 < 2 ^ 64) (hmod : size % 8 = 0)
    (hptr : (endOf h.heapStart l₁ + 32) % 8 = 0) (hq : q % 8 = 0)
    (hlow : endOf h.heapStart l₁ + 32 + 8 ≤ q) (hhigh : q + 33 ≤ endOf h.heapStart l₁ + 32 + size)
    (hzero : ∀ y, endOf h.heapStart l₁ + 32 ≤ y → y < endOf h.heapStart l₁ + 32 + size →
      h.mem y = 0) :
    ¬ SameBlocks h (((h.taken (endOf h.heapStart l₁) size).backPointed q
      (endOf h.heapStart l₁ + 32)).kfree q) := by
  intro hsame
  have hafter := represents_taken hrep hfits hbound hmod
  obtain ⟨c, r, hcarve, hc, hle, -⟩ :=
    joinFree_carve (separated_append.mp hrep.separated).2.1 hfits
  rw [hcarve] at hafter
  have hstray := stray_taken hrep hfits hbound hafter hc hlow (by omega) hzero
  have hroom := hafter.payload_lt
  rw [heapStart_taken] at hroom
  have hprev := previous_taken hrep hfits.1 hafter hlow (by omega)
  have hflag := free_of_sameBlocks hrep hfits.1 hsame
  have hused := hsame.2
  have hcounter : (h.taken (endOf h.heapStart l₁) size).heapUsedSize =
      wadd h.heapUsedSize (wadd c.size headerSize) := by
    rw [← hafter.header.size]
    rfl
  have hback : wsub q 8 = q - 8 := wsub_of_le (by omega) (by omega)
  have hblock : wsub q headerSize = q - 32 :=
    wsub_of_le (by rw [headerSize_eq]; omega) (by omega)
  rw [backPointed, hback] at hflag hused
  generalize (h.taken (endOf h.heapStart l₁) size).mem.write (q - 8) 8
    (endOf h.heapStart l₁ + 32) = m at hstray hprev hflag hused
  by_cases hfake : getField m (q - 32) .free = 0
  · rw [kfree_inUse (h := { h.taken (endOf h.heapStart l₁) size with mem := m }) (by omega) hblock
      (by omega) hfake] at hflag hused
    dsimp only at hflag hused
    rw [hcounter] at hused
    have hcounted := size_eq_of_used (by omega) (getField_lt _ _ _) hused
    have hkeeps : q ≠ endOf h.heapStart l₁ + 40 ∧ q ≠ endOf h.heapStart l₁ + 56 := by
      rw [← not_or]
      intro hq
      rw [hstray.coalesceBlocks_eq (by omega) hq (by omega) hprev, getField, read_setField_free
        (by omega) (by simp only [Field.offset, Field.width]; omega)
        (Or.inl (by simp only [Field.offset, Field.width]; omega))] at hflag
      exact hflag hstray.free
    obtain hstart | hstart | hsize | hsize := hstray.size_eq (by omega) (by omega) (by omega)
    · exact hkeeps.1 hstart
    · exact hkeeps.2 hstart
    · rw [hsize] at hcounted
      split at hcounted <;> omega
    · omega
  · rw [kfree_free (h := { h.taken (endOf h.heapStart l₁) size with mem := m })
      (by rw [hblock]; exact hfake)] at hused
    dsimp only at hused
    rw [hcounter, headerSize_eq] at hused
    unfold wadd at hused
    omega

/-- `m'` is the memory of `h` but for the payloads of the free blocks. -/
def UpToFree (h : Heap) (m' : ByteMemory) : Prop :=
  ∃ l, h.blockList = some l ∧
    ∀ y, (∀ e ∈ l, e.2.free = true → y ∉ Set.Ico (e.1 + 32) (e.1 + 32 + e.2.size)) → m' y = h.mem y

theorem Represents.upToFree (hrep : Represents h bs) (hm' : h.UpToFree m') :
    Represents { h with mem := m' } bs := by
  obtain ⟨l, hlist, hsame⟩ := hm'
  obtain rfl := Option.some_inj.mp (hlist.symm.trans hrep.toLaid.blockList_eq)
  refine hrep.congr_mem fun x hx i hi => hsame _ fun e he _ hmem => ?_
  obtain ⟨l₁, l₂, hbs, haddr⟩ := mem_zip_headers.mp he
  rw [hbs] at hx
  have hposition := header_position hx
  have hlow := hmem.1
  have hhigh := hmem.2
  omega

/-- The search depends on the block list only. -/
theorem findFreeBlock_congr (hrep : Represents h bs) (hrep' : Represents h' bs)
    (hstart : h'.heapStart = h.heapStart) (size : Nat) :
    h'.findFreeBlock size = h.findFreeBlock size := by
  obtain ⟨l₁, b, l₂, rfl, hfirst, hfits, hfind⟩ | ⟨hnone, hfind⟩ := findFreeBlock_cases size hrep
  · obtain ⟨l₃, c, l₄, heq, hfirst', hfits', hfind'⟩ | ⟨hnone', -⟩ := findFreeBlock_cases size hrep'
    · rw [hfind, hfind', hstart, Option.some_inj]
      exact le_antisymm (first_le_of_fits _ heq.symm hfirst' hfits)
        (first_le_of_fits _ heq hfirst hfits')
    · exact absurd hfits (hnone' b (by simp))
  · obtain ⟨l₃, c, l₄, rfl, -, hfits', -⟩ | ⟨-, hfind'⟩ := findFreeBlock_cases size hrep'
    · exact absurd hfits' (hnone c (by simp))
    · rw [hfind, hfind']

/-- `kfree` of what `kmalloc_aligned` returns restores block list and counter. -/
def FreesAligned (h : Heap) (n align : Nat) : Prop :=
  ∀ q h', h.kmallocAligned n align = some (q, h') → q ≠ 0 → SameBlocks h (h'.kfree q)

/-- The payload of the block found for the padded size starts at a multiple of the alignment. -/
def AlignedAlready (h : Heap) (n align : Nat) : Prop :=
  ∀ block, h.findFreeBlock (alignSize (paddedSize n align)) = some block → block ≠ 0 →
    max align 8 ∣ block + headerSize

variable (hrep : Represents h bs) (hmod : h.heapStart % 8 = 0) (hpos : 1 ≤ n)
  (hn : n + max (2 ^ k) 8 + 39 < 2 ^ 64) (hsafe : h.Unwrapped (paddedSize n (2 ^ k)))

include hrep hmod hpos hn hsafe

theorem freesAligned_of_already (halready : h.AlignedAlready n (2 ^ k)) (hm' : h.UpToFree m') :
    FreesAligned { h with mem := m' } n (2 ^ k) := by
  intro q h' hq hne
  have hrep' := hrep.upToFree hm'
  have hpow : 2 ^ k ≤ max (2 ^ k) 8 := le_max_left _ _
  obtain ⟨-, hnull⟩ | ⟨l₁, b, l₂, rfl, hfits, hfind, -, hrun⟩ := kmallocAligned_outcomes hrep' n k
  · exact absurd (Prod.mk.inj (Option.some_inj.mp (hq.symm.trans hnull))).1 hne
  obtain ⟨rfl, rfl⟩ := Prod.mk.inj (Option.some_inj.mp (hrun.symm.trans hq))
  have hstart := hrep'.payload_lt.1
  rw [findFreeBlock_congr hrep hrep' rfl] at hfind
  have hbound : alignSize (paddedSize n (2 ^ k)) + 48 < 2 ^ 64 := by
    refine hsafe.resolve_right fun hnone => ?_
    have hzero := Option.some_inj.mp (hfind.symm.trans hnone)
    omega
  have hpadded := paddedSize_eq hn
  have hlarge : 32 ≤ alignSize (paddedSize n (2 ^ k)) :=
    le_trans (by omega) (le_alignSize (n := paddedSize n (2 ^ k)) (by omega))
  rw [alignUp_found hrep' hmod (by omega) hfits (halready _ hfind (by omega))]
  exact sameBlocks_kfree_aligned hrep' hfits hbound (alignSize_mod _) hlarge

theorem already_of_freesAligned
    (hfrees : ∀ m', h.UpToFree m' → FreesAligned { h with mem := m' } n (2 ^ k)) :
    h.AlignedAlready n (2 ^ k) := by
  intro block hblock hne
  by_contra hdvd
  obtain ⟨l₁, b, l₂, rfl, -, hfits, hfind⟩ | ⟨-, hfind⟩ := findFreeBlock_cases _ hrep
  swap
  · exact hne (Option.some_inj.mp (hblock.symm.trans hfind))
  obtain rfl := Option.some_inj.mp (hblock.symm.trans hfind)
  have hpow : 2 ^ k ≤ max (2 ^ k) 8 := le_max_left _ _
  have hbound : alignSize (paddedSize n (2 ^ k)) + 48 < 2 ^ 64 := by
    refine hsafe.resolve_right fun hnone => hne ?_
    exact Option.some_inj.mp (hblock.symm.trans hnone)
  obtain ⟨hq, hle, hend⟩ := alignUp_within hrep hn hfits rfl
  have hptr := hrep.toLaid.payload_mod hmod
  have hfar := add_eight_le_alignUp hptr hle hq hdvd
  have hsize := hfits.2
  -- nothing is known of the free memory; let the block hold zeros
  obtain ⟨m', hm'⟩ : ∃ m' : ByteMemory, ∀ y, m' y =
      if endOf h.heapStart l₁ + 32 ≤ y ∧ y < endOf h.heapStart l₁ + 32 + b.size then 0
      else h.mem y := ⟨_, fun y => rfl⟩
  have hfree : h.UpToFree m' := by
    refine ⟨_, hrep.toLaid.blockList_eq, fun y hy => ?_⟩
    rw [hm', if_neg]
    exact hy (endOf h.heapStart l₁, b) (mem_zip_headers.mpr ⟨l₁, l₂, rfl, rfl⟩) hfits.1
  have hrep' := hrep.upToFree hfree
  have hfind' := (findFreeBlock_congr hrep hrep' rfl (alignSize (paddedSize n (2 ^ k)))).trans hfind
  have hrun := kmallocAligned_found hrep' (paddedSize_ne_zero hpos (by omega)) hfind'
  have height : 8 ∣ max (2 ^ k) 8 := by
    rw [max_two_pow]
    exact pow_dvd_pow 2 (le_max_right k 3)
  have hzero : ∀ y, endOf h.heapStart l₁ + 32 ≤ y →
      y < endOf h.heapStart l₁ + 32 + alignSize (paddedSize n (2 ^ k)) → m' y = 0 := by
    intro y hlow hhigh
    rw [hm', if_pos ⟨hlow, by omega⟩]
  exact not_sameBlocks_kfree_unaligned hrep' hfits hbound (alignSize_mod _) hptr
    (Nat.mod_eq_zero_of_dvd (height.trans hq)) hfar (by dsimp only; omega) hzero
    (hfrees m' hfree _ _ hrun (by omega))

omit hrep hmod hpos hn hsafe

/-- **Freeing aligned allocations.** In every heap reached by calls that keep the bound of `split_block`
from wrapping, whatever the free memory holds: `kfree` of what `kmalloc_aligned` returned releases the
block exactly when nothing was found or the payload found was aligned already. -/
theorem freesAligned_iff (h : Heap) (start size : Nat) (hacc : Accepts start size) {s : Session}
    (hrun : Session.Run Session.Bounded ⟨h.heapInit start size, []⟩ s) {n k : Nat} (hpos : 1 ≤ n)
    (hn : n + max (2 ^ k) 8 + 39 < 2 ^ 64) (hok : s.Bounded (.kmalloc (paddedSize n (2 ^ k)))) :
    (∀ m', s.heap.UpToFree m' → FreesAligned { s.heap with mem := m' } n (2 ^ k)) ↔
      s.heap.AlignedAlready n (2 ^ k) := by
  obtain ⟨bs, hrep, -⟩ := (Session.sound_heapInit h hacc).run hrun
  have hpow : 2 ^ k ≤ max (2 ^ k) 8 := le_max_left _ _
  have hmod : s.heap.heapStart % 8 = 0 := by
    rw [(Session.sameRange_run hrun).start]
    exact heapStart_heapInit_mod h hacc
  have hsafe : s.heap.Unwrapped (paddedSize n (2 ^ k)) :=
    hok.resolve_left (paddedSize_ne_zero hpos (by omega))
  exact ⟨already_of_freesAligned hrep hmod hpos hn hsafe,
    fun halready m' hm' => freesAligned_of_already hrep hmod hpos hn hsafe halready hm'⟩

theorem freesAligned_onePage : onePage.heap.FreesAligned 16 (2 ^ 4) := by
  have hfind : onePage.heap.findFreeBlock (alignSize (paddedSize 16 (2 ^ 4))) = some 0x1030 := by
    decide +kernel
  have hrun : Session.Run Session.Bounded ⟨blank.heapInit 0x1000 0x1000, []⟩ onePage :=
    Relation.ReflTransGen.single
      ⟨.kmalloc 16, by decide, Or.inr (Or.inl (by decide)), (Option.some_get _).symm⟩
  obtain ⟨l, hlist⟩ : ∃ l, onePage.heap.blockList = some l :=
    Option.isSome_iff_exists.mp (by decide +kernel)
  refine (freesAligned_iff blank 0x1000 0x1000 ⟨by decide, by decide, by decide⟩ hrun
    (by decide) (by decide) (Or.inr (Or.inl (by decide)))).mpr (fun block hblock _ => ?_)
    onePage.heap.mem ⟨l, hlist, fun y _ => rfl⟩
  obtain rfl := Option.some_inj.mp (hblock.symm.trans hfind)
  decide

/-- On a fresh heap of zeros 16 bytes at a multiple of 64 are found at 0x1040, in the block whose payload
is at 0x1020; of the 144 bytes counted for it, freeing 0x1040 takes 32 back. -/
theorem not_freesAligned_firstBlock : Accepts 0x1000 0x1000 ∧
    Session.Run (fun _ _ => True) ⟨blank.heapInit 0x1000 0x1000, []⟩
      ⟨blank.heapInit 0x1000 0x1000, []⟩ ∧
    ((blank.heapInit 0x1000 0x1000).kmallocAligned 16 (2 ^ 6)).map
      (fun r => (r.1, r.2.heapUsedSize, (r.2.kfree r.1).heapUsedSize)) = some (0x1040, 144, 112) ∧
    ¬ (blank.heapInit 0x1000 0x1000).FreesAligned 16 (2 ^ 6) := by
  have hgranted : ((blank.heapInit 0x1000 0x1000).kmallocAligned 16 (2 ^ 6)).map
      (fun r => (r.1, r.2.heapUsedSize, (r.2.kfree r.1).heapUsedSize)) = some (0x1040, 144, 112) := by
    decide +kernel
  have hfirst : (blank.heapInit 0x1000 0x1000).heapUsedSize = 0 := by decide +kernel
  refine ⟨⟨by decide, by decide, by decide⟩, Relation.ReflTransGen.refl, hgranted, fun hfrees => ?_⟩
  obtain ⟨⟨q, h'⟩, hrun, hq⟩ := Option.map_eq_some_iff.mp hgranted
  obtain ⟨rfl, hq⟩ := Prod.mk.inj hq
  obtain ⟨-, hused⟩ := Prod.mk.inj hq
  have hsame := (hfrees _ _ hrun (by decide)).2
  exact absurd (hfirst.symm.trans (hsame.trans hused)) (by decide)

end Heap

end SimpleOs
