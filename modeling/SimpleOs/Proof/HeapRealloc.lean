import SimpleOs.Proof.HeapRun

/-!
# Resizing allocations

`krealloc` shrinks a block in place, grows it in place over a free neighbour, or moves it. Shrinking
and moving keep the heap intact; growing in place overwrites the size without unlinking the
neighbour, so the blocks no longer tile the heap.
-/

namespace SimpleOs.Heap

def payload (h : Heap) (ptr : Nat) : Set Nat := Set.Ico ptr (ptr + h.kmallocSize ptr)

namespace Session

/-- The blocks tile the heap, linked both ways; live payloads overlap neither each other nor a
header. -/
def Intact (s : Session) : Prop :=
  ∃ bs, bs ≠ [] ∧ Chain s.heap.mem 0 s.heap.heapStart bs 0 ∧
    endOf s.heap.heapStart bs = s.heap.heapStart + s.heap.heapTotalSize ∧
    (s.live.Pairwise fun p q => Disjoint (s.heap.payload p) (s.heap.payload q)) ∧
    ∀ p ∈ s.live, ∀ x ∈ headers s.heap.heapStart bs,
      Disjoint (s.heap.payload p) (Set.Ico x (x + 32))

/-- The session after `krealloc(ptr, ..)` has returned; a null result leaves `ptr` live. -/
def reallocated (s : Session) (ptr : Nat) (result : Nat × Heap) : Session :=
  ⟨result.2, if result.1 = 0 then s.live else result.1 :: s.live.erase ptr⟩

end Session

variable {h : Heap} {m : ByteMemory} {a x y size n p q ptr : Nat} {b c : Block}
  {bs l₁ l₂ : List Block} {live : List Nat} {s : Session}

def PayloadOf (h : Heap) (bs : List Block) (p : Nat) : Prop :=
  ∃ l₁ b l₂, bs = l₁ ++ b :: l₂ ∧ p = endOf h.heapStart l₁ + 32

theorem disjoint_header (hlaid : Laid h bs) (hp : PayloadOf h bs p)
    (hx : x ∈ headers h.heapStart bs) : Disjoint (h.payload p) (Set.Ico x (x + 32)) := by
  obtain ⟨l₁, b, l₂, rfl, rfl⟩ := hp
  have hposition := header_position hx
  rw [payload, kmallocSize_eq hlaid, Set.Ico_disjoint_Ico]
  omega

theorem payload_apart (hlaid : Laid h bs) (hp : PayloadOf h bs p) (hq : PayloadOf h bs q)
    (hlt : p < q) : p + h.kmallocSize p ≤ q := by
  obtain ⟨l₁, b, l₂, rfl, rfl⟩ := hp
  obtain ⟨l₃, c, l₄, hbs, rfl⟩ := hq
  have hmem : endOf h.heapStart l₃ ∈ headers h.heapStart (l₁ ++ b :: l₂) := by
    rw [hbs, headers_append, headers]
    simp
  have hposition := header_position hmem
  rw [kmallocSize_eq hlaid]
  omega

theorem Laid.intact (hlaid : Laid h bs) (hnodup : live.Nodup)
    (hlive : ∀ p ∈ live, PayloadOf h bs p) : Session.Intact ⟨h, live⟩ := by
  refine ⟨bs, hlaid.nonempty, hlaid.chain, hlaid.tiles, ?_,
    fun p hp x hx => disjoint_header hlaid (hlive p hp) hx⟩
  refine hnodup.pairwise_of_forall_ne fun p hp q hq hne => ?_
  change Disjoint (h.payload p) (h.payload q)
  rw [payload, payload, Set.Ico_disjoint_Ico]
  obtain hlt | hlt := Nat.lt_or_gt_of_ne hne
  · have hle := payload_apart hlaid (hlive p hp) (hlive q hq) hlt
    omega
  · have hle := payload_apart hlaid (hlive q hq) (hlive p hp) hlt
    omega

theorem intact_of_payloads (hlaid : Laid h bs) (hlive : live.Perm (payloads h.heapStart bs)) :
    Session.Intact ⟨h, live⟩ := by
  refine hlaid.intact (hlive.nodup_iff.mpr (payloads_nodup _ _)) fun p hp => ?_
  obtain ⟨l₁, b, l₂, hbs, -, rfl⟩ := mem_payloads.mp (hlive.mem_iff.mp hp)
  exact ⟨l₁, b, l₂, hbs, rfl⟩

theorem Session.Sound.intact (hsound : s.Sound) : s.Intact := by
  obtain ⟨bs, hrep, hlive⟩ := hsound
  exact intact_of_payloads hrep.toLaid hlive

theorem chain_shrink (hlaid : Laid h (l₁ ++ b :: l₂)) (hb : b.free = false)
    (hbound : size + 48 < 2 ^ 64) :
    Chain (splitBlock h.mem (endOf h.heapStart l₁) size) 0 h.heapStart
      (l₁ ++ (carve size b ++ l₂)) 0 := by
  obtain ⟨hsplit, hcarve⟩ | ⟨hsmall, hcarve⟩ := carve_cases size b
  · have hchain := chain_splitBlock hlaid.chain hlaid.endOf_le hsplit
    rw [hb] at hchain
    rw [hcarve]
    exact hchain
  · have hkeep : splitBlock h.mem (endOf h.heapStart l₁) size = h.mem := by
      rw [splitBlock, if_pos]
      rw [hlaid.header.size, minBlockSize_eq, wadd_of_lt hbound]
      exact hsmall
    rw [hkeep, hcarve, ← hb]
    exact hlaid.chain

theorem laid_shrink (hlaid : Laid h (l₁ ++ b :: l₂)) (hb : b.free = false)
    (hbound : size + 48 < 2 ^ 64) (hsize : size % 8 = 0) :
    Laid { h with mem := splitBlock h.mem (endOf h.heapStart l₁) size }
      (l₁ ++ (carve size b ++ l₂)) := by
  refine ⟨chain_shrink hlaid hb hbound, hlaid.start, ?_, ?_, hlaid.end_le,
    shaped_carve hlaid.shaped hsize⟩
  · obtain ⟨-, hcarve⟩ | ⟨-, hcarve⟩ := carve_cases size b <;> simp [hcarve]
  · rw [endOf_append, endOf_append, endOf_carve]
    have htiles := hlaid.tiles
    rwa [endOf_append, endOf_cons] at htiles

theorem payloads_shrink (hb : b.free = false) :
    payloads a (l₁ ++ (carve size b ++ l₂)) = payloads a (l₁ ++ b :: l₂) := by
  rw [payloads_append, payloads_append, payloads_carve, endOf_carve, payloads_append, payloads, hb]
  rfl

theorem copyBytes_apply_of_outside {dst src i k : Nat} (hout : ∀ j, i ≤ j → j < i + k →
    (dst + j) % 2 ^ 64 ≠ x) : copyBytes m dst src i k x = m x := by
  induction k generalizing m i with
  | zero => rfl
  | succ k ih =>
      rw [copyBytes, ih fun j hlow hhigh => hout j (by omega) (by omega)]
      exact Function.update_of_ne (hout i le_rfl (by omega)).symm _ _

theorem size_le_endOf (hmem : b ∈ bs) : a + 32 + b.size ≤ endOf a bs := by
  obtain ⟨l₁, l₂, rfl⟩ := List.append_of_mem hmem
  have hfirst := le_endOf a l₁
  have hrest := le_endOf (endOf a l₁ + 32 + b.size) l₂
  rw [endOf_append, endOf_cons]
  omega

theorem unwrapped_of_inUse (hrep : Represents h (l₁ ++ b :: l₂)) (hb : b.free = false) (n : Nat) :
    h.Unwrapped n := by
  obtain ⟨l₃, c, l₄, hbs, -, hfits, -⟩ | ⟨-, hnone⟩ := findFreeBlock_cases (alignSize n) hrep
  · refine Or.inl ?_
    have hend := hrep.endOf_le
    have hstart := hrep.start
    have hfirst := le_endOf h.heapStart l₁
    have hrest := le_endOf (endOf h.heapStart l₁ + 32 + b.size) l₂
    have hc : c ∈ l₁ ++ b :: l₂ := by
      rw [hbs]
      simp
    obtain ⟨hfree, hsize⟩ := hfits
    rw [minBlockSize_eq]
    rw [endOf_append, endOf_cons] at hend
    rw [List.mem_append, List.mem_cons] at hc
    obtain hc | rfl | hc := hc
    · have hroom := size_le_endOf (a := h.heapStart) hc
      omega
    · rw [hb] at hfree
      exact absurd hfree (by decide)
    · have hroom := size_le_endOf (a := endOf h.heapStart l₁ + 32 + b.size) hc
      omega
  · exact Or.inr hnone

theorem represents_copyBytes (hrep : Represents h (l₁ ++ b :: l₂)) (src : Nat) {k : Nat}
    (hk : k ≤ b.size) : Represents
      { h with mem := Heap.copyBytes h.mem (endOf h.heapStart l₁ + 32) src 0 k } (l₁ ++ b :: l₂) := by
  refine hrep.congr_mem fun x hx i hi => copyBytes_apply_of_outside fun j hlow hhigh => ?_
  have hposition := header_position hx
  have hpos := hrep.payload_lt
  rw [Nat.mod_eq_of_lt (by omega)]
  omega

theorem Session.Sound.copyBytes (hsound : Session.Sound ⟨h, live⟩) (src k : Nat) (hp : p ∈ live)
    (hk : k ≤ h.kmallocSize p) :
    Session.Sound ⟨{ h with mem := Heap.copyBytes h.mem p src 0 k }, live⟩ := by
  obtain ⟨bs, hrep, hlive⟩ := hsound
  obtain ⟨l₁, b, l₂, rfl, -, rfl⟩ := Session.block_of_live hlive hp
  dsimp only at hk
  rw [kmallocSize_eq hrep.toLaid] at hk
  exact ⟨_, represents_copyBytes hrep src hk, hlive⟩

theorem le_kmallocSize (h' : Heap) (hcarves : Carves h h' bs size q l₁ b l₂) :
    size ≤ h'.kmallocSize q := by
  have hafter := hcarves.after
  have hfits := hcarves.fits.2
  rw [hcarves.ptr, ← hcarves.start]
  obtain ⟨-, hcarve⟩ | ⟨-, hcarve⟩ := carve_cases size b
  all_goals
    rw [hcarve] at hafter
    have hsize := kmallocSize_eq hafter.toLaid
    rw [hsize]
  exact hfits

theorem Session.Sound.nodup (hsound : s.Sound) : s.live.Nodup := by
  obtain ⟨bs, -, hlive⟩ := hsound
  exact hlive.nodup_iff.mpr (payloads_nodup _ _)

theorem Session.Sound.copied (hsound : s.Sound) (hp : p ∈ s.live) (hn : n < 2 ^ 64)
    (hgrow : s.heap.kmallocSize p ≤ alignSize n) {h' : Heap} (hq : s.heap.kmalloc n = some (q, h'))
    (hne : q ≠ 0) : q ≠ p ∧ alignSize n ≤ h'.kmallocSize q ∧ Session.Sound ⟨h', q :: s.live⟩ ∧
      Session.Sound ⟨{ h' with mem := Heap.copyBytes h'.mem q p 0 (s.heap.kmallocSize p) },
        q :: s.live⟩ := by
  obtain ⟨bs, hrep, hlive⟩ := hsound
  obtain ⟨l₁, b, l₂, rfl, hb, -⟩ := Session.block_of_live hlive hp
  have hbounded : n = 0 ∨ s.heap.Unwrapped n := Or.inr (unwrapped_of_inUse hrep hb n)
  obtain ⟨s₁, hstep, hsound₁⟩ := Session.Sound.step ⟨_, hrep, hlive⟩ (.kmalloc n) hn hbounded
  have hs₁ : s₁ = ⟨h', q :: s.live⟩ := by
    rw [Session.step, hq, Option.map_some, if_neg hne, Option.some_inj] at hstep
    exact hstep.symm
  rw [hs₁] at hsound₁
  have hpq : q ≠ p := by
    rintro rfl
    exact (List.nodup_cons.mp hsound₁.nodup).1 hp
  have hsize : alignSize n ≤ h'.kmallocSize q := by
    obtain ⟨-, hnull⟩ | ⟨q', h'', l₃, c, l₄, hq', hcarves⟩ := kmalloc_cases hrep hbounded
    · exact absurd (Prod.mk.inj (Option.some_inj.mp (hq.symm.trans hnull))).1 hne
    · obtain ⟨rfl, rfl⟩ := Prod.mk.inj (Option.some_inj.mp (hq.symm.trans hq'))
      exact le_kmallocSize h' hcarves
  exact ⟨hpq, hsize, hsound₁,
    hsound₁.copyBytes p _ (List.mem_cons_self ..) (hgrow.trans hsize)⟩

/-- Allocating elsewhere, copying and freeing the old block is three ordinary calls. -/
theorem Session.Sound.move (hsound : s.Sound) (hp : p ∈ s.live) (hn : n < 2 ^ 64)
    (hgrow : s.heap.kmallocSize p ≤ alignSize n) :
    ∃ r, ((s.heap.kmalloc n).map fun result =>
        if result.1 = 0 then result
        else (result.1, kfree { result.2 with
          mem := Heap.copyBytes result.2.mem result.1 p 0 (s.heap.kmallocSize p) } p)) = some r ∧
      (s.reallocated p r).Sound := by
  obtain ⟨bs, hrep, hlive⟩ := id hsound
  obtain ⟨l₁, b, l₂, rfl, hb, -⟩ := Session.block_of_live hlive hp
  obtain ⟨-, hnull⟩ | ⟨q, h', l₃, c, l₄, hq, hcarves⟩ :=
    kmalloc_cases hrep (Or.inr (unwrapped_of_inUse hrep hb n))
  · refine ⟨(0, s.heap), ?_, _, hrep, hlive⟩
    rw [hnull]
    rfl
  · have hne : q ≠ 0 := by
      rw [hcarves.ptr]
      omega
    obtain ⟨hpq, -, -, hcopied⟩ := hsound.copied hp hn hgrow hq hne
    obtain ⟨s₂, hfree, hsound₂⟩ := hcopied.step (.kfree p) (List.mem_cons_of_mem _ hp) trivial
    refine ⟨_, by rw [hq, Option.map_some, if_neg hne], ?_⟩
    rw [Session.step, Option.some_inj] at hfree
    rw [← hfree, List.erase_cons_tail (by simpa using hpq)] at hsound₂
    rw [Session.reallocated, if_neg hne]
    exact hsound₂

theorem getField_splitBlock_wrapped (hsplit : ¬ getField m a .size < wadd size minBlockSize) :
    getField (splitBlock m a size) a .next = wadd (wadd a headerSize) size := by
  rw [splitBlock, if_neg hsplit]
  exact getField_setField_self (wadd_lt _ _)

/-- The blocks tile the heap, linked both ways. -/
def Tiled (h : Heap) : Prop :=
  ∃ bs, bs ≠ [] ∧ Chain h.mem 0 h.heapStart bs 0 ∧
    endOf h.heapStart bs = h.heapStart + h.heapTotalSize

theorem Laid.tiled (hlaid : Laid h bs) : h.Tiled :=
  ⟨bs, hlaid.nonempty, hlaid.chain, hlaid.tiles⟩

theorem not_tiled_of_next (hnext : getField h.mem h.heapStart .next ≠ 0)
    (hpast : h.heapStart + h.heapTotalSize < getField h.mem h.heapStart .next + 32) :
    ¬ h.Tiled := by
  rintro ⟨bs, hne, hchain, htiles⟩
  obtain ⟨b, bs, rfl⟩ := List.exists_cons_of_ne_nil hne
  have hlink := hchain.1.next
  cases bs with
  | nil => exact hnext hlink
  | cons c bs =>
      have hend := le_endOf (h.heapStart + 32 + b.size + 32 + c.size) bs
      rw [if_neg (by simp)] at hlink
      rw [endOf_cons, endOf_cons] at htiles
      omega

theorem Session.Intact.tiled (hintact : s.Intact) : s.heap.Tiled := by
  obtain ⟨bs, hne, hchain, htiles, -⟩ := hintact
  exact ⟨bs, hne, hchain, htiles⟩

def grown (m : ByteMemory) (a nx size : Nat) : ByteMemory :=
  setField (setField m nx .free 0) a .size size

theorem getField_grown {f : Field} (hf : f ≠ .size) (hapart : HeadersApart a y) :
    getField (grown m a y size) a f = getField m a f := by
  rw [grown, getField_setField_of_ne hf hapart.2.1, getField_setField_of_apart hapart]

/-- A grown block overlaps its neighbour, to which it is still linked. -/
theorem not_intact_grown (hlaid : Laid h (l₁ ++ b :: c :: l₂)) (hgrow : b.size < size)
    (hsize : size < 2 ^ 64) :
    ¬ Session.Intact ⟨{ h with
        mem := grown h.mem (endOf h.heapStart l₁) (endOf h.heapStart l₁ + 32 + b.size) size },
      live⟩ := by
  rintro ⟨bs, hne, hchain, -⟩
  have hend := hlaid.endOf_le
  have hfirst := le_endOf h.heapStart l₁
  have hrest := le_endOf (endOf h.heapStart l₁ + 32 + b.size + 32 + c.size) l₂
  have hheader := hlaid.header
  rw [endOf_append, endOf_cons, endOf_cons] at hend
  have hapart : HeadersApart (endOf h.heapStart l₁) (endOf h.heapStart l₁ + 32 + b.size) :=
    ⟨by omega, by omega, by omega⟩
  have hnext : getField (grown h.mem (endOf h.heapStart l₁)
      (endOf h.heapStart l₁ + 32 + b.size) size) (endOf h.heapStart l₁) .next =
      endOf h.heapStart l₁ + 32 + b.size := by
    rw [getField_grown (by decide) hapart, hheader.next, if_neg (by simp)]
  have hsize' : getField (grown h.mem (endOf h.heapStart l₁)
      (endOf h.heapStart l₁ + 32 + b.size) size) (endOf h.heapStart l₁) .size = size :=
    getField_setField_self hsize
  -- The blocks before the grown one are untouched, so the walk still reaches it.
  have hreached : Chain (grown h.mem (endOf h.heapStart l₁)
      (endOf h.heapStart l₁ + 32 + b.size) size) 0 h.heapStart (l₁ ++ [⟨size, b.free⟩])
      (endOf h.heapStart l₁ + 32 + b.size) := by
    have hbefore := (chain_append.mp hlaid.chain).1
    rw [if_neg (by simp)] at hbefore
    rw [chain_append, if_neg (by simp)]
    refine ⟨hbefore.congr fun x hx f => ?_, ⟨hsize', ?_, hnext, ?_⟩, trivial⟩
    · have hbounds := mem_headers_bounds hx
      rw [grown, getField_setField_of_apart ⟨by omega, by omega, by omega⟩,
        getField_setField_of_apart ⟨by omega, by omega, by omega⟩]
    · rw [getField_grown (by decide) hapart]
      exact hheader.free
    · rw [getField_grown (by decide) hapart, hheader.prev]
  obtain ⟨l, d, rest, rfl, hl⟩ := hreached.visits hchain hne
  have hd := hchain.header
  dsimp only at hd
  rw [hl] at hd
  have hlink := hnext.symm.trans hd.next
  have hdsize := hsize'.symm.trans hd.size
  split at hlink <;> omega

/-- The part cut off by a wrapped bound can land on the null address, below the heap: then the block
is unlinked from everything and fills the heap again. The header at 0 overlaps the block's own. -/
theorem splitBlock_null (ha : a = 8 ∨ a = 16) (hend : a + 32 + size = 2 ^ 64)
    (hsize : getField m a .size = size) (hprev : getField m a .prev = 0)
    (hnext : getField m a .next = 0 ∨ HeadersApart a (getField m a .next)) :
    getField (splitBlock m a size) a .size = size ∧ getField (splitBlock m a size) a .next = 0 ∧
      getField (splitBlock m a size) a .prev = 0 := by
  have hroom : a + 32 ≤ 2 ^ 64 := by omega
  have hnew : wadd (wadd a headerSize) size = 0 := by
    rw [headerSize_eq, wadd_of_lt (a := a) (by omega), wadd, hend]
    rfl
  have hsplit : ¬ getField m a .size < wadd size minBlockSize := by
    rw [hsize, minBlockSize_eq, wadd]
    omega
  obtain ⟨m₄, hm₄, hback⟩ : ∃ m₄, splitBlock m a size =
      setField (setField m₄ a .size size) a .next 0 ∧ getField m₄ a .prev = 0 := by
    rw [splitBlock, if_neg hsplit, hnew]
    refine ⟨_, rfl, ?_⟩
    obtain rfl | rfl := ha
    · -- the back link of the header at 0 is the next link of the block at 8
      have hself : ∀ m' : ByteMemory, getField (setField m' 0 .prev 8) 8 .next = 8 := fun m' =>
        ByteMemory.read_write_self (by decide)
      rw [hself]
      exact getField_relinkPrev_self (by decide) (by decide)
    · have hapart : ∀ (m' : ByteMemory) (f g : Field) (v : Nat), f = .next ∨ f = .prev →
          getField (setField m' 0 g v) 16 f = getField m' 16 f := by
        intro m' f g v hf
        refine ByteMemory.read_write_of_apart (ByteMemory.apart_of_le ?_ ?_ ?_)
        all_goals
          obtain rfl | rfl := hf <;> cases g <;> decide
      have hlinks : ∀ f, f = .next ∨ f = .prev → ∀ v₁ v₂ v₃ v₄, getField (setField (setField
          (setField (setField m 0 .size v₁) 0 .free v₂) 0 .next v₃) 0 .prev v₄) 16 f =
          getField m 16 f := by
        intro f hf v₁ v₂ v₃ v₄
        rw [hapart _ f _ _ hf, hapart _ f _ _ hf, hapart _ f _ _ hf, hapart _ f _ _ hf]
      rw [hlinks .next (Or.inl rfl), getField_relinkPrev_of_apart hnext,
        hlinks .prev (Or.inr rfl), hprev]
  rw [hm₄]
  refine ⟨?_, getField_setField_self (by decide), ?_⟩
  · rw [getField_setField_of_ne (by decide) hroom]
    exact getField_setField_self (by simp only [Field.width]; omega)
  · rw [getField_setField_of_ne (by decide) hroom, getField_setField_of_ne (by decide) hroom, hback]

/-- Splitting the first block of a heap with a wrapped bound leaves the heap intact exactly when the
part cut off lands on the null address. -/
theorem intact_wrapped_iff (hstart : 0 < h.heapStart) (htotal : h.heapStart + h.heapTotalSize ≤ 2 ^ 64)
    (hwrap : 2 ^ 64 ≤ size + 48) (hroom : h.heapStart + 32 + size ≤ 2 ^ 64) (hmod : size % 8 = 0)
    (hsize : size ≤ getField m h.heapStart .size) (hprev : getField m h.heapStart .prev = 0)
    (hnext : getField m h.heapStart .next = 0 ∨
      HeadersApart h.heapStart (getField m h.heapStart .next))
    (hfull : h.heapStart + 32 + size = 2 ^ 64 → getField m h.heapStart .size = size ∧
      h.heapStart + h.heapTotalSize = 2 ^ 64 ∧ live = [h.heapStart + 32]) :
    Session.Intact ⟨{ h with mem := splitBlock m h.heapStart size }, live⟩ ↔
      h.heapStart + 32 + size = 2 ^ 64 := by
  constructor
  · intro hintact
    by_contra hne
    have hsplit : ¬ getField m h.heapStart .size < wadd size minBlockSize := by
      rw [minBlockSize_eq, wadd]
      omega
    have hlink := getField_splitBlock_wrapped hsplit
    rw [headerSize_eq, wadd_of_lt (a := h.heapStart) (by omega), wadd_of_lt (by omega)] at hlink
    refine not_tiled_of_next ?_ ?_ hintact.tiled
    · dsimp only
      omega
    · dsimp only
      omega
  · intro hend
    obtain ⟨hsize', htotal', rfl⟩ := hfull hend
    obtain ⟨hfsize, hfnext, hfprev⟩ := splitBlock_null (by omega) hend hsize' hprev hnext
    have hlaid : Laid { h with mem := splitBlock m h.heapStart size }
        [⟨size, decide (getField (splitBlock m h.heapStart size) h.heapStart .free ≠ 0)⟩] := by
      refine ⟨⟨⟨hfsize, by simp, hfnext, hfprev⟩, trivial⟩, hstart, by simp, ?_, htotal, ?_, ?_⟩
      · dsimp only
        rw [endOf_cons, endOf_nil, hend, htotal']
      · simpa using hmod
      · simp only [List.getLast?_singleton, Option.mem_some_iff, forall_eq']
        omega
    refine hlaid.intact (by simp) fun p hp => ⟨[], _, [], rfl, ?_⟩
    simpa using hp

/-- `krealloc` neither shrinks with a wrapped bound nor grows in place; or the bound wraps and the
allocation ends with the address space. -/
def ResizesSafely (h : Heap) (ptr n : Nat) : Prop :=
  (if alignSize n ≤ h.kmallocSize ptr then alignSize n + minBlockSize < 2 ^ 64
    else ¬ CanExpand h.mem (wsub ptr headerSize) (alignSize n)) ∨
  (2 ^ 64 ≤ alignSize n + minBlockSize ∧ ptr + alignSize n = 2 ^ 64)

instance (h : Heap) (ptr n : Nat) : Decidable (h.ResizesSafely ptr n) :=
  inferInstanceAs (Decidable (_ ∨ _))

theorem alignSize_of_le (hn : n ≤ 2 ^ 64 - 8) : alignSize n = (n + 7) / 8 * 8 := by
  rw [alignSize, wadd_of_lt (by omega), alignDown_eq (by omega)]

theorem alignSize_alignSize (hn : n ≤ 2 ^ 64 - 8) : alignSize (alignSize n) = alignSize n := by
  have hle := alignSize_of_le hn
  rw [alignSize_of_le (by omega), hle]
  omega

theorem first_of_wrap (size : Nat) (hlaid : Laid h (l₁ ++ b :: l₂)) (hwrap : 2 ^ 64 ≤ size + 48)
    (hroom : endOf h.heapStart l₁ + 32 + size ≤ 2 ^ 64) : l₁ = [] := by
  cases l₁ with
  | nil => rfl
  | cons c l₁ =>
      have hfirst := le_endOf (h.heapStart + 32 + c.size) l₁
      have hstart := hlaid.start
      rw [endOf_cons] at hroom
      omega

theorem nil_of_full (a : Nat) (l₂ : List Block) (hend : endOf a l₂ < a + 32) : l₂ = [] := by
  cases l₂ with
  | nil => rfl
  | cons c l₂ =>
      have hrest := le_endOf (a + 32 + c.size) l₂
      rw [endOf_cons] at hend
      omega

section Paths

variable (hrep : Represents s.heap (l₁ ++ b :: l₂)) (hb : b.free = false)
  (hlive : s.live.Perm (payloads s.heap.heapStart (l₁ ++ b :: l₂)))
  (hptr : p = endOf s.heap.heapStart l₁ + 32) (hp : p ∈ s.live) (hpos : 1 ≤ n)
  (hn : n ≤ 2 ^ 64 - 8)

include hrep hptr hpos

theorem krealloc_shrink (hle : alignSize n ≤ b.size) :
    s.heap.krealloc p n =
      some (p, { s.heap with
        mem := splitBlock s.heap.mem (endOf s.heap.heapStart l₁) (alignSize n) }) := by
  rw [krealloc, if_neg (by omega), if_neg (by omega), hptr, hrep.wsub_payload]
  simp only [hrep.header.size, if_pos hle]

theorem krealloc_grow (hlt : b.size < alignSize n)
    (hexpand : CanExpand s.heap.mem (endOf s.heap.heapStart l₁) (alignSize n)) :
    s.heap.krealloc p n =
      some (p, { s.heap with
        mem := splitBlock (grown s.heap.mem (endOf s.heap.heapStart l₁)
          (getField s.heap.mem (endOf s.heap.heapStart l₁) .next) (alignSize n))
          (endOf s.heap.heapStart l₁) (alignSize n) }) := by
  rw [krealloc, if_neg (by omega), if_neg (by omega), hptr, hrep.wsub_payload]
  simp only [hrep.header.size, if_neg (Nat.not_le.mpr hlt), if_pos hexpand]
  rfl

theorem krealloc_move_eq (hlt : b.size < alignSize n)
    (hexpand : ¬ CanExpand s.heap.mem (endOf s.heap.heapStart l₁) (alignSize n)) :
    s.heap.krealloc p n = (s.heap.kmalloc (alignSize n)).map fun result =>
      if result.1 = 0 then result
      else (result.1, kfree { result.2 with
        mem := Heap.copyBytes result.2.mem result.1 p 0 b.size } p) := by
  rw [krealloc, if_neg (by omega), if_neg (by omega)]
  rw [show wsub p headerSize = endOf s.heap.heapStart l₁ by rw [hptr, hrep.wsub_payload]]
  simp only [hrep.header.size, if_neg (Nat.not_le.mpr hlt), if_neg hexpand, if_pos hlt]

omit hpos

include hb hlive hp

theorem intact_shrink_iff (hle : alignSize n ≤ b.size) :
    (s.reallocated p (p, { s.heap with
      mem := splitBlock s.heap.mem (endOf s.heap.heapStart l₁) (alignSize n) })).Intact ↔
    alignSize n + 48 < 2 ^ 64 ∨ 2 ^ 64 ≤ alignSize n + 48 ∧ p + alignSize n = 2 ^ 64 := by
  have hmod := alignSize_mod n
  have hkeep : (p :: s.live.erase p).Perm (payloads s.heap.heapStart (l₁ ++ b :: l₂)) :=
    (List.perm_cons_erase hp).symm.trans hlive
  rw [Session.reallocated, if_neg (by omega)]
  by_cases hbound : alignSize n + 48 < 2 ^ 64
  · refine iff_of_true (intact_of_payloads (laid_shrink hrep.toLaid hb hbound hmod) ?_)
      (Or.inl hbound)
    rwa [payloads_shrink hb]
  · have hroom := hrep.payload_lt.2.2
    obtain rfl := first_of_wrap (alignSize n) hrep.toLaid (by omega) (by omega)
    have hheader := hrep.header
    have hend := hrep.end_le
    have htiles := hrep.tiles
    simp only [List.nil_append, endOf_nil, endOf_cons] at hroom hheader htiles hptr hkeep ⊢
    have hrest := le_endOf (s.heap.heapStart + 32 + b.size) l₂
    rw [intact_wrapped_iff hrep.start hend (by omega) (by omega) hmod (by rw [hheader.size]; omega)
      hheader.prev]
    · omega
    · rw [hheader.next]
      refine (nextPast_of_end (e := s.heap.heapStart + 32 + b.size) (by omega)).imp_right
        fun hpast => ⟨by omega, by omega, by omega⟩
    · intro hfull
      obtain rfl := nil_of_full (s.heap.heapStart + 32 + b.size) l₂ (by omega)
      rw [endOf_nil] at htiles
      refine ⟨by rw [hheader.size]; omega, by omega, ?_⟩
      simpa [payloads, hb] using hkeep

theorem intact_grow_iff (hlt : b.size < alignSize n)
    (hexpand : CanExpand s.heap.mem (endOf s.heap.heapStart l₁) (alignSize n)) :
    (s.reallocated p (p, { s.heap with
      mem := splitBlock (grown s.heap.mem (endOf s.heap.heapStart l₁)
        (getField s.heap.mem (endOf s.heap.heapStart l₁) .next) (alignSize n))
        (endOf s.heap.heapStart l₁) (alignSize n) })).Intact ↔
    2 ^ 64 ≤ alignSize n + 48 ∧ p + alignSize n = 2 ^ 64 := by
  obtain ⟨hnext, hfree, havailable⟩ := hexpand
  have hheader := hrep.header
  have hend := hrep.endOf_le
  cases l₂ with
  | nil => exact absurd (by rw [hheader.next, if_pos rfl]) hnext
  | cons c l₂ =>
      have hneighbour := hrep.chain.neighbour
      have hrest := le_endOf (endOf s.heap.heapStart l₁ + 32 + b.size + 32 + c.size) l₂
      have hmod := alignSize_mod n
      rw [endOf_append, endOf_cons, endOf_cons] at hend
      rw [hheader.next, if_neg (by simp)] at hnext hfree havailable ⊢
      rw [hheader.size, hneighbour.size, headerSize_eq, wadd_of_lt (a := b.size) (by omega),
        wadd_of_lt (by omega)] at havailable
      rw [Session.reallocated, if_neg (by omega)]
      have hapart : HeadersApart (endOf s.heap.heapStart l₁)
          (endOf s.heap.heapStart l₁ + 32 + b.size) := ⟨by omega, by omega, by omega⟩
      have hgrown : getField (grown s.heap.mem (endOf s.heap.heapStart l₁)
          (endOf s.heap.heapStart l₁ + 32 + b.size) (alignSize n)) (endOf s.heap.heapStart l₁) .next =
          getField s.heap.mem (endOf s.heap.heapStart l₁) .next := getField_grown (by decide) hapart
      have hsize : getField (grown s.heap.mem (endOf s.heap.heapStart l₁)
          (endOf s.heap.heapStart l₁ + 32 + b.size) (alignSize n)) (endOf s.heap.heapStart l₁) .size =
          alignSize n := getField_setField_self (by simp only [Field.width]; omega)
      by_cases hbound : alignSize n + 48 < 2 ^ 64
      · refine iff_of_false ?_ (by omega)
        rw [splitBlock, if_pos (by rw [hsize, minBlockSize_eq, wadd_of_lt hbound]; omega)]
        exact not_intact_grown hrep.toLaid hlt (by omega)
      · obtain rfl := first_of_wrap (alignSize n) hrep.toLaid (by omega) (by omega)
        have htiles := hrep.tiles
        have hkeep := (List.perm_cons_erase hp).symm.trans hlive
        simp only [List.nil_append, endOf_nil, endOf_cons] at hheader htiles hptr hkeep hend hrest
        simp only [endOf_nil] at hapart hsize hgrown hneighbour hfree ⊢
        rw [intact_wrapped_iff hrep.start hrep.end_le (by omega) (by omega) hmod
          (by rw [hsize])]
        · omega
        · rw [getField_grown (by decide) hapart, hheader.prev]
          rfl
        · refine Or.inr ?_
          rw [hgrown, hheader.next, if_neg (by simp)]
          exact hapart
        · intro hfull
          obtain rfl := nil_of_full (s.heap.heapStart + 32 + b.size + 32 + c.size) l₂ (by omega)
          rw [endOf_nil] at htiles
          refine ⟨hsize, by omega, ?_⟩
          have hc := hneighbour.free.mp hfree
          simpa [payloads, hb, hc] using hkeep

omit hb hlive

include hpos hn

theorem krealloc_move (hsound : s.Sound) (hlt : b.size < alignSize n)
    (hexpand : ¬ CanExpand s.heap.mem (endOf s.heap.heapStart l₁) (alignSize n)) :
    ∃ r, s.heap.krealloc p n = some r ∧ (s.reallocated p r).Sound := by
  have hsize : s.heap.kmallocSize p = b.size := by rw [hptr, kmallocSize_eq hrep.toLaid]
  have hround := alignSize_alignSize hn
  obtain ⟨r, hr, hsound'⟩ := hsound.move hp (n := alignSize n) (by rw [alignSize_of_le hn]; omega)
    (by rw [hround, hsize]; omega)
  refine ⟨r, ?_, hsound'⟩
  rw [← hr, hsize]
  exact krealloc_move_eq hrep hptr hpos hlt hexpand

end Paths

/-- **Resizing.** In every heap reached by calls that keep the bound of `split_block` from wrapping,
`krealloc` of a live pointer keeps the heap intact exactly when it does not grow the block in place
and its own bound does not wrap, up to the allocation that ends with the address space. -/
theorem krealloc_intact_iff (h : Heap) (start size : Nat) (hacc : Accepts start size) {s : Session}
    (hrun : Session.Run Session.Bounded ⟨h.heapInit start size, []⟩ s) {p n : Nat}
    (hp : p ∈ s.live) (hpos : 1 ≤ n) (hn : n ≤ 2 ^ 64 - 8) :
    (∃ r, s.heap.krealloc p n = some r ∧ (s.reallocated p r).Intact) ↔
      s.heap.ResizesSafely p n := by
  have hsound := (Session.sound_heapInit h hacc).run hrun
  obtain ⟨bs, hrep, hlive⟩ := id hsound
  obtain ⟨l₁, b, l₂, rfl, hb, hptr⟩ := Session.block_of_live hlive hp
  have hsize : s.heap.kmallocSize p = b.size := by rw [hptr, kmallocSize_eq hrep.toLaid]
  have hblock : wsub p headerSize = endOf s.heap.heapStart l₁ := by rw [hptr, hrep.wsub_payload]
  rw [ResizesSafely, hsize, hblock, minBlockSize_eq]
  by_cases hle : alignSize n ≤ b.size
  · rw [if_pos hle, krealloc_shrink hrep hptr hpos hle, ← intact_shrink_iff hrep hb hlive hptr hp hle]
    simp
  rw [if_neg hle]
  by_cases hexpand : CanExpand s.heap.mem (endOf s.heap.heapStart l₁) (alignSize n)
  · rw [krealloc_grow hrep hptr hpos (by omega) hexpand]
    have hgrow := intact_grow_iff hrep hb hlive hptr hp (by omega) hexpand
    simpa [hexpand] using hgrow
  · obtain ⟨r, hr, hsound'⟩ := krealloc_move hrep hptr hp hpos hn hsound (by omega) hexpand
    exact iff_of_true ⟨r, hr, hsound'.intact⟩ (Or.inl hexpand)

def onePage : Session :=
  (Session.step ⟨blank.heapInit 0x1000 0x1000, []⟩ (.kmalloc 16)).get (by decide +kernel)

theorem krealloc_intact_onePage :
    ∃ r, onePage.heap.krealloc 0x1020 1 = some r ∧ (onePage.reallocated 0x1020 r).Intact :=
  (krealloc_intact_iff blank 0x1000 0x1000 ⟨by decide, by decide, by decide⟩
    (Relation.ReflTransGen.single
      ⟨.kmalloc 16, by decide, Or.inr (Or.inl (by decide)), (Option.some_get _).symm⟩)
    (by decide +kernel) (by decide) (by decide)).mpr (by decide +kernel)

/-- Growing it to 24 bytes goes in place: the size covers the next header, which stays linked. -/
def grownPage : Session :=
  onePage.reallocated 0x1020 ((onePage.heap.krealloc 0x1020 24).get (by decide +kernel))

theorem not_intact_grownPage :
    Accepts 0x1000 0x1000 ∧
      Session.Run (fun _ _ => True) ⟨blank.heapInit 0x1000 0x1000, []⟩ onePage ∧
      0x1020 ∈ onePage.live ∧
      ¬ ∃ r, onePage.heap.krealloc 0x1020 24 = some r ∧ (onePage.reallocated 0x1020 r).Intact := by
  refine ⟨⟨by decide, by decide, by decide⟩, Relation.ReflTransGen.single
    ⟨.kmalloc 16, by decide, trivial, (Option.some_get _).symm⟩, by decide +kernel, ?_⟩
  rintro ⟨r, hr, hintact⟩
  have hgrown : onePage.reallocated 0x1020 r = grownPage := by
    rw [grownPage, Option.get_of_eq_some _ hr]
  rw [hgrown] at hintact
  obtain ⟨bs, hne, hchain, -⟩ := hintact
  have hstart : grownPage.heap.heapStart = 0x1000 := by decide +kernel
  have hsize : getField grownPage.heap.mem 0x1000 .size = 24 := by decide +kernel
  have hnext : getField grownPage.heap.mem 0x1000 .next = 0x1030 := by decide +kernel
  rw [hstart] at hchain
  obtain ⟨b, bs, rfl⟩ := List.exists_cons_of_ne_nil hne
  have hblock := hsize.symm.trans hchain.1.size
  have hlink := hnext.symm.trans hchain.1.next
  split at hlink <;> omega

end SimpleOs.Heap
