import SimpleOs.Proof.HeapOps

/-!
# Runs of the heap

Clients allocate, free what they hold and write into what they hold. As long as no request makes
`split_block` compute a wrapped bound, memory holds a list of blocks that tile the heap, and the
pointers held are the payloads of the blocks in use.
-/

namespace SimpleOs.Heap

inductive Call where
  | kmalloc (size : Nat)
  | kfree (ptr : Nat)
  | store (ptr i : Nat) (v : BitVec 8)
deriving Repr, DecidableEq

structure Session where
  heap : Heap
  live : List Nat

namespace Session

/-- `none` is a call that never returns. -/
def step (s : Session) : Call → Option Session
  | .kmalloc size => (s.heap.kmalloc size).map fun result =>
      ⟨result.2, if result.1 = 0 then s.live else result.1 :: s.live⟩
  | .kfree ptr => some ⟨s.heap.kfree ptr, s.live.erase ptr⟩
  | .store ptr i v =>
      some { s with heap := { s.heap with mem := Function.update s.heap.mem (wadd ptr i) v } }

/-- Requests are words, only live pointers are freed, and clients write inside their payloads. -/
def Permitted (s : Session) : Call → Prop
  | .kmalloc size => size < 2 ^ 64
  | .kfree ptr => ptr ∈ s.live
  | .store ptr i _ => ptr ∈ s.live ∧ i < s.heap.kmallocSize ptr

instance (s : Session) : (call : Call) → Decidable (s.Permitted call)
  | .kmalloc _ => inferInstanceAs (Decidable (_ < _))
  | .kfree _ => inferInstanceAs (Decidable (_ ∈ _))
  | .store _ _ _ => inferInstanceAs (Decidable (_ ∧ _))

/-- An allocation does not make `split_block` compute a wrapped bound. -/
def Bounded (s : Session) : Call → Prop
  | .kmalloc size => size = 0 ∨ s.heap.Unwrapped size
  | _ => True

/-- The sessions reached by permitted calls that satisfy `ok`. -/
def Run (ok : Session → Call → Prop) : Session → Session → Prop :=
  Relation.ReflTransGen fun s s' => ∃ call, s.Permitted call ∧ ok s call ∧ s.step call = some s'

def Sound (s : Session) : Prop :=
  ∃ bs, Represents s.heap bs ∧ s.live.Perm (payloads s.heap.heapStart bs)

end Session

variable {h : Heap} {m : ByteMemory} {a x y size n ptr i : Nat} {v : BitVec 8} {b : Block}
  {bs l₁ l₂ : List Block} {s s' : Session}

theorem header_position (hx : x ∈ headers a (l₁ ++ b :: l₂)) :
    x + 32 ≤ endOf a l₁ ∨ x = endOf a l₁ ∨ endOf a l₁ + 32 + b.size ≤ x := by
  rw [headers_append, headers, List.mem_append, List.mem_cons] at hx
  obtain hx | hx | hx := hx
  · exact Or.inl (mem_headers_bounds hx).2
  · exact Or.inr (Or.inl hx)
  · exact Or.inr (Or.inr (mem_headers_bounds hx).1)

theorem getField_congr {m' : ByteMemory} {f : Field} (hx : x + 32 ≤ 2 ^ 64)
    (hsame : ∀ i < 32, m' (x + i) = m (x + i)) : getField m' x f = getField m x f := by
  have hf := f.offset_add_width_le
  refine ByteMemory.read_congr fun i hi => ?_
  rw [Nat.mod_eq_of_lt (by omega), add_assoc]
  exact hsame _ (by omega)

theorem Laid.congr_mem (hlaid : Laid h bs) {m' : ByteMemory}
    (hsame : ∀ x ∈ headers h.heapStart bs, ∀ i < 32, m' (x + i) = h.mem (x + i)) :
    Laid { h with mem := m' } bs := by
  have hend := hlaid.endOf_le
  refine ⟨hlaid.chain.congr fun x hx f => ?_, hlaid.start, hlaid.nonempty, hlaid.tiles,
    hlaid.end_le, hlaid.shaped⟩
  have hbounds := mem_headers_bounds hx
  exact getField_congr (by omega) (hsame x hx)

theorem Represents.congr_mem (hrep : Represents h bs) {m' : ByteMemory}
    (hsame : ∀ x ∈ headers h.heapStart bs, ∀ i < 32, m' (x + i) = h.mem (x + i)) :
    Represents { h with mem := m' } bs :=
  ⟨hrep.toLaid.congr_mem hsame, hrep.separated, hrep.used⟩

theorem Represents.update (hrep : Represents h (l₁ ++ b :: l₂)) (v : BitVec 8)
    (hlow : endOf h.heapStart l₁ + 32 ≤ y) (hhigh : y < endOf h.heapStart l₁ + 32 + b.size) :
    Represents { h with mem := Function.update h.mem y v } (l₁ ++ b :: l₂) := by
  refine hrep.congr_mem fun x hx i hi => Function.update_of_ne ?_ _ _
  have hposition := header_position hx
  omega

theorem kmallocSize_eq (hlaid : Laid h (l₁ ++ b :: l₂)) :
    h.kmallocSize (endOf h.heapStart l₁ + 32) = b.size := by
  rw [kmallocSize, if_neg (by omega), hlaid.wsub_payload, hlaid.header.size]

theorem payloads_taken (hb : b.free = true) :
    (payloads a (l₁ ++ (carve size b ++ l₂))).Perm
      ((endOf a l₁ + 32) :: payloads a (l₁ ++ b :: l₂)) := by
  rw [payloads_append, payloads_append, payloads_carve, endOf_carve, payloads_append, payloads, hb]
  exact List.perm_middle

theorem payloads_freed (hb : b.free = false) :
    (payloads a (l₁ ++ b :: l₂)).Perm
      ((endOf a l₁ + 32) :: payloads a (coalesce (l₁ ++ ⟨b.size, true⟩ :: l₂))) := by
  rw [payloads_coalesce, payloads_append, payloads_append, payloads, payloads, hb]
  exact List.perm_middle

namespace Session

theorem sound_heapInit (h : Heap) {start size : Nat} (hacc : Accepts start size) :
    Sound ⟨h.heapInit start size, []⟩ := by
  obtain ⟨b, hfree, hrep⟩ := represents_heapInit h hacc
  refine ⟨[b], hrep, ?_⟩
  simp [payloads, hfree]

theorem block_of_live (hlive : s.live.Perm (payloads s.heap.heapStart bs)) (hptr : ptr ∈ s.live) :
    ∃ l₁ b l₂, bs = l₁ ++ b :: l₂ ∧ b.free = false ∧ ptr = endOf s.heap.heapStart l₁ + 32 :=
  mem_payloads.mp (hlive.mem_iff.mp hptr)

/-- A permitted call with no wrapped bound returns, and keeps the invariant. -/
theorem Sound.step (hsound : s.Sound) (call : Call) (hperm : s.Permitted call)
    (hok : s.Bounded call) : ∃ s', s.step call = some s' ∧ s'.Sound := by
  obtain ⟨bs, hrep, hlive⟩ := hsound
  cases call with
  | kmalloc size =>
      obtain ⟨-, hnull⟩ | ⟨p, h', l₁, b, l₂, hp, hcarves⟩ := kmalloc_cases hrep hok
      · refine ⟨s, ?_, bs, hrep, hlive⟩
        rw [Session.step, hnull]
        rfl
      · refine ⟨⟨h', p :: s.live⟩, ?_, _, hcarves.after, ?_⟩
        · have hne : p ≠ 0 := by
            rw [hcarves.ptr]
            omega
          rw [Session.step, hp, Option.map_some, if_neg hne]
        · rw [hcarves.start, hcarves.ptr]
          rw [hcarves.blocks] at hlive
          exact (hlive.cons _).trans (payloads_taken hcarves.fits.1).symm
  | kfree ptr =>
      obtain ⟨l₁, b, l₂, rfl, hb, rfl⟩ := block_of_live hlive hperm
      refine ⟨_, rfl, _, represents_kfree hrep hb, ?_⟩
      rw [heapStart_kfree]
      have herase := (hlive.trans (payloads_freed hb)).erase (endOf s.heap.heapStart l₁ + 32)
      rwa [List.erase_cons_head] at herase
  | store ptr i v =>
      obtain ⟨hptr, hi⟩ := hperm
      obtain ⟨l₁, b, l₂, rfl, hb, rfl⟩ := block_of_live hlive hptr
      rw [kmallocSize_eq hrep.toLaid] at hi
      have hpos := hrep.payload_lt
      refine ⟨_, rfl, _, hrep.update v ?_ ?_, hlive⟩
      all_goals
        rw [wadd_of_lt (by omega)]
        omega

theorem Sound.run (hsound : s.Sound) (hrun : Run Bounded s s') : s'.Sound := by
  induction hrun with
  | refl => exact hsound
  | tail _ hstep ih =>
      obtain ⟨call, hperm, hok, hcall⟩ := hstep
      obtain ⟨s₁, hs₁, hsound₁⟩ := ih.step call hperm hok
      rwa [Option.some_inj.mp (hcall.symm.trans hs₁)]

instance : (call : Call) → Decidable (s.Bounded call)
  | .kmalloc size => inferInstanceAs (Decidable (size = 0 ∨ alignSize size + minBlockSize < 2 ^ 64 ∨
      s.heap.findFreeBlock (alignSize size) = some 0))
  | .kfree _ | .store _ _ _ => isTrue trivial

/-- Make calls one after the other; `none` as soon as one is not permitted, is not `ok` or does not
return. -/
def replay (ok : Session → Call → Prop) [∀ s call, Decidable (ok s call)] (s : Session) :
    List Call → Option Session
  | [] => some s
  | call :: calls =>
      if s.Permitted call ∧ ok s call then (s.step call).bind fun s => replay ok s calls else none

theorem run_of_replay {ok : Session → Call → Prop} [∀ s call, Decidable (ok s call)]
    {calls : List Call} (h : s.replay ok calls = some s') : Run ok s s' := by
  induction calls generalizing s with
  | nil =>
      obtain rfl := Option.some_inj.mp h
      exact Relation.ReflTransGen.refl
  | cons call calls ih =>
      rw [replay] at h
      split at h
      · rename_i hcall
        obtain ⟨t, hstep, hrest⟩ := Option.bind_eq_some_iff.mp h
        exact Relation.ReflTransGen.head ⟨call, hcall.1, hcall.2, hstep⟩ (ih hrest)
      · cases h

end Session

/-- The blocks reached from `heap_start` tile the heap, linked both ways; their sizes are multiples
of 8, no two neighbours are free, and `heap_used_size` counts the blocks in use. -/
def WellFormed (h : Heap) : Prop :=
  ∃ bs, bs ≠ [] ∧ Chain h.mem 0 h.heapStart bs 0 ∧
    endOf h.heapStart bs = h.heapStart + h.heapTotalSize ∧
    (∀ b ∈ bs, b.size % 8 = 0) ∧ Separated bs ∧ h.heapUsedSize = usedBytes bs

theorem Represents.wellFormed (hrep : Represents h bs) : h.WellFormed :=
  ⟨bs, hrep.nonempty, hrep.chain, hrep.tiles, hrep.shaped.aligned, hrep.separated, hrep.used⟩

/-- **Representation invariant.** From any accepted `heap_init`, in every run whose allocations keep
the bound of `split_block` below the word size or find no block, every call returns and the heap is
well formed. -/
theorem wellFormed_of_run (h : Heap) (start size : Nat) (hacc : Accepts start size) {s : Session}
    (hrun : Session.Run Session.Bounded ⟨h.heapInit start size, []⟩ s) :
    s.heap.WellFormed ∧
      ∀ call, s.Permitted call → s.Bounded call → ∃ s', s.step call = some s' := by
  have hsound := (Session.sound_heapInit h hacc).run hrun
  refine ⟨?_, fun call hperm hok => ?_⟩
  · obtain ⟨bs, hrep, -⟩ := hsound
    exact hrep.wellFormed
  · obtain ⟨s', hs', -⟩ := hsound.step call hperm hok
    exact ⟨s', hs'⟩

def blank : Heap := ⟨ByteMemory.zero, 0, 0, 0⟩

def smallSession : Session :=
  (Session.step ⟨blank.heapInit 0x400001 0x1000, []⟩ (.kmalloc 100)).get (by decide +kernel)

theorem wellFormed_smallSession : smallSession.heap.WellFormed :=
  (wellFormed_of_run blank 0x400001 0x1000 ⟨by decide, by decide, by decide⟩
    (Relation.ReflTransGen.single
      ⟨.kmalloc 100, by decide, Or.inr (Or.inl (by decide)), (Option.some_get _).symm⟩)).1

/-- Two allocations with a hole between them. -/
def holeSession : Session :=
  (Session.replay Session.Bounded ⟨blank.heapInit 0x400001 0x1000, []⟩
    [.kmalloc 100, .kmalloc 200, .kmalloc 8, .kfree 0x4000B0]).get (by decide +kernel)

theorem run_holeSession : Session.Run Session.Bounded ⟨blank.heapInit 0x400001 0x1000, []⟩ holeSession :=
  Session.run_of_replay (Option.some_get _).symm

def wrappedSession : Session :=
  (Session.step ⟨blank.heapInit 8 (2 ^ 64 - 16), []⟩ (.kmalloc (2 ^ 64 - 48))).get
    (by decide +kernel)

/-- There the bound of `split_block` wraps to 0, the full block is split, and the block cut off
reaches past the end of the heap. -/
theorem not_wellFormed_wrappedSession :
    Accepts 8 (2 ^ 64 - 16) ∧
      Session.Run (fun _ _ => True) ⟨blank.heapInit 8 (2 ^ 64 - 16), []⟩ wrappedSession ∧
      ¬ wrappedSession.heap.WellFormed := by
  refine ⟨⟨by decide, by decide, by decide⟩, Relation.ReflTransGen.single
    ⟨.kmalloc (2 ^ 64 - 48), by decide, trivial, (Option.some_get _).symm⟩, ?_⟩
  rintro ⟨bs, hne, hchain, htiles, -⟩
  have hstart : wrappedSession.heap.heapStart = 8 := by decide +kernel
  have htotal : wrappedSession.heap.heapTotalSize = 2 ^ 64 - 16 := by decide +kernel
  have hnext : getField wrappedSession.heap.mem 8 .next = 2 ^ 64 - 8 := by decide +kernel
  rw [hstart] at hchain htiles
  rw [htotal] at htiles
  obtain ⟨b, bs, rfl⟩ := List.exists_cons_of_ne_nil hne
  have hlink := hchain.1.next
  rw [hnext] at hlink
  cases bs with
  | nil => simp at hlink
  | cons c bs =>
      have hend := le_endOf (8 + 32 + b.size + 32 + c.size) bs
      rw [if_neg (by simp)] at hlink
      rw [endOf_cons, endOf_cons] at htiles
      omega

end SimpleOs.Heap
