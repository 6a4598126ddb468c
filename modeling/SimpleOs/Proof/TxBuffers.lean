import SimpleOs.Drivers.VirtioNet
import SimpleOs.Proof.VirtqOwnership

/-!
# Transmit buffers

The queue keeps its descriptors apart, but `virtio_net_send` takes its buffers in turn and asks nobody
whether the device is done with the next one. If it is, every time, then the sixteen buffers of
outstanding frames are distinct, the stores of a send hit none of them, and the device reads what was
sent.
-/

namespace SimpleOs

open VirtqSystem (Owned)

variable {s : VirtioNet} {k : Nat} {m : ByteMemory} {addr : BitVec 64} {data : List (BitVec 8)}
  {stores : List (Nat × BitVec 8)} {buffer other : Nat} {t : Transmission} {x : Nat}

namespace VirtioNet

theorem byteAt_inj {i j : Nat} (hi : i < virtioNetBufferSize) (hj : j < virtioNetBufferSize)
    (h : byteAt addr i = byteAt addr j) : i = j := by
  rw [virtioNetBufferSize] at *
  exact Ring.index_injOn (by omega) (by omega) h

/-- The buffers of an array do not overlap. -/
theorem byteAt_array_ne (base : BitVec 64) {i j : Nat} (hbuffer : buffer < virtioNetTxBuffers)
    (hother : other < virtioNetTxBuffers) (hne : buffer ≠ other) (hi : i < virtioNetBufferSize)
    (hj : j < virtioNetBufferSize) :
    byteAt (base + BitVec.ofNat 64 (virtioNetBufferSize * buffer)) i ≠
      byteAt (base + BitVec.ofNat 64 (virtioNetBufferSize * other)) j := by
  have hbyte (n i : Nat) : byteAt (base + BitVec.ofNat 64 n) i = byteAt base (n + i) := by
    rw [byteAt, byteAt, BitVec.toNat_add, BitVec.toNat_ofNat, Nat.mod_add_mod, Nat.add_right_comm,
      Nat.add_mod_mod, Nat.add_right_comm, Nat.add_assoc]
  intro heq
  rw [hbyte, hbyte] at heq
  rw [virtioNetTxBuffers, virtioNetBufferSize] at *
  have hsame : 2048 * buffer + i = 2048 * other + j :=
    Ring.index_injOn (by omega) (by omega) heq
  omega

theorem byteAt_bufferAddr_ne {i j : Nat} (hbuffer : buffer < virtioNetTxBuffers)
    (hother : other < virtioNetTxBuffers) (hne : buffer ≠ other) (hi : i < virtioNetBufferSize)
    (hj : j < virtioNetBufferSize) :
    byteAt (s.bufferAddr buffer) i ≠ byteAt (s.bufferAddr other) j :=
  byteAt_array_ne s.txBuffers hbuffer hother hne hi hj

def applyStores (addr : BitVec 64) (stores : List (Nat × BitVec 8)) (m : ByteMemory) : ByteMemory :=
  stores.foldl (fun m st => Function.update m (byteAt addr st.1) st.2) m

theorem applyStores_of_notMem (hx : ∀ st ∈ stores, byteAt addr st.1 ≠ x) :
    applyStores addr stores m x = m x := by
  induction stores generalizing m with
  | nil => rfl
  | cons st stores ih =>
      obtain ⟨hfirst, hrest⟩ := List.forall_mem_cons.mp hx
      exact (ih hrest).trans (Function.update_of_ne hfirst.symm ..)

theorem applyStores_of_mem (hnodup : (stores.map Prod.fst).Nodup)
    (hlt : ∀ st ∈ stores, st.1 < virtioNetBufferSize) {st : Nat × BitVec 8} (hst : st ∈ stores) :
    applyStores addr stores m (byteAt addr st.1) = st.2 := by
  induction stores generalizing m with
  | nil => cases hst
  | cons first stores ih =>
      obtain ⟨hfresh, hnodup⟩ := List.nodup_cons.mp hnodup
      obtain ⟨hfirst, hrest⟩ := List.forall_mem_cons.mp hlt
      rcases List.mem_cons.mp hst with rfl | hst
      · have hlater : ∀ later ∈ stores, byteAt addr later.1 ≠ byteAt addr st.1 := by
          intro later hlater heq
          rw [← byteAt_inj (hrest later hlater) hfirst heq] at hfresh
          exact hfresh (List.mem_map_of_mem hlater)
        calc applyStores addr stores (Function.update m (byteAt addr st.1) st.2) (byteAt addr st.1)
            = Function.update m (byteAt addr st.1) st.2 (byteAt addr st.1) :=
              applyStores_of_notMem hlater
          _ = st.2 := Function.update_self ..
      · exact ih hnodup hrest hst

theorem map_fst_sendStores : (sendStores data).map Prod.fst =
    List.range 10 ++ (List.range data.length).map (virtioNetHdrSize + ·) := by
  simp [sendStores, Function.comp_def]

theorem nodup_sendStores : ((sendStores data).map Prod.fst).Nodup := by
  rw [map_fst_sendStores, List.nodup_append]
  refine ⟨List.nodup_range, List.nodup_range.map (fun i j h => Nat.add_left_cancel h), ?_⟩
  intro i hi j hj
  obtain ⟨l, -, rfl⟩ := List.mem_map.mp hj
  rw [List.mem_range] at hi
  rw [virtioNetHdrSize]
  omega

theorem sendStores_lt (hlen : data.length ≤ ethFrameLen) :
    ∀ st ∈ sendStores data, st.1 < virtioNetBufferSize := by
  intro st hst
  have hmem := List.mem_map_of_mem (f := Prod.fst) hst
  rw [map_fst_sendStores, List.mem_append, List.mem_range, List.mem_map] at hmem
  rw [ethFrameLen] at hlen
  rw [virtioNetBufferSize]
  rcases hmem with hlow | ⟨i, hi, hsum⟩
  · omega
  · rw [List.mem_range] at hi
    rw [virtioNetHdrSize] at hsum
    omega

/-- What the device finds at an address: a header of zeros, up to `num_buffers`, and the frame. -/
def Shows (m : ByteMemory) (addr : BitVec 64) (data : List (BitVec 8)) : Prop :=
  (∀ i < 10, m (byteAt addr i) = 0) ∧
    ∀ i < data.length, m (byteAt addr (virtioNetHdrSize + i)) = data.getD i 0

instance (m : ByteMemory) (addr : BitVec 64) (data : List (BitVec 8)) :
    Decidable (Shows m addr data) :=
  inferInstanceAs (Decidable (_ ∧ _))

theorem shows_applyStores (hlen : data.length ≤ ethFrameLen) :
    Shows (applyStores addr (sendStores data) m) addr data := by
  have hstored : ∀ st ∈ sendStores data,
      applyStores addr (sendStores data) m (byteAt addr st.1) = st.2 := fun st hst =>
    applyStores_of_mem nodup_sendStores (sendStores_lt hlen) hst
  constructor
  · intro i hi
    apply hstored (i, 0)
    exact List.mem_append_left _ (List.mem_map.mpr ⟨i, List.mem_range.mpr hi, rfl⟩)
  · intro i hi
    apply hstored (virtioNetHdrSize + i, data.getD i 0)
    exact List.mem_append_right _ (List.mem_map.mpr ⟨i, List.mem_range.mpr hi, rfl⟩)

/-- A store into another buffer is not seen. -/
theorem Shows.update (h : Shows m (s.bufferAddr buffer) data) (hlen : data.length ≤ ethFrameLen)
    (hbuffer : buffer < virtioNetTxBuffers) (hother : other < virtioNetTxBuffers)
    (hne : buffer ≠ other) {offset : Nat} (hoffset : offset < virtioNetBufferSize)
    (value : BitVec 8) :
    Shows (Function.update m (byteAt (s.bufferAddr other) offset) value) (s.bufferAddr buffer) data := by
  have hkept : ∀ i < virtioNetBufferSize,
      Function.update m (byteAt (s.bufferAddr other) offset) value (byteAt (s.bufferAddr buffer) i) =
        m (byteAt (s.bufferAddr buffer) i) := fun i hi =>
    Function.update_of_ne (byteAt_bufferAddr_ne hbuffer hother hne hi hoffset) ..
  rw [ethFrameLen] at hlen
  constructor
  · intro i hi
    rw [hkept i (by rw [virtioNetBufferSize]; omega), h.1 i hi]
  · intro i hi
    rw [hkept _ (by rw [virtioNetHdrSize, virtioNetBufferSize]; omega), h.2 i hi]

/-- The frames that are outstanding, in buffers of their own. -/
structure Apart (s : VirtioNet) : Prop where
  lt : ∀ t ∈ s.outstanding, t.buffer < virtioNetTxBuffers
  nodup : (s.outstanding.map Transmission.buffer).Nodup
  length : ∀ t ∈ s.outstanding, t.data.length ≤ ethFrameLen
  shows : ∀ t ∈ s.outstanding, Shows s.mem (s.bufferAddr t.buffer) t.data

/-- A call of `virtio_net_send` has taken a buffer that no outstanding frame is in, and after the stores
that are left it shows the frame. -/
structure Filling (s : VirtioNet) (buffer : Nat) (data : List (BitVec 8))
    (stores : List (Nat × BitVec 8)) : Prop where
  idle : s.tx.driver = .idle
  room : s.tx.queue.numFree ≠ 0
  lt : buffer < virtioNetTxBuffers
  fresh : ∀ t ∈ s.outstanding, t.buffer ≠ buffer
  length : data.length ≤ ethFrameLen
  offsets : ∀ st ∈ stores, st.1 < virtioNetBufferSize
  shows : Shows (applyStores (s.bufferAddr buffer) stores s.mem) (s.bufferAddr buffer) data

def InPhase (s : VirtioNet) : SendPhase → Prop
  | .idle => s.tx.driver = .idle
  | .filling buffer data stores => s.Filling buffer data stores
  | .adding _ => s.tx.driver = .adding

structure Steady (k : Nat) (s : VirtioNet) : Prop where
  owned : ∃ F published L unread pending, Owned k F published L unread pending s.tx
  inFlight : s.tx.inFlight = s.outstanding.map Transmission.desc
  entries : ∀ t ∈ s.outstanding, s.tx.queue.desc t.desc = ⟨s.bufferAddr t.buffer,
    BitVec.ofNat 32 (virtioNetHdrSize + t.data.length), 0, 0⟩
  apart : s.Apart
  txBufIdx_lt : s.txBufIdx < virtioNetTxBuffers
  inPhase : s.InPhase s.phase

/-- The device is done with the buffer whose turn it is. -/
def BufferFree (s : VirtioNet) : Prop := ∀ t ∈ s.outstanding, t.buffer ≠ s.txBufIdx

theorem Steady.start {size : BitVec 16} (mem : Virtqueue) (hsize : size.toNat = 2 ^ k)
    (initialized : Bool) (txBuffers : BitVec 64) :
    (start initialized (Virtqueue.virtqInit mem size) txBuffers m).Steady k where
  owned := ⟨0, 0, 0, [], [], Owned.start mem hsize⟩
  inFlight := rfl
  entries := fun t ht => by cases ht
  apart := ⟨fun t ht => (by cases ht), List.nodup_nil, fun t ht => (by cases ht),
    fun t ht => by cases ht⟩
  txBufIdx_lt := show 0 < 16 by decide
  inPhase := rfl

theorem Steady.send (h : s.Steady k) (hfree : s.accepts data → s.BufferFree) :
    (s.step (.send data)).Steady k := by
  by_cases haccepts : s.accepts data
  · rw [step, if_pos haccepts]
    have hfresh := hfree haccepts
    obtain ⟨hphase, hresult⟩ := haccepts
    have hidle : s.tx.driver = .idle := by
      have hinPhase := h.inPhase
      rwa [hphase] at hinPhase
    unfold sendResult at hresult
    split_ifs at hresult with hinit hlen hroom
    exact
      { h with
        txBufIdx_lt := Nat.mod_lt _ (by decide)
        apart := ⟨h.apart.lt, h.apart.nodup, h.apart.length, h.apart.shows⟩
        inPhase :=
          { idle := hidle
            room := fun hzero => hroom (by rw [hzero]; decide)
            lt := h.txBufIdx_lt
            fresh := hfresh
            length := Nat.le_of_not_gt hlen
            offsets := sendStores_lt (Nat.le_of_not_gt hlen)
            shows := shows_applyStores (Nat.le_of_not_gt hlen) } }
  · rwa [step, if_neg haccepts]

theorem Steady.store (h : s.Steady k) : (s.step .store).Steady k := by
  have hinPhase := h.inPhase
  cases hphase : s.phase with
  | idle => simpa only [step, hphase] using h
  | adding data => simpa only [step, hphase] using h
  | filling buffer data stores =>
      rw [hphase] at hinPhase
      cases stores with
      | nil => simpa only [step, hphase] using h
      | cons st stores =>
          have hfilling : s.Filling buffer data (st :: stores) := hinPhase
          obtain ⟨hoffset, hoffsets⟩ := List.forall_mem_cons.mp hfilling.offsets
          simp only [step, hphase]
          exact
            { h with
              apart :=
                { lt := h.apart.lt
                  nodup := h.apart.nodup
                  length := h.apart.length
                  shows := fun t ht => (h.apart.shows t ht).update (h.apart.length t ht)
                    (h.apart.lt t ht) hfilling.lt (hfilling.fresh t ht) hoffset st.2 }
              inPhase :=
                { idle := hfilling.idle
                  room := hfilling.room
                  lt := hfilling.lt
                  fresh := hfilling.fresh
                  length := hfilling.length
                  offsets := hoffsets
                  shows := hfilling.shows } }

theorem Apart.add (h : s.Apart) (hfilling : s.Filling buffer data []) (desc : Nat) :
    { s with outstanding := s.outstanding ++ [(⟨desc, buffer, data⟩ : Transmission)] }.Apart := by
  refine ⟨?_, ?_, ?_, ?_⟩
  · exact List.forall_mem_append.mpr ⟨h.lt, List.forall_mem_singleton.mpr hfilling.lt⟩
  · rw [List.map_append, List.nodup_append]
    refine ⟨h.nodup, List.nodup_singleton buffer, ?_⟩
    intro other hother last hlast
    obtain ⟨t, ht, rfl⟩ := List.mem_map.mp hother
    rw [List.mem_singleton.mp hlast]
    exact hfilling.fresh t ht
  · exact List.forall_mem_append.mpr ⟨h.length, List.forall_mem_singleton.mpr hfilling.length⟩
  · exact List.forall_mem_append.mpr ⟨h.shows, List.forall_mem_singleton.mpr hfilling.shows⟩

theorem Steady.add (h : s.Steady k) : (s.step .add).Steady k := by
  have hinPhase := h.inPhase
  cases hphase : s.phase with
  | idle => simpa only [step, hphase] using h
  | adding data => simpa only [step, hphase] using h
  | filling buffer data stores =>
      rw [hphase] at hinPhase
      cases stores with
      | cons st stores => simpa only [step, hphase] using h
      | nil =>
          have hfilling : s.Filling buffer data [] := hinPhase
          obtain ⟨F, published, L, unread, pending, howned⟩ := h.owned
          have hhead : s.tx.queue.freeHead.toNat ∉ s.tx.inFlight := by
            refine (howned.mem_freeList_iff.mp ?_).2.1
            rw [freeList_cons hfilling.room]
            exact List.mem_cons_self
          have hstep := VirtqSystem.step_add hfilling.idle hfilling.room (s.bufferAddr buffer)
            (BitVec.ofNat 32 (virtioNetHdrSize + data.length)) 0
          obtain ⟨unread', howned'⟩ := howned.add hfilling.idle (s.bufferAddr buffer)
            (BitVec.ofNat 32 (virtioNetHdrSize + data.length)) 0
          have happart := h.apart.add hfilling s.tx.queue.freeHead.toNat
          simp only [step, hphase]
          exact
            { owned := ⟨F, published, L, unread', pending, howned'⟩
              inFlight := by
                rw [hstep, List.map_append, ← h.inFlight]
                rfl
              entries := by
                rw [hstep]
                refine List.forall_mem_append.mpr ⟨fun t ht => ?_, ?_⟩
                · have hne : t.desc ≠ s.tx.queue.freeHead.toNat := by
                    intro heq
                    apply hhead
                    rw [h.inFlight, ← heq]
                    exact List.mem_map_of_mem ht
                  exact (Function.update_of_ne hne ..).trans (h.entries t ht)
                · exact List.forall_mem_singleton.mpr (Function.update_self ..)
              apart := ⟨happart.lt, happart.nodup, happart.length, happart.shows⟩
              txBufIdx_lt := h.txBufIdx_lt
              inPhase := by
                rw [hstep]
                exact rfl }

theorem Steady.publish (h : s.Steady k) : (s.step .publish).Steady k := by
  have hinPhase := h.inPhase
  cases hphase : s.phase with
  | idle => simpa only [step, hphase] using h
  | filling buffer data stores => simpa only [step, hphase] using h
  | adding data =>
      rw [hphase] at hinPhase
      have hadding : s.tx.driver = .adding := hinPhase
      obtain ⟨F, published, L, unread, pending, howned⟩ := h.owned
      have hstep : s.tx.step .publish =
          { s.tx with queue := s.tx.queue.publish, driver := .idle } := if_pos hadding
      simp only [step, hphase]
      exact
        { owned := ⟨F, published + 1, L, unread, pending, howned.publish hadding⟩
          inFlight := by
            rw [hstep]
            exact h.inFlight
          entries := by
            rw [hstep]
            exact h.entries
          apart := ⟨h.apart.lt, h.apart.nodup, h.apart.length, h.apart.shows⟩
          txBufIdx_lt := h.txBufIdx_lt
          inPhase := by
            rw [hstep]
            exact rfl }

theorem InPhase.mono {s' : VirtioNet} {phase : SendPhase} (h : s.InPhase phase)
    (hdriver : s'.tx.driver = s.tx.driver) (hnumFree : s'.tx.queue.numFree = s.tx.queue.numFree)
    (htxBuffers : s'.txBuffers = s.txBuffers) (hmem : s'.mem = s.mem)
    (hsub : ∀ t ∈ s'.outstanding, t ∈ s.outstanding) : s'.InPhase phase := by
  cases phase with
  | idle => exact Eq.trans hdriver h
  | adding data => exact Eq.trans hdriver h
  | filling buffer data stores =>
      have hfilling : s.Filling buffer data stores := h
      have haddr : s'.bufferAddr buffer = s.bufferAddr buffer := by
        rw [bufferAddr, bufferAddr, htxBuffers]
      exact
        { idle := hdriver.trans hfilling.idle
          room := hnumFree ▸ hfilling.room
          lt := hfilling.lt
          fresh := fun t ht => hfilling.fresh t (hsub t ht)
          length := hfilling.length
          offsets := hfilling.offsets
          shows := by
            rw [haddr, hmem]
            exact hfilling.shows }

/-- A step of the device that completes nothing. -/
theorem Steady.device (h : s.Steady k) {tx : VirtqSystem}
    (howned : ∃ F published L unread pending, Owned k F published L unread pending tx)
    (hinFlight : tx.inFlight = s.tx.inFlight) (hdesc : tx.queue.desc = s.tx.queue.desc)
    (hnumFree : tx.queue.numFree = s.tx.queue.numFree) (hdriver : tx.driver = s.tx.driver) :
    { s with tx := tx }.Steady k where
  owned := howned
  inFlight := hinFlight.trans h.inFlight
  entries := fun t ht => (congrFun hdesc t.desc).trans (h.entries t ht)
  apart := ⟨h.apart.lt, h.apart.nodup, h.apart.length, h.apart.shows⟩
  txBufIdx_lt := h.txBufIdx_lt
  inPhase := h.inPhase.mono hdriver hnumFree rfl rfl fun _ ht => ht

theorem Steady.fetch (h : s.Steady k) : (s.step .fetch).Steady k := by
  obtain ⟨F, published, L, unread, pending, howned⟩ := h.owned
  apply h.device (howned.step .fetch)
  all_goals
    simp only [VirtqSystem.step]
    split <;> rfl

theorem Steady.complete (h : s.Steady k) (i : Nat) (len : BitVec 32) :
    (s.step (.complete i len)).Steady k := by
  obtain ⟨F, published, L, unread, pending, howned⟩ := h.owned
  apply h.device (howned.step (.complete i len))
  all_goals
    simp only [VirtqSystem.step]
    split <;> rfl

theorem Steady.count (h : s.Steady k) : (s.step .count).Steady k := by
  cases hcompleting : s.tx.completing with
  | none =>
      have hstep : s.step .count = s := by
        have hall : s.outstanding.filter (fun t => some t.desc ≠ s.tx.completing) = s.outstanding := by
          rw [List.filter_eq_self]
          intro t _
          rw [hcompleting]
          exact decide_eq_true (Option.some_ne_none t.desc)
        have htx : s.tx.step .count = s.tx := by
          simp only [VirtqSystem.step, hcompleting]
        simp only [step, hall, htx]
      rwa [hstep]
  | some d =>
      have hsub : ∀ t ∈ (s.step .count).outstanding, t ∈ s.outstanding := fun t ht =>
        List.mem_of_mem_filter ht
      have htx : s.tx.step .count =
          { s.tx with
            queue := { s.tx.queue with usedIdx := s.tx.queue.usedIdx + 1 }
            completing := none
            inFlight := s.tx.inFlight.erase d
            completed := s.tx.completed ++ [d] } := by
        simp only [VirtqSystem.step, hcompleting]
      obtain ⟨F, published, L, unread, pending, howned⟩ := h.owned
      exact
        { owned := howned.step .count
          inFlight := by
            change (s.tx.step .count).inFlight = (s.outstanding.filter _).map _
            rw [htx, hcompleting]
            change s.tx.inFlight.erase d = _
            rw [howned.nodup_inFlight.erase_eq_filter, h.inFlight, List.filter_map]
            congr 1
            apply List.filter_congr
            intro t _
            simp [bne, beq_eq_decide]
          entries := fun t ht => by
            change (s.tx.step .count).queue.desc t.desc = _
            rw [htx]
            exact h.entries t (hsub t ht)
          apart :=
            { lt := fun t ht => h.apart.lt t (hsub t ht)
              nodup := h.apart.nodup.sublist (List.filter_sublist.map _)
              length := fun t ht => h.apart.length t (hsub t ht)
              shows := fun t ht => h.apart.shows t (hsub t ht) }
          txBufIdx_lt := h.txBufIdx_lt
          inPhase := h.inPhase.mono (by rw [step, htx]) (by rw [step, htx]) rfl rfl hsub }

theorem Steady.step (h : s.Steady k) {event : NetEvent}
    (hfree : ∀ data, event = .send data → s.accepts data → s.BufferFree) :
    (s.step event).Steady k := by
  cases event with
  | send data => exact h.send (hfree data rfl)
  | store => exact h.store
  | add => exact h.add
  | publish => exact h.publish
  | fetch => exact h.fetch
  | complete i len => exact h.complete i len
  | count => exact h.count

/-- Whenever a frame is accepted, the device is done with the buffer whose turn it is. -/
def Paced : VirtioNet → List NetEvent → Prop
  | _, [] => True
  | s, event :: events =>
      (∀ data, event = .send data → s.accepts data → s.BufferFree) ∧ Paced (s.step event) events

theorem Steady.run (h : s.Steady k) {events : List NetEvent} (hpaced : s.Paced events) :
    (s.run events).Steady k := by
  induction events generalizing s with
  | nil => exact h
  | cons event events ih => exact ih (h.step hpaced.1) hpaced.2

/-- Through every descriptor that is in flight, the device reads the header and the frame of the call of
`virtio_net_send` that it is for. -/
def ReadsSent (s : VirtioNet) : Prop :=
  ∀ d ∈ s.tx.inFlight, ∃ t ∈ s.outstanding, t.desc = d ∧
    (s.tx.queue.desc d).len = BitVec.ofNat 32 (virtioNetHdrSize + t.data.length) ∧
    Shows s.mem (s.tx.queue.desc d).addr t.data

/-- **Transmit buffers.** In every run in which the buffers are not used faster than the device is done
with them, the device reads what was sent. -/
theorem readsSent_of_paced {size : BitVec 16} (mem : Virtqueue) (hsize : size.toNat = 2 ^ k)
    (initialized : Bool) (txBuffers : BitVec 64) (m : ByteMemory) {events : List NetEvent}
    (hpaced : (start initialized (Virtqueue.virtqInit mem size) txBuffers m).Paced events) :
    ((start initialized (Virtqueue.virtqInit mem size) txBuffers m).run events).ReadsSent := by
  have hsteady := (Steady.start mem hsize initialized txBuffers).run hpaced
  intro d hd
  rw [hsteady.inFlight] at hd
  obtain ⟨t, ht, rfl⟩ := List.mem_map.mp hd
  refine ⟨t, ht, rfl, ?_, ?_⟩
  · rw [hsteady.entries t ht]
  · rw [hsteady.entries t ht]
    exact hsteady.apart.shows t ht

instance : DecidablePred BufferFree := fun s =>
  inferInstanceAs (Decidable (∀ t ∈ s.outstanding, t.buffer ≠ s.txBufIdx))

/-- `Paced`, computed. -/
def pacedNow : VirtioNet → List NetEvent → Bool
  | _, [] => true
  | s, event :: events =>
      (match event with
        | .send data => decide (s.accepts data → s.BufferFree)
        | _ => true) && pacedNow (s.step event) events

theorem paced_of_pacedNow {events : List NetEvent} (h : s.pacedNow events = true) : s.Paced events := by
  induction events generalizing s with
  | nil => trivial
  | cons event events ih =>
      obtain ⟨hfirst, hrest⟩ := (Bool.and_eq_true _ _).mp h
      refine ⟨fun data heq => ?_, ih hrest⟩
      subst heq
      exact of_decide_eq_true hfirst

/-- A whole call of `virtio_net_send`. -/
def sendEvents (data : List (BitVec 8)) : List NetEvent :=
  .send data :: (List.replicate (10 + data.length) .store ++ [.add, .publish])

def sampleNet (size : BitVec 16) : VirtioNet :=
  start true (Virtqueue.virtqInit VirtqSystem.sampleMemory size) 0x200000 ByteMemory.zero

/-- The device takes the frame, reads it and counts it as completed. -/
def takenEvents : List NetEvent := [.fetch, .complete 0 0, .count]

/-- Seventeen frames on a queue of 32, each taken before the next one. -/
def pacedSends : List NetEvent :=
  (List.replicate 16 (sendEvents [1] ++ takenEvents)).flatten ++ sendEvents [2]

/-- The first buffer is used a second time, and the device reads the seventeenth frame from it. -/
theorem readsSent_of_paced_pacedSends :
    ((sampleNet 32).run pacedSends).outstanding = [⟨16, 0, [2]⟩] ∧
      ((sampleNet 32).run pacedSends).tx.inFlight = [16] ∧ ((sampleNet 32).run pacedSends).ReadsSent :=
  ⟨by decide +kernel, by decide +kernel, readsSent_of_paced (k := 5) VirtqSystem.sampleMemory rfl true
    0x200000 ByteMemory.zero (paced_of_pacedNow (by decide +kernel))⟩

/-- Seventeen frames on a queue of 32, while the device works on the first one. -/
def seventeenSends : List NetEvent :=
  sendEvents [1] ++ (List.replicate 15 (sendEvents [])).flatten ++ sendEvents [2]

theorem not_readsSent_seventeenSends : ¬ ((sampleNet 32).run seventeenSends).ReadsSent := by
  intro hreads
  have hfirst : 0 ∈ ((sampleNet 32).run seventeenSends).tx.inFlight := by decide +kernel
  have hdata : ∀ t ∈ ((sampleNet 32).run seventeenSends).outstanding, t.desc = 0 → t.data = [1] := by
    decide +kernel
  have hbyte : ((sampleNet 32).run seventeenSends).mem
      (byteAt (((sampleNet 32).run seventeenSends).tx.queue.desc 0).addr virtioNetHdrSize) = 2 := by
    decide +kernel
  obtain ⟨t, ht, hdesc, -, -, hshows⟩ := hreads 0 hfirst
  rw [hdata t ht hdesc] at hshows
  have hone := hshows 0 (by decide)
  rw [Nat.add_zero, hbyte] at hone
  exact absurd hone (by decide)

end VirtioNet

end SimpleOs
