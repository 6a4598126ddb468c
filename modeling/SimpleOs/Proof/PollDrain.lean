import SimpleOs.Net.Poll
import SimpleOs.Proof.RxDelivery

/-!
# What a poll gets done

`net_poll` processes the frames that wait in the used ring, one after the other. It stops where there is
none, or at a frame without a byte: those behind that one wait for the next poll.
-/

namespace SimpleOs

open VirtioNet (byteAt)

variable {net : NetConfig} {mem buffer : ByteMemory} {stack : Nat → ByteMemory} {p : Poll}
  {dev : RxDriver} {turns : Nat}

namespace Virtqueue

variable {vq : Virtqueue}

/-- The entries of the used ring that have not been read. -/
def unread (vq : Virtqueue) : List VirtqUsedElem :=
  (List.range (vq.usedIdx - vq.lastUsedIdx).toNat).map fun i =>
    vq.usedRing (vq.slot (vq.lastUsedIdx + BitVec.ofNat 16 i))

theorem unread_eq_nil (h : vq.hasUsed = false) : vq.unread = [] := by
  have hsame : vq.lastUsedIdx = vq.usedIdx := by simpa [hasUsed] using h
  rw [unread, hsame, BitVec.sub_self]
  rfl

theorem unread_eq_cons (h : vq.hasUsed = true) :
    vq.unread = vq.usedRing (vq.slot vq.lastUsedIdx) :: vq.takeUsed.2.2.unread := by
  have hne : vq.lastUsedIdx ≠ vq.usedIdx := by simpa [hasUsed] using h
  have hpos : (vq.usedIdx - vq.lastUsedIdx).toNat ≠ 0 := by
    intro hzero
    have hsub : vq.usedIdx - vq.lastUsedIdx = 0 := BitVec.eq_of_toNat_eq hzero
    exact hne (sub_eq_zero.mp hsub).symm
  obtain ⟨n, hn⟩ := Nat.exists_eq_succ_of_ne_zero hpos
  have hrest : (vq.usedIdx - (vq.lastUsedIdx + 1)).toNat = n := by
    rw [BitVec.toNat_sub] at hn ⊢
    rw [BitVec.toNat_add]
    have hlast := vq.lastUsedIdx.isLt
    have hused := vq.usedIdx.isLt
    change (2 ^ 16 - (vq.lastUsedIdx.toNat + 1) % 2 ^ 16 + vq.usedIdx.toNat) % 2 ^ 16 = n
    omega
  rw [unread, hn, List.range_succ_eq_map, List.map_cons, List.map_map, BitVec.add_zero]
  refine congrArg _ ?_
  rw [unread]
  change _ = (List.range (vq.usedIdx - (vq.lastUsedIdx + 1)).toNat).map fun i =>
    vq.usedRing (vq.slot (vq.lastUsedIdx + 1 + BitVec.ofNat 16 i))
  rw [hrest]
  refine List.map_congr_left fun i _ => ?_
  rw [Function.comp_apply, Nat.succ_eq_add_one, Nat.add_comm, BitVec.ofNat_add, ← BitVec.add_assoc]
  rfl

theorem unread_virtqAddBuffer (addr : BitVec 64) (len : BitVec 32) (flags : BitVec 16) :
    (vq.virtqAddBuffer addr len flags).2.unread = vq.unread := by
  rw [virtqAddBuffer, addEntry]
  by_cases hfree : vq.numFree = 0
  · rw [if_pos hfree]
  · rw [if_neg hfree]
    rfl

end Virtqueue

/-- The bytes that `net_process_packet` is given. -/
def EthFrame.contents (frame : EthFrame) : List (BitVec 8) := (List.range frame.len).map frame.bytes

theorem EthFrame.contents_copied (buffer : ByteMemory) {data : List (BitVec 8)} {frame : EthFrame}
    (hbytes : frame.bytes = copied buffer data) (hlen : frame.len = data.length) :
    frame.contents = data := by
  rw [contents, hbytes, hlen]
  refine List.ext_getElem ?_ fun i _ hi => ?_
  · rw [List.length_map, List.length_range]
  · rw [List.getElem_map, List.getElem_range]
    exact List.getD_eq_getElem data _ hi

namespace RxDriver

/-- What `net_poll` gets of a frame that waits. -/
def packet (rxBuffers : BitVec 64) (mem : ByteMemory) (e : VirtqUsedElem) : List (BitVec 8) :=
  (List.range (recvLen e.len (BitVec.ofNat 32 ethFrameLen)).toNat).map fun i =>
    mem (byteAt (rxBuffer rxBuffers e.id.toNat) (virtioNetHdrSize + i))

def packets (dev : RxDriver) (mem : ByteMemory) : List (List (BitVec 8)) :=
  dev.queue.unread.map (packet dev.rxBuffers mem)

/-- Every buffer that was handed back is one of the driver's. -/
structure Ready (dev : RxDriver) : Prop where
  initialized : dev.initialized = true
  id_lt : ∀ e ∈ dev.queue.unread, e.id.toNat < virtioNetRxBuffers

theorem virtioNetRecv_nil (h : dev.queue.unread = []) (mem : ByteMemory) (bufSize : BitVec 32) :
    (dev.virtioNetRecv mem bufSize).1 ≤ 0 ∧ (dev.virtioNetRecv mem bufSize).2 = ([], dev) := by
  have hnone : dev.queue.hasUsed = false := by
    by_contra hused
    rw [Virtqueue.unread_eq_cons (Bool.not_eq_false _ ▸ hused)] at h
    cases h
  rw [virtioNetRecv, if_pos hnone]
  split_ifs
  · exact ⟨Int.neg_nonpos_of_nonneg Int.one_nonneg, rfl⟩
  · exact ⟨le_rfl, rfl⟩

/-- A frame is received: the others wait on. -/
theorem Ready.recv (h : dev.Ready) {e : VirtqUsedElem} {rest : List VirtqUsedElem}
    (hunread : dev.queue.unread = e :: rest) (mem : ByteMemory) :
    ∃ dev' : RxDriver, dev.virtioNetRecv mem (BitVec.ofNat 32 ethFrameLen) =
        (((packet dev.rxBuffers mem e).length : Int), packet dev.rxBuffers mem e, dev') ∧
      dev'.queue.unread = rest ∧ dev'.Ready ∧ dev'.rxBuffers = dev.rxBuffers := by
  have hused : dev.queue.hasUsed = true := by
    by_contra hnone
    rw [Virtqueue.unread_eq_nil (Bool.eq_false_iff.mpr hnone)] at hunread
    cases hunread
  have hcons := Virtqueue.unread_eq_cons hused
  rw [hunread, List.cons.injEq] at hcons
  obtain ⟨helem, hrest⟩ := hcons
  have hid : e.id.toNat < virtioNetRxBuffers := h.id_lt e (hunread ▸ List.mem_cons_self)
  have hcompleted : dev.Completed e.id e.len := ⟨h.initialized, hused, helem.symm, hid⟩
  have hle : (recvLen e.len (BitVec.ofNat 32 ethFrameLen)).toNat ≤ 1514 := toNat_recvLen_le e.len _
  have hlength : (recvLen e.len (BitVec.ofNat 32 ethFrameLen)).toInt =
      ((packet dev.rxBuffers mem e).length : Int) := by
    rw [packet, List.length_map, List.length_range, BitVec.toInt_eq_toNat_of_lt (by omega)]
  have hrecv := hcompleted.virtioNetRecv mem (BitVec.ofNat 32 ethFrameLen)
  rw [hlength] at hrecv
  refine ⟨_, hrecv, ?_, ⟨h.initialized, ?_⟩, rfl⟩
  · exact (Virtqueue.unread_virtqAddBuffer _ _ _).trans hrest.symm
  · intro e' he'
    have hold : e' ∈ dev.queue.takeUsed.2.2.unread := by
      rwa [← Virtqueue.unread_virtqAddBuffer]
    rw [← hrest] at hold
    exact h.id_lt e' (hunread ▸ List.mem_cons_of_mem e hold)

end RxDriver

theorem netPoll_nil (h : p.dev.queue.unread = []) : net.netPoll mem stack p (turns + 1) = some p := by
  obtain ⟨hnone, hsame⟩ := RxDriver.virtioNetRecv_nil h mem (BitVec.ofNat 32 ethFrameLen)
  rw [NetConfig.netPoll]
  dsimp only
  rw [if_neg (not_lt.mpr hnone), hsame]
  rfl

/-- A frame without a byte ends the poll. -/
theorem netPoll_empty (h : p.dev.Ready) {e : VirtqUsedElem} {rest : List VirtqUsedElem}
    (hunread : p.dev.queue.unread = e :: rest) (hempty : RxDriver.packet p.dev.rxBuffers mem e = []) :
    ∃ dev', net.netPoll mem stack p (turns + 1) = some ⟨dev', p.buffer, p.sent⟩ ∧
      dev'.queue.unread = rest := by
  obtain ⟨dev', hrecv, hrest, -, -⟩ := h.recv hunread mem
  rw [hempty] at hrecv
  refine ⟨dev', ?_, hrest⟩
  rw [NetConfig.netPoll]
  dsimp only
  rw [if_neg (by rw [hrecv]; exact lt_irrefl _), hrecv]
  rfl

/-- Any other one is processed. -/
theorem netPoll_cons (h : p.dev.Ready) {e : VirtqUsedElem} {rest : List VirtqUsedElem}
    (hunread : p.dev.queue.unread = e :: rest) (hsome : RxDriver.packet p.dev.rxBuffers mem e ≠ []) :
    ∃ (frame : EthFrame) (dev' : RxDriver), frame.contents = RxDriver.packet p.dev.rxBuffers mem e ∧
      dev'.queue.unread = rest ∧ dev'.Ready ∧ dev'.rxBuffers = p.dev.rxBuffers ∧
      net.netPoll mem stack p (turns + 1) = net.netPoll mem stack ⟨dev', frame.bytes,
        p.sent ++ (net.netProcessPacket frame (stack turns)).value.toList⟩ turns := by
  obtain ⟨dev', hrecv, hrest, hready, hbuffers⟩ := h.recv hunread mem
  have hle := p.dev.toNat_virtioNetRecv_le mem
  rw [hrecv, Int.toNat_natCast] at hle
  have hpos : ((RxDriver.packet p.dev.rxBuffers mem e).length : Int) > 0 :=
    Int.natCast_pos.mpr (List.length_pos_iff.mpr hsome)
  refine ⟨⟨copied p.buffer (RxDriver.packet p.dev.rxBuffers mem e), _, hle⟩, dev',
    EthFrame.contents_copied p.buffer rfl rfl, hrest, hready, hbuffers, ?_⟩
  rw [NetConfig.netPoll]
  simp only [hrecv, if_pos hpos, Int.toNat_natCast]

/-- What a poll makes of the frames that wait: those before the first empty one are processed, in order,
and that one goes with them. -/
structure Polled (net : NetConfig) (packets : List (List (BitVec 8))) (p p' : Poll) : Prop where
  processed : ∃ (frames : List EthFrame) (replies : List (Option Sent)),
    frames.map EthFrame.contents = packets.takeWhile (· ≠ []) ∧
      List.Forall₂ (fun frame reply => ∃ stack, (net.netProcessPacket frame stack).value = reply)
        frames replies ∧
      p'.sent = p.sent ++ replies.reduceOption
  unread : p'.dev.queue.unread = p.dev.queue.unread.drop ((packets.takeWhile (· ≠ [])).length + 1)

/-- Nothing is processed. -/
theorem Polled.nil {packets : List (List (BitVec 8))} {p' : Poll}
    (hnone : packets.takeWhile (· ≠ []) = []) (hsent : p'.sent = p.sent)
    (hunread : p'.dev.queue.unread = p.dev.queue.unread.tail) : Polled net packets p p' := by
  refine ⟨⟨[], [], ?_, List.Forall₂.nil, ?_⟩, ?_⟩
  · rw [hnone, List.map_nil]
  · rw [hsent, List.reduceOption_nil, List.append_nil]
  · rw [hnone, hunread, List.length_nil, List.drop_one]

/-- One frame more has been processed before. -/
theorem Polled.cons {packets : List (List (BitVec 8))} {p₁ p' : Poll} (h : Polled net packets p₁ p')
    {frame : EthFrame} {e : VirtqUsedElem} (hunread : p.dev.queue.unread = e :: p₁.dev.queue.unread)
    (hsome : frame.contents ≠ []) {stack : ByteMemory}
    (hsent : p₁.sent = p.sent ++ (net.netProcessPacket frame stack).value.toList) :
    Polled net (frame.contents :: packets) p p' := by
  have htake : (frame.contents :: packets).takeWhile (· ≠ []) =
      frame.contents :: packets.takeWhile (· ≠ []) :=
    List.takeWhile_cons_of_pos (decide_eq_true hsome)
  obtain ⟨frames, replies, hframes, hreplies, hall⟩ := h.processed
  refine ⟨⟨frame :: frames, (net.netProcessPacket frame stack).value :: replies, ?_, ?_, ?_⟩, ?_⟩
  · rw [List.map_cons, hframes, htake]
  · exact List.Forall₂.cons ⟨stack, rfl⟩ hreplies
  · rw [hall, hsent, List.append_assoc]
    cases (net.netProcessPacket frame stack).value with
    | none => rfl
    | some reply => rfl
  · rw [h.unread, htake, hunread, List.length_cons, List.drop_succ_cons]

theorem netPoll_polled (h : p.dev.Ready) (hturns : p.dev.queue.unread.length < turns) :
    ∃ p', net.netPoll mem stack p turns = some p' ∧ Polled net (p.dev.packets mem) p p' := by
  induction turns generalizing p with
  | zero => exact absurd hturns (Nat.not_lt_zero _)
  | succ turns ih =>
      cases hunread : p.dev.queue.unread with
      | nil =>
          refine ⟨p, netPoll_nil hunread, Polled.nil ?_ rfl ?_⟩
          · rw [RxDriver.packets, hunread, List.map_nil, List.takeWhile_nil]
          · rw [hunread, List.tail_nil]
      | cons e rest =>
          rw [hunread, List.length_cons] at hturns
          rw [RxDriver.packets, hunread, List.map_cons]
          by_cases hsome : RxDriver.packet p.dev.rxBuffers mem e = []
          · obtain ⟨dev', hpoll, hrest⟩ := netPoll_empty h hunread hsome
            refine ⟨_, hpoll, Polled.nil ?_ rfl ?_⟩
            · rw [hsome]
              rfl
            · rw [hunread]
              exact hrest
          · obtain ⟨frame, dev', hframe, rfl, hready, hbuffers, hpoll⟩ := netPoll_cons h hunread hsome
            obtain ⟨p', hrun, hpolled⟩ :=
              ih (p := ⟨dev', frame.bytes, _⟩) hready (Nat.lt_of_succ_lt_succ hturns)
            rw [RxDriver.packets, hbuffers] at hpolled
            rw [← hframe] at hsome ⊢
            exact ⟨p', hpoll.trans hrun, hpolled.cons hunread hsome rfl⟩

/-- Nothing is behind the first element that fails, unless one before the last does. -/
theorem drop_takeWhile_eq_nil_iff {α : Type} (P : α → Bool) (l : List α) :
    l.drop ((l.takeWhile P).length + 1) = [] ↔ ∀ a ∈ l.dropLast, P a = true := by
  induction l with
  | nil => simp
  | cons a l ih =>
      rw [List.drop_succ_cons]
      cases ha : P a with
      | false =>
          rw [List.takeWhile_cons_of_neg (by simp [ha]), List.length_nil, List.drop_zero]
          cases l with
          | nil => simp
          | cons b l => simp [ha]
      | true =>
          rw [List.takeWhile_cons_of_pos ha, List.length_cons, ih]
          cases l with
          | nil => simp
          | cons b l =>
              rw [List.dropLast_cons_cons, List.forall_mem_cons]
              exact (and_iff_right ha).symm

/-- The frame that the device wrote, behind the header. -/
def RxCompletion.packet (c : RxCompletion) : List (BitVec 8) :=
  (List.range (c.len.toNat - virtioNetHdrSize)).map fun i => c.data (virtioNetHdrSize + i)

/-- A whole header, and behind it no more than the buffer of `net_poll` holds. -/
def RxCompletion.WellSized (c : RxCompletion) : Prop :=
  virtioNetHdrSize ≤ c.len.toNat ∧ c.len.toNat ≤ virtioNetHdrSize + ethFrameLen

instance (c : RxCompletion) : Decidable c.WellSized := inferInstanceAs (Decidable (_ ∧ _))

namespace VirtioNetRx

variable {s : VirtioNetRx} {k : Nat} {waiting : List RxCompletion}

/-- The completions that the device has counted and no call has received. -/
def pending (s : VirtioNetRx) : List RxCompletion :=
  (s.completions.drop s.received.length).take (s.rx.queue.usedIdx - s.rx.queue.lastUsedIdx).toNat

theorem Receiving.pending (h : s.Receiving k [] waiting) :
    ∃ n, s.pending = waiting.take n ∧ s.rx.queue.unread = (waiting.take n).map RxCompletion.elem := by
  obtain ⟨F, published, L, unread, pending, howned, hwaiting, hring⟩ := h.owned
  obtain ⟨copied, hcompletions, hcopied⟩ := h.copies
  have htotal := howned.total
  have hlt := howned.size_lt
  have hcount : (s.rx.queue.usedIdx - s.rx.queue.lastUsedIdx).toNat = pending.length := by
    rw [List.length_append] at htotal
    rw [howned.usedIdx, howned.lastUsedIdx, BitVec.toNat_sub, BitVec.toNat_ofNat, BitVec.toNat_ofNat]
    omega
  have hle : pending.length ≤ waiting.length := by
    rw [← List.length_map (f := RxCompletion.desc), ← hwaiting, List.length_append]
    exact Nat.le_add_right _ _
  refine ⟨pending.length, ?_, ?_⟩
  · rw [VirtioNetRx.pending, hcompletions, hcount, hcopied.length_eq, List.drop_left, List.nil_append]
  · rw [List.map_take, ← hring, Virtqueue.unread, hcount, Ring.contents, ← List.map_take, List.take_range,
      min_eq_left hle]
    refine List.map_congr_left fun i _ => ?_
    rw [howned.lastUsedIdx, ← BitVec.ofNat_add, howned.slot]

/-- The driver reads what the device wrote. -/
theorem Receiving.packet (h : s.Receiving k [] waiting) {c : RxCompletion} (hc : c ∈ waiting)
    (hsized : c.WellSized) : RxDriver.packet s.rxBuffers s.mem c.elem = c.packet := by
  obtain ⟨hheader, hfits⟩ := hsized
  have hlt : c.desc < 16 := h.desc_lt hc
  obtain ⟨haddr, hshows⟩ := h.shows c hc
  have hrecv : (recvLen c.len (BitVec.ofNat 32 ethFrameLen)).toNat = c.len.toNat - virtioNetHdrSize := by
    rw [toNat_recvLen _ hheader]
    exact min_eq_left (Nat.sub_le_iff_le_add'.mpr hfits)
  have hid : c.elem.id.toNat = c.desc := by
    rw [RxCompletion.elem, BitVec.toNat_ofNat]
    omega
  rw [RxDriver.packet, RxCompletion.packet, show c.elem.len = c.len from rfl, hrecv]
  refine List.map_congr_left fun i hi => ?_
  have hi : i < c.len.toNat - virtioNetHdrSize := List.mem_range.mp hi
  rw [hid, ← haddr]
  refine hshows _ ?_
  rw [virtioNetHdrSize] at hfits hi ⊢
  rw [virtioNetBufferSize]
  rw [ethFrameLen] at hfits
  omega

theorem initialized_step (s : VirtioNetRx) (event : RecvEvent) :
    (s.step event).initialized = s.initialized := by
  cases event <;> rw [step] <;> (repeat' split) <;> rfl

theorem initialized_run (s : VirtioNetRx) (events : List RecvEvent) :
    (s.run events).initialized = s.initialized := by
  induction events generalizing s with
  | nil => rfl
  | cons event events ih => exact (ih (s.step event)).trans (initialized_step s event)

/-- After any run of the driver and the device, from a queue with a power of two descriptors that has just
been filled. -/
def Reached (s : VirtioNetRx) : Prop :=
  ∃ (k : Nat) (size : BitVec 16) (queue : Virtqueue) (rxBuffers : BitVec 64) (mem : ByteMemory)
    (events : List RecvEvent), size.toNat = 2 ^ k ∧ virtioNetRxBuffers ≤ size.toNat ∧
      s = (start true (Virtqueue.virtqInit queue size) rxBuffers mem).run events

theorem Reached.receiving (h : s.Reached) :
    s.initialized = true ∧ ∃ k inHand waiting, s.Receiving k inHand waiting := by
  obtain ⟨k, size, queue, rxBuffers, mem, events, hsize, hroom, rfl⟩ := h
  have hstart : (start true (Virtqueue.virtqInit queue size) rxBuffers mem).Receiving k [] [] := by
    have hfilled := filled_post queue hsize rxBuffers (hroom.trans hsize.le)
    rw [start]
    -- otherwise the sixteen posts are run
    generalize VirtqSystem.run _ _ = rx at hfilled ⊢
    exact Receiving.of_filled hfilled rfl rfl rfl
  exact ⟨initialized_run _ events, k, hstart.run events⟩

/-- What waits between two calls. -/
theorem Reached.pending (h : s.Reached) (hidle : s.phase = .idle)
    (hsized : ∀ c ∈ s.pending, c.WellSized) :
    s.driver.Ready ∧ s.driver.queue.unread = s.pending.map RxCompletion.elem ∧
      s.driver.packets s.mem = s.pending.map RxCompletion.packet := by
  obtain ⟨hinitialized, k, inHand, waiting, hreceiving⟩ := h.receiving
  have hinPhase := hreceiving.inPhase
  rw [hidle] at hinPhase
  obtain rfl := hinPhase.1
  obtain ⟨n, hpending, hunread⟩ := hreceiving.pending
  rw [← hpending] at hunread
  have hmem : ∀ c ∈ s.pending, c ∈ waiting := fun c hc => List.mem_of_mem_take (hpending ▸ hc)
  refine ⟨⟨hinitialized, fun e he => ?_⟩, hunread, ?_⟩
  · change e ∈ s.rx.queue.unread at he
    rw [hunread] at he
    obtain ⟨c, hc, rfl⟩ := List.mem_map.mp he
    have hlt : c.desc < 16 := hreceiving.desc_lt (hmem c hc)
    change c.desc % 2 ^ 32 < 16
    omega
  · change s.rx.queue.unread.map (RxDriver.packet s.rxBuffers s.mem) = _
    rw [hunread, List.map_map]
    exact List.map_congr_left fun c hc => hreceiving.packet (hmem c hc) (hsized c hc)

/-- **A poll drains the queue up to the first empty frame.** Whatever the driver and the device have done
before: if what waits has whole headers and fits the buffer, and the device rests meanwhile, `net_poll` ends,
and has given `net_process_packet` each frame that was waiting, in order, once and as the device wrote it, up
to the first one without a byte. Nothing is left waiting if and only if no frame but the last was empty. -/
theorem netPoll_drains (net : NetConfig) (stack : Nat → ByteMemory) (buffer : ByteMemory)
    (sent : List Sent) (h : s.Reached) (hidle : s.phase = .idle)
    (hsized : ∀ c ∈ s.pending, c.WellSized) (hturns : s.pending.length < turns) :
    ∃ p', net.netPoll s.mem stack ⟨s.driver, buffer, sent⟩ turns = some p' ∧
      Polled net (s.pending.map RxCompletion.packet) ⟨s.driver, buffer, sent⟩ p' ∧
      (p'.dev.queue.unread = [] ↔ ∀ c ∈ s.pending.dropLast, c.packet ≠ []) := by
  obtain ⟨hready, hunread, hpackets⟩ := h.pending hidle hsized
  have hlength : s.driver.queue.unread.length < turns := by rwa [hunread, List.length_map]
  obtain ⟨p', hpoll, hpolled⟩ : ∃ p', net.netPoll s.mem stack ⟨s.driver, buffer, sent⟩ turns = some p' ∧
      Polled net (s.driver.packets s.mem) ⟨s.driver, buffer, sent⟩ p' := netPoll_polled hready hlength
  rw [hpackets] at hpolled
  refine ⟨p', hpoll, hpolled, ?_⟩
  have hleft : p'.dev.queue.unread = [] ↔ (s.pending.map RxCompletion.packet).drop
      (((s.pending.map RxCompletion.packet).takeWhile (· ≠ [])).length + 1) = [] := by
    rw [hpolled.unread, hunread, List.drop_eq_nil_iff, List.drop_eq_nil_iff, List.length_map, List.length_map]
  rw [hleft, drop_takeWhile_eq_nil_iff, ← List.map_dropLast, List.forall_mem_map]
  simp only [decide_eq_true_eq]

/-- The device has handed back the first two buffers, with nothing behind the header of the first frame. -/
def twoWaiting : VirtioNetRx :=
  (start true (Virtqueue.virtqInit VirtqSystem.sampleMemory 16) 0x200000 ByteMemory.zero).run
    [.fetch, .fetch, .complete 0 12, .count, .complete 0 60, .count]

theorem netPoll_drains_twoWaiting :
    ∃ p', NetConfig.netPoll ⟨fun _ => 0, 0⟩ twoWaiting.mem (fun _ => .zero) ⟨twoWaiting.driver, .zero, []⟩ 3 =
        some p' ∧
      Polled ⟨fun _ => 0, 0⟩ (twoWaiting.pending.map RxCompletion.packet) ⟨twoWaiting.driver, .zero, []⟩ p' ∧
      (p'.dev.queue.unread = [] ↔ ∀ c ∈ twoWaiting.pending.dropLast, c.packet ≠ []) :=
  netPoll_drains ⟨fun _ => 0, 0⟩ (fun _ => .zero) .zero []
    ⟨4, 16, VirtqSystem.sampleMemory, 0x200000, ByteMemory.zero, _, rfl, by decide, rfl⟩ (by decide +kernel)
    (by decide +kernel) (by decide +kernel)

end VirtioNetRx

end SimpleOs
