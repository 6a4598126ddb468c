import SimpleOs.Drivers.VirtioNetRecv
import SimpleOs.Proof.TxBuffers

/-!
# Receive buffers

`virtio_net_recv` takes the number of a descriptor for the number of a buffer. That is right because
`virtq_get_used` puts the descriptor at the head of the free list and `virtq_add_buffer` takes it from
there again, so that it is posted with the same buffer. Between the two, the descriptor is in the hand of
the driver, and the device does not write its buffer.
-/

namespace SimpleOs

open VirtioNet (byteAt)
open VirtqSystem (Owned)

variable {k : Nat} {inHand waiting : List RxCompletion}

/-- The used ring's entry for a completion. -/
def RxCompletion.elem (c : RxCompletion) : VirtqUsedElem := ⟨BitVec.ofNat 32 c.desc, c.len⟩

/-- `data` is what the device wrote behind the header, as far as the buffer goes. -/
def RxCompletion.Shows (c : RxCompletion) (data : List (BitVec 8)) : Prop :=
  ∀ i byte, data[i]? = some byte → virtioNetHdrSize + i < virtioNetBufferSize →
    byte = c.data (virtioNetHdrSize + i)

theorem RxCompletion.Shows.append {c : RxCompletion} {data : List (BitVec 8)} {byte : BitVec 8}
    (h : c.Shows data) (hbyte : virtioNetHdrSize + data.length < virtioNetBufferSize →
      byte = c.data (virtioNetHdrSize + data.length)) : c.Shows (data ++ [byte]) := by
  intro i byte' hget hi
  rw [List.getElem?_append] at hget
  split at hget
  · exact h i byte' hget hi
  · rename_i hle
    obtain ⟨hlast, rfl⟩ := List.getElem?_eq_some_iff.mp hget
    have heq : i = data.length := by
      rw [List.length_singleton] at hlast
      omega
    rw [List.getElem_singleton, heq]
    exact hbyte (heq ▸ hi)

/-- A call has copied from the buffer that the device wrote. -/
structure RxCopy.Of (copy : RxCopy) (c : RxCompletion) : Prop where
  desc : copy.desc = c.desc
  source : copy.source = c.addr
  len : copy.len = c.len
  data : c.Shows copy.data

namespace VirtioNetRx

variable {s : VirtioNetRx}

def InPhase (s : VirtioNetRx) (inHand : List RxCompletion) : RecvPhase → Prop
  | .idle => inHand = [] ∧ s.rx.driver = .idle
  | .getting _ => inHand = [] ∧ s.rx.driver = .getting
  | .copying desc len _ data => ∃ c free, inHand = [c] ∧ desc.toNat = c.desc ∧ len = c.len ∧
      s.rx.driver = .idle ∧ s.rx.queue.freeList = c.desc :: free ∧ c.Shows data
  | .adding _ => inHand = [] ∧ s.rx.driver = .adding

/-- `waiting` are the completions that the used ring holds, and `inHand` is the one that a call of
`virtio_net_recv` is copying. -/
structure Receiving (k : Nat) (inHand waiting : List RxCompletion) (s : VirtioNetRx) : Prop where
  owned : ∃ F published L unread pending, Owned k F published L unread pending s.rx ∧
    pending ++ s.rx.completing.toList = waiting.map RxCompletion.desc ∧
      Ring.contents s.rx.queue.usedRing (2 ^ k) L waiting.length = waiting.map RxCompletion.elem
  buffers : (inHand.map RxCompletion.desc ++ (s.rx.inFlight ++ s.rx.uncollected)).Perm
    (List.range virtioNetRxBuffers)
  entries : ∀ d ∈ s.rx.inFlight ++ s.rx.uncollected, s.rx.queue.desc d = rxEntry s.rxBuffers d
  shows : ∀ c ∈ inHand ++ waiting, c.addr = rxBuffer s.rxBuffers c.desc ∧
    ∀ i < virtioNetBufferSize, s.mem (byteAt c.addr i) = c.data i
  copies : ∃ copied, s.completions = copied ++ (inHand ++ waiting) ∧
    List.Forall₂ RxCopy.Of s.received copied
  inPhase : s.InPhase inHand s.phase

theorem Receiving.nodup (h : s.Receiving k inHand waiting) :
    (inHand.map RxCompletion.desc ++ (s.rx.inFlight ++ s.rx.uncollected)).Nodup :=
  h.buffers.nodup_iff.mpr List.nodup_range

theorem Receiving.desc_mem (h : s.Receiving k inHand waiting) {c : RxCompletion}
    (hc : c ∈ inHand ++ waiting) :
    c.desc ∈ inHand.map RxCompletion.desc ++ (s.rx.inFlight ++ s.rx.uncollected) := by
  obtain ⟨F, published, L, unread, pending, howned, hwaiting, -⟩ := h.owned
  rcases List.mem_append.mp hc with hhand | hwait
  · exact List.mem_append_left _ (List.mem_map_of_mem hhand)
  · apply List.mem_append_right
    rw [howned.uncollected_eq, List.mem_append, howned.inFlight.mem_iff]
    have hmem : c.desc ∈ pending ++ s.rx.completing.toList := by
      rw [hwaiting]
      exact List.mem_map_of_mem hwait
    rcases List.mem_append.mp hmem with hpending | hlast
    · exact Or.inr hpending
    · exact Or.inl (by simp [hlast])

theorem Receiving.desc_lt (h : s.Receiving k inHand waiting) {c : RxCompletion}
    (hc : c ∈ inHand ++ waiting) : c.desc < virtioNetRxBuffers :=
  List.mem_range.mp (h.buffers.mem_iff.mp (h.desc_mem hc))

theorem Receiving.fetched_mem (h : s.Receiving k inHand waiting) {d : Nat} (hd : d ∈ s.rx.fetched) :
    d ∈ s.rx.inFlight := by
  obtain ⟨F, published, L, unread, pending, howned, -, -⟩ := h.owned
  rw [howned.inFlight.mem_iff]
  simp [hd]

/-- The device does not work on a buffer that it has handed back. -/
theorem Receiving.desc_ne_fetched (h : s.Receiving k inHand waiting) {c : RxCompletion}
    (hc : c ∈ inHand ++ waiting) {d : Nat} (hd : d ∈ s.rx.fetched) : c.desc ≠ d := by
  obtain ⟨F, published, L, unread, pending, howned, hwaiting, -⟩ := h.owned
  rintro rfl
  rcases List.mem_append.mp hc with hhand | hwait
  · have hdisjoint := (List.nodup_append.mp h.nodup).2.2
    exact hdisjoint _ (List.mem_map_of_mem hhand) _ (List.mem_append_left _ (h.fetched_mem hd)) rfl
  · have hplaces := (List.nodup_append.mp (List.nodup_append.mp howned.nodup).2.1).2.1
    have hdisjoint := (List.nodup_append.mp hplaces).2.2
    refine hdisjoint _ hd _ ?_ rfl
    rw [hwaiting]
    exact List.mem_map_of_mem hwait

theorem Receiving.recv (h : s.Receiving k inHand waiting) (bufSize : BitVec 32) :
    (s.step (.recv bufSize)).Receiving k inHand waiting := by
  by_cases hcall : s.phase = .idle ∧ s.initialized = true ∧ s.rx.queue.hasUsed = true
  · obtain ⟨F, published, L, unread, pending, howned, hwaiting, hring⟩ := h.owned
    have hinPhase := h.inPhase
    rw [hcall.1] at hinPhase
    have htest : s.rx.driver = .idle ∧ s.rx.queue.hasUsed = true := ⟨hinPhase.2, hcall.2.2⟩
    have hstep : s.rx.step .test = { s.rx with driver := .getting } := if_pos htest
    have howned' := howned.test htest
    rw [step, if_pos hcall]
    rw [hstep] at howned' ⊢
    exact
      { h with
        owned := ⟨F, published, L, unread, pending, howned', hwaiting, hring⟩
        inPhase := ⟨hinPhase.1, rfl⟩ }
  · rwa [step, if_neg hcall]

/-- The completion that the driver is given next. -/
theorem Receiving.takeUsed (h : s.Receiving k inHand waiting) (huncollected : s.rx.uncollected ≠ []) :
    ∃ c rest, waiting = c :: rest ∧ s.rx.queue.takeUsed.1 = BitVec.ofNat 32 c.desc ∧
      s.rx.queue.takeUsed.2.1 = c.len := by
  obtain ⟨F, published, L, unread, pending, howned, hwaiting, hring⟩ := h.owned
  rw [howned.uncollected_eq] at huncollected
  obtain ⟨d, rest, rfl⟩ := List.exists_cons_of_ne_nil huncollected
  cases waiting with
  | nil => cases hwaiting
  | cons c waiting =>
      rw [List.length_cons, Ring.contents_cons_counter, List.map_cons, List.cons.injEq] at hring
      have hslot : s.rx.queue.usedRing (s.rx.queue.slot s.rx.queue.lastUsedIdx) = c.elem := by
        rw [howned.lastUsedIdx, howned.slot]
        exact hring.1
      refine ⟨c, waiting, rfl, ?_, ?_⟩
      · exact congrArg VirtqUsedElem.id hslot
      · exact congrArg VirtqUsedElem.len hslot

theorem Receiving.uncollected_ne_nil (h : s.Receiving k inHand waiting)
    (hgetting : s.rx.driver = .getting) : s.rx.uncollected ≠ [] := by
  obtain ⟨F, published, L, unread, pending, howned, -, -⟩ := h.owned
  rw [howned.uncollected_eq]
  exact howned.getting hgetting

theorem Receiving.take_cons {c : RxCompletion} {bufSize : BitVec 32}
    (h : s.Receiving k [] (c :: waiting)) (hgetting : s.rx.driver = .getting)
    (hphase : s.phase = .getting bufSize) : (s.step .take).Receiving k [c] waiting := by
  obtain ⟨F, published, L, unread, pending, howned, hwaiting, hring⟩ := h.owned
  obtain ⟨d, rest, rfl⟩ := List.exists_cons_of_ne_nil (howned.getting hgetting)
  obtain ⟨rfl, hrest⟩ := List.cons.inj hwaiting
  have howned' := howned.take hgetting
  have hlist := howned.freeList_takeUsed
  have hlen : s.rx.queue.takeUsed.2.1 = c.len := by
    obtain ⟨c', _, heq, -, hlen⟩ := h.takeUsed (h.uncollected_ne_nil hgetting)
    rw [hlen, (List.cons.inj heq).1]
  have hlt : c.desc < 16 := h.desc_lt List.mem_cons_self
  have hid : s.rx.queue.takeUsed.1.toNat = c.desc := howned.takeUsed_id
  have hpositive : ¬s.rx.queue.takeUsed.1.toInt < 0 := by
    rw [BitVec.toInt_eq_toNat_of_lt (by omega)]
    omega
  have hbuffers := h.buffers
  have hentries := h.entries
  rw [howned.uncollected_eq] at hbuffers hentries
  have hmoved : (c.desc :: (s.rx.inFlight ++ rest)).Perm (List.range virtioNetRxBuffers) :=
    List.perm_middle.symm.trans hbuffers
  have hnodup := hmoved.nodup_iff.mpr List.nodup_range
  rw [List.length_cons, Ring.contents_cons_counter, List.map_cons, List.cons.injEq] at hring
  have hstep : s.rx.step .take =
      { s.rx with
        queue := s.rx.queue.takeUsed.2.2
        driver := .idle
        collected := s.rx.collected ++ [s.rx.queue.takeUsed.1.toNat]
        usedUnread := Function.update s.rx.usedUnread (s.rx.queue.slot s.rx.queue.lastUsedIdx) false } :=
    if_pos hgetting
  have hsame : ∀ d ∈ s.rx.inFlight ++ rest, s.rx.queue.takeUsed.2.2.desc d = s.rx.queue.desc d := by
    intro d hd
    apply Function.update_of_ne
    rintro rfl
    exact (List.nodup_cons.mp hnodup).1 (hid ▸ hd)
  simp only [step, hphase, if_neg hpositive]
  exact
    { owned := ⟨F, published, L + 1, unread, rest, howned', by rw [hstep]; exact hrest, by
        rw [hstep]
        exact hring.2⟩
      buffers := by
        change ([c.desc] ++ ((s.rx.step .take).inFlight ++ (s.rx.step .take).uncollected)).Perm _
        rw [howned'.uncollected_eq, hstep]
        exact hmoved
      entries := by
        change ∀ d ∈ (s.rx.step .take).inFlight ++ (s.rx.step .take).uncollected,
          (s.rx.step .take).queue.desc d = rxEntry s.rxBuffers d
        rw [howned'.uncollected_eq, hstep]
        intro d hd
        refine (hsame d hd).trans (hentries d ?_)
        rcases List.mem_append.mp hd with hflight | hpending
        · exact List.mem_append_left _ hflight
        · exact List.mem_append_right _ (List.mem_cons_of_mem _ hpending)
      shows := h.shows
      copies := h.copies
      inPhase := by
        refine ⟨c, s.rx.queue.freeList, rfl, hid, hlen, ?_, ?_, ?_⟩
        · rw [hstep]
        · rw [hstep]
          exact hlist
        · intro i byte hbyte
          cases hbyte }

theorem Receiving.take (h : s.Receiving k inHand waiting) :
    ∃ inHand waiting, (s.step .take).Receiving k inHand waiting := by
  cases hphase : s.phase with
  | getting bufSize =>
      have hinPhase := h.inPhase
      rw [hphase] at hinPhase
      obtain ⟨rfl, hgetting⟩ := hinPhase
      obtain ⟨c, rest, rfl, -⟩ := h.takeUsed (h.uncollected_ne_nil hgetting)
      exact ⟨[c], rest, h.take_cons hgetting hphase⟩
  | idle => exact ⟨inHand, waiting, by simpa only [step, hphase] using h⟩
  | copying desc len bufSize data => exact ⟨inHand, waiting, by simpa only [step, hphase] using h⟩
  | adding pktLen => exact ⟨inHand, waiting, by simpa only [step, hphase] using h⟩

theorem Receiving.copy (h : s.Receiving k inHand waiting) :
    (s.step .copy).Receiving k inHand waiting := by
  have hinPhase := h.inPhase
  cases hphase : s.phase with
  | idle => simpa only [step, hphase] using h
  | getting bufSize => simpa only [step, hphase] using h
  | adding pktLen => simpa only [step, hphase] using h
  | copying desc len bufSize data =>
      by_cases hmore : data.length < (recvLen len bufSize).toNat
      · rw [hphase] at hinPhase
        obtain ⟨c, free, rfl, hdesc, hlen, hidle, hfree, hdata⟩ := hinPhase
        obtain ⟨haddr, hmem⟩ := h.shows c List.mem_cons_self
        simp only [step, hphase, if_pos hmore]
        exact
          { h with
            inPhase := by
              refine ⟨c, free, rfl, hdesc, hlen, hidle, hfree, hdata.append fun hroom => ?_⟩
              rw [hdesc, ← haddr, hmem _ hroom] }
      · simpa only [step, hphase, if_neg hmore] using h

/-- The descriptor that was taken is at the head of the free list, and goes back with its buffer. -/
theorem Receiving.add (h : s.Receiving k inHand waiting) :
    ∃ inHand, (s.step .add).Receiving k inHand waiting := by
  have hinPhase := h.inPhase
  cases hphase : s.phase with
  | idle => exact ⟨inHand, by simpa only [step, hphase] using h⟩
  | getting bufSize => exact ⟨inHand, by simpa only [step, hphase] using h⟩
  | adding pktLen => exact ⟨inHand, by simpa only [step, hphase] using h⟩
  | copying desc len bufSize data =>
      by_cases hmore : data.length < (recvLen len bufSize).toNat
      · exact ⟨inHand, by simpa only [step, hphase, if_pos hmore] using h⟩
      · rw [hphase] at hinPhase
        obtain ⟨c, free, rfl, hdesc, hlen, hidle, hfree, hdata⟩ := hinPhase
        obtain ⟨F, published, L, unread, pending, howned, hwaiting, hring⟩ := h.owned
        obtain ⟨haddr, -⟩ := h.shows c List.mem_cons_self
        have hroom : s.rx.queue.numFree ≠ 0 := by
          intro hzero
          rw [Virtqueue.freeList, hzero] at hfree
          cases hfree
        have hhead : s.rx.queue.freeHead.toNat = c.desc := by
          rw [freeList_cons hroom] at hfree
          exact (List.cons.inj hfree).1
        have hstep := VirtqSystem.step_add hidle hroom (rxBuffer s.rxBuffers desc.toNat)
          (BitVec.ofNat 32 virtioNetBufferSize) virtqDescFWrite
        obtain ⟨unread', howned'⟩ := howned.add hidle (rxBuffer s.rxBuffers desc.toNat)
          (BitVec.ofNat 32 virtioNetBufferSize) virtqDescFWrite
        have huncollected := howned'.uncollected_eq
        have hbuffers := h.buffers
        have hentries := h.entries
        rw [howned.uncollected_eq] at hbuffers hentries
        obtain ⟨copied, hcompletions, hcopied⟩ := h.copies
        refine ⟨[], ?_⟩
        simp only [step, hphase, if_neg hmore]
        rw [hstep] at howned' huncollected ⊢
        exact
          { owned := ⟨F, published, L, unread', pending, howned', hwaiting, hring⟩
            buffers := by
              rw [huncollected, hhead, List.append_assoc]
              exact List.perm_middle.trans hbuffers
            entries := by
              rw [huncollected, hhead, hdesc]
              intro d hd
              by_cases heq : d = c.desc
              · rw [heq]
                exact Function.update_self ..
              · refine (Function.update_of_ne heq ..).trans (hentries d ?_)
                simpa [heq] using hd
            shows := fun c' hc' => h.shows c' (List.mem_cons_of_mem _ hc')
            copies := by
              refine ⟨copied ++ [c], ?_, ?_⟩
              · rw [List.append_assoc]
                exact hcompletions
              · have hlast : RxCopy.Of ⟨desc.toNat, rxBuffer s.rxBuffers desc.toNat, len, data⟩ c :=
                  ⟨hdesc, by rw [hdesc, haddr], hlen, hdata⟩
                exact List.rel_append hcopied (List.Forall₂.cons hlast List.Forall₂.nil)
            inPhase := ⟨rfl, rfl⟩ }

theorem Receiving.publish (h : s.Receiving k inHand waiting) :
    (s.step .publish).Receiving k inHand waiting := by
  have hinPhase := h.inPhase
  cases hphase : s.phase with
  | idle => simpa only [step, hphase] using h
  | getting bufSize => simpa only [step, hphase] using h
  | copying desc len bufSize data => simpa only [step, hphase] using h
  | adding pktLen =>
      rw [hphase] at hinPhase
      obtain ⟨rfl, hadding⟩ := hinPhase
      obtain ⟨F, published, L, unread, pending, howned, hwaiting, hring⟩ := h.owned
      have howned' := howned.publish hadding
      have hstep : s.rx.step .publish =
          { s.rx with queue := s.rx.queue.publish, driver := .idle } := if_pos hadding
      simp only [step, hphase]
      rw [hstep] at howned' ⊢
      exact
        { owned := ⟨F, published + 1, L, unread, pending, howned', hwaiting, hring⟩
          buffers := h.buffers
          entries := h.entries
          shows := h.shows
          copies := h.copies
          inPhase := ⟨rfl, rfl⟩ }

/-- A step that the driver does not notice. -/
theorem InPhase.device {s' : VirtioNetRx} {phase : RecvPhase} (h : s.InPhase inHand phase)
    (hdriver : s'.rx.driver = s.rx.driver) (hfree : s'.rx.queue.freeList = s.rx.queue.freeList) :
    s'.InPhase inHand phase := by
  cases phase with
  | idle => exact ⟨h.1, hdriver.trans h.2⟩
  | getting bufSize => exact ⟨h.1, hdriver.trans h.2⟩
  | copying desc len bufSize data =>
      obtain ⟨c, free, hhand, hdesc, hlen, hidle, hlist, hdata⟩ := h
      exact ⟨c, free, hhand, hdesc, hlen, hdriver.trans hidle, hfree.trans hlist, hdata⟩
  | adding pktLen => exact ⟨h.1, hdriver.trans h.2⟩

theorem Receiving.fetch (h : s.Receiving k inHand waiting) :
    (s.step .fetch).Receiving k inHand waiting := by
  obtain ⟨F, published, L, unread, pending, howned, hwaiting, hring⟩ := h.owned
  by_cases hfetch : s.rx.lastAvailIdx ≠ s.rx.queue.availIdx
  · have hlength := howned.length_unread
    obtain ⟨published, rfl⟩ := Nat.exists_eq_succ_of_ne_zero (howned.fetch_iff.mp hfetch)
    have hne : unread ≠ [] := List.ne_nil_of_length_pos (by omega)
    obtain ⟨d, rest, rfl⟩ := List.exists_cons_of_ne_nil hne
    have howned' := howned.fetch
    have hstep : s.rx.step .fetch =
        { s.rx with
          lastAvailIdx := s.rx.lastAvailIdx + 1
          fetched :=
            s.rx.fetched ++ [(s.rx.queue.availRing (s.rx.queue.slot s.rx.lastAvailIdx)).toNat]
          availUnread :=
            Function.update s.rx.availUnread (s.rx.queue.slot s.rx.lastAvailIdx) false } :=
      if_pos hfetch
    simp only [step]
    rw [hstep] at howned' ⊢
    exact
      { owned := ⟨F + 1, published, L, rest, pending, howned', hwaiting, hring⟩
        buffers := h.buffers
        entries := h.entries
        shows := h.shows
        copies := h.copies
        inPhase := h.inPhase.device rfl rfl }
  · have hsame : s.step .fetch = s := by
      have hstep : s.rx.step .fetch = s.rx := if_neg hfetch
      simp only [step, hstep]
    rwa [hsame]

theorem Receiving.write (h : s.Receiving k inHand waiting) (i offset : Nat) (value : BitVec 8) :
    (s.step (.write i offset value)).Receiving k inHand waiting := by
  cases hd : s.rx.fetched[i]? with
  | none => simpa only [step, hd] using h
  | some d =>
      by_cases hoffset : offset < (s.rx.queue.desc d).len.toNat
      · simp only [step, hd, if_pos hoffset]
        have hmem := List.mem_of_getElem? hd
        have hflight := h.fetched_mem hmem
        have hentry := h.entries d (List.mem_append_left _ hflight)
        have hlt : d < virtioNetRxBuffers := by
          have hall := List.mem_append_right (inHand.map RxCompletion.desc)
            (List.mem_append_left s.rx.uncollected hflight)
          exact List.mem_range.mp (h.buffers.mem_iff.mp hall)
        rw [hentry] at hoffset ⊢
        exact
          { h with
            shows := by
              intro c hc
              obtain ⟨haddr, hshows⟩ := h.shows c hc
              refine ⟨haddr, fun j hj => ?_⟩
              have hne := VirtioNet.byteAt_array_ne s.rxBuffers (h.desc_lt hc) hlt
                (h.desc_ne_fetched hc hmem) hj hoffset
              rw [← hshows j hj, haddr]
              exact Function.update_of_ne hne ..
            inPhase := h.inPhase.device rfl rfl }
      · simpa only [step, hd, if_neg hoffset] using h

theorem Receiving.complete (h : s.Receiving k inHand waiting) {i d : Nat} (len : BitVec 32)
    (hnone : s.rx.completing = none) (hd : s.rx.fetched[i]? = some d) :
    (s.step (.complete i len)).Receiving k inHand (waiting ++
      [⟨d, (s.rx.queue.desc d).addr, len,
        fun j => s.mem (byteAt (s.rx.queue.desc d).addr j)⟩]) := by
  obtain ⟨F, published, L, unread, pending, howned, hwaiting, hring⟩ := h.owned
  have howned' := howned.complete hnone hd len
  have hflight := h.fetched_mem (List.mem_of_getElem? hd)
  have hentry := h.entries d (List.mem_append_left _ hflight)
  have hlast : pending = waiting.map RxCompletion.desc := by
    rw [← hwaiting, hnone, Option.toList_none, List.append_nil]
  have hlength : pending.length = waiting.length := by rw [hlast, List.length_map]
  have hroom : waiting.length < 2 ^ k := by
    have htotal := howned.total
    have hpos : 0 < s.rx.fetched.length := List.length_pos_of_mem (List.mem_of_getElem? hd)
    rw [List.length_append] at htotal
    omega
  have hstep : s.rx.step (.complete i len) =
      { s.rx with
        queue :=
          { s.rx.queue with
            usedRing := Function.update s.rx.queue.usedRing (s.rx.queue.slot s.rx.queue.usedIdx)
              ⟨BitVec.ofNat 32 d, len⟩ }
        fetched := s.rx.fetched.eraseIdx i
        completing := some d
        usedUnread := Function.update s.rx.usedUnread (s.rx.queue.slot s.rx.queue.usedIdx) true
        overwritten := s.rx.overwritten || s.rx.usedUnread (s.rx.queue.slot s.rx.queue.usedIdx) } := by
    simp only [VirtqSystem.step, hnone, hd]
  obtain ⟨copied, hcompletions, hcopied⟩ := h.copies
  simp only [step, hnone, hd]
  rw [hstep] at howned' ⊢
  exact
    { owned := by
        refine ⟨F, published, L, unread, pending, howned', ?_, ?_⟩
        · rw [List.map_append, ← hlast]
          rfl
        · have hslot : s.rx.queue.slot s.rx.queue.usedIdx = (L + waiting.length) % 2 ^ k := by
            rw [howned.usedIdx, howned.slot, hlength]
          rw [List.length_append, List.length_singleton, List.map_append, hslot,
            Ring.contents_push hroom, hring]
          rfl
      buffers := h.buffers
      entries := h.entries
      shows := by
        rw [← List.append_assoc]
        refine List.forall_mem_append.mpr ⟨h.shows, List.forall_mem_singleton.mpr ⟨?_, fun _ _ => rfl⟩⟩
        rw [hentry]
        rfl
      copies := ⟨copied, by rw [hcompletions]; simp only [List.append_assoc], hcopied⟩
      inPhase := h.inPhase.device rfl rfl }

theorem Receiving.count (h : s.Receiving k inHand waiting) :
    (s.step .count).Receiving k inHand waiting := by
  cases hd : s.rx.completing with
  | none =>
      have hsame : s.step .count = s := by
        have hstep : s.rx.step .count = s.rx := by simp only [VirtqSystem.step, hd]
        simp only [step, hstep]
      rwa [hsame]
  | some d =>
      obtain ⟨F, published, L, unread, pending, howned, hwaiting, hring⟩ := h.owned
      have howned' := howned.count hd
      have hstep : s.rx.step .count =
          { s.rx with
            queue := { s.rx.queue with usedIdx := s.rx.queue.usedIdx + 1 }
            completing := none
            inFlight := s.rx.inFlight.erase d
            completed := s.rx.completed ++ [d] } := by
        simp only [VirtqSystem.step, hd]
      have hflight : d ∈ s.rx.inFlight := by
        rw [howned.inFlight.mem_iff, hd]
        simp
      have hbuffers := h.buffers
      have hentries := h.entries
      rw [howned.uncollected_eq] at hbuffers hentries
      have hmoved : (s.rx.inFlight.erase d ++ (pending ++ [d])).Perm (s.rx.inFlight ++ pending) := by
        rw [← List.append_assoc]
        exact (List.perm_append_singleton d _).trans
          ((List.perm_cons_erase hflight).symm.append_right pending)
      exact
        { owned := by
            refine ⟨F, published, L, unread, pending ++ [d], howned', ?_, ?_⟩
            · change pending ++ [d] ++ (s.rx.step .count).completing.toList = _
              rw [← hwaiting, hd, hstep]
              exact List.append_nil _
            · change Ring.contents (s.rx.step .count).queue.usedRing _ _ _ = _
              rw [hstep]
              exact hring
          buffers := by
            change (inHand.map RxCompletion.desc ++
              ((s.rx.step .count).inFlight ++ (s.rx.step .count).uncollected)).Perm _
            rw [howned'.uncollected_eq, hstep]
            exact (hmoved.append_left _).trans hbuffers
          entries := by
            change ∀ d ∈ (s.rx.step .count).inFlight ++ (s.rx.step .count).uncollected,
              (s.rx.step .count).queue.desc d = rxEntry s.rxBuffers d
            rw [howned'.uncollected_eq, hstep]
            exact fun d' hd' => hentries d' (hmoved.mem_iff.mp hd')
          shows := h.shows
          copies := h.copies
          inPhase := by
            refine h.inPhase.device ?_ ?_
            · change (s.rx.step .count).driver = _
              rw [hstep]
            · change (s.rx.step .count).queue.freeList = _
              rw [hstep]
              rfl }

/-- The first `n` descriptors are posted, and nothing has been completed. -/
structure Filled (k : Nat) (rxBuffers : BitVec 64) (n : Nat) (rx : VirtqSystem) : Prop where
  owned : ∃ F published L unread, Owned k F published L unread [] rx
  driver : rx.driver = .idle
  completing : rx.completing = none
  inFlight : rx.inFlight = List.range n
  freeList : rx.queue.freeList = List.range' n (2 ^ k - n)
  entries : ∀ d < n, rx.queue.desc d = rxEntry rxBuffers d

theorem Filled.post {rxBuffers : BitVec 64} {n : Nat} {rx : VirtqSystem} (h : Filled k rxBuffers n rx)
    (hn : n < 2 ^ k) : Filled k rxBuffers (n + 1)
      ((rx.step (.add (rxBuffer rxBuffers n) (BitVec.ofNat 32 virtioNetBufferSize)
        virtqDescFWrite)).step .publish) := by
  obtain ⟨F, published, L, unread, howned⟩ := h.owned
  obtain ⟨m, hm⟩ : ∃ m, 2 ^ k - n = m + 1 := ⟨2 ^ k - n - 1, by omega⟩
  have hfree := h.freeList
  rw [hm, List.range'_succ] at hfree
  have hroom : rx.queue.numFree ≠ 0 := by
    intro hzero
    rw [Virtqueue.freeList, hzero] at hfree
    cases hfree
  have hhead : rx.queue.freeHead.toNat = n := by
    rw [freeList_cons hroom] at hfree
    exact (List.cons.inj hfree).1
  have hlist := VirtqSystem.freeList_step_add h.driver hroom (List.nodup_append.mp howned.nodup).1
    (rxBuffer rxBuffers n) (BitVec.ofNat 32 virtioNetBufferSize) virtqDescFWrite
  have hstep := VirtqSystem.step_add h.driver hroom (rxBuffer rxBuffers n)
    (BitVec.ofNat 32 virtioNetBufferSize) virtqDescFWrite
  obtain ⟨unread', howned'⟩ := howned.add h.driver (rxBuffer rxBuffers n)
    (BitVec.ofNat 32 virtioNetBufferSize) virtqDescFWrite
  have hpublished := howned'.publish (by rw [hstep])
  rw [hfree, List.tail_cons] at hlist
  rw [hstep] at hpublished hlist ⊢
  exact
    { owned := ⟨F, published + 1, L, unread', hpublished⟩
      driver := rfl
      completing := h.completing
      inFlight := by
        change rx.inFlight ++ [rx.queue.freeHead.toNat] = _
        rw [h.inFlight, hhead, List.range_succ]
      freeList := by
        refine Eq.trans hlist ?_
        rw [show 2 ^ k - (n + 1) = m by omega]
      entries := by
        change ∀ d < n + 1, Function.update rx.queue.desc rx.queue.freeHead.toNat
          (rxEntry rxBuffers n) d = _
        intro d hd
        rw [hhead]
        by_cases heq : d = n
        · rw [heq, Function.update_self]
        · rw [Function.update_of_ne heq, h.entries d (by omega)] }

theorem filled_post {size : BitVec 16} (mem : Virtqueue) (hsize : size.toNat = 2 ^ k)
    (rxBuffers : BitVec 64) {n : Nat} (hn : n ≤ 2 ^ k) : Filled k rxBuffers n
      ((VirtqSystem.start (Virtqueue.virtqInit mem size)).run (post rxBuffers n)) := by
  induction n with
  | zero =>
      exact
        { owned := ⟨0, 0, 0, [], Owned.start mem hsize⟩
          driver := rfl
          completing := rfl
          inFlight := rfl
          freeList := by
            change (Virtqueue.virtqInit mem size).freeList = _
            rw [freeList_virtqInit, hsize, List.range_eq_range', Nat.sub_zero]
          entries := fun d hd => absurd hd (Nat.not_lt_zero d) }
  | succ n ih =>
      have hpost := (ih (by omega)).post (by omega)
      rwa [VirtioNetRx.post, List.range_succ, List.flatMap_append, VirtqSystem.run, List.foldl_append]

theorem Receiving.of_filled (h : Filled k s.rxBuffers virtioNetRxBuffers s.rx)
    (hidle : s.phase = .idle) (hcompletions : s.completions = []) (hreceived : s.received = []) :
    s.Receiving k [] [] := by
  obtain ⟨F, published, L, unread, howned⟩ := h.owned
  have hbuffers : s.rx.inFlight ++ s.rx.uncollected = List.range virtioNetRxBuffers := by
    rw [howned.uncollected_eq, List.append_nil, h.inFlight]
  exact
    { owned := ⟨F, published, L, unread, [], howned, by rw [h.completing]; rfl, rfl⟩
      buffers := List.Perm.of_eq hbuffers
      entries := by
        rw [hbuffers]
        exact fun d hd => h.entries d (List.mem_range.mp hd)
      shows := fun c hc => by cases hc
      copies := ⟨[], hcompletions, hreceived ▸ List.Forall₂.nil⟩
      inPhase := by
        rw [hidle]
        exact ⟨rfl, h.driver⟩ }

theorem Receiving.step (h : s.Receiving k inHand waiting) (event : RecvEvent) :
    ∃ inHand waiting, (s.step event).Receiving k inHand waiting := by
  cases event with
  | recv bufSize => exact ⟨inHand, waiting, h.recv bufSize⟩
  | take => exact h.take
  | copy => exact ⟨inHand, waiting, h.copy⟩
  | add =>
      obtain ⟨inHand', h'⟩ := h.add
      exact ⟨inHand', waiting, h'⟩
  | publish => exact ⟨inHand, waiting, h.publish⟩
  | fetch => exact ⟨inHand, waiting, h.fetch⟩
  | write i offset value => exact ⟨inHand, waiting, h.write i offset value⟩
  | complete i len =>
      cases hcompleting : s.rx.completing with
      | some d => exact ⟨inHand, waiting, by simpa only [VirtioNetRx.step, hcompleting] using h⟩
      | none =>
          cases hd : s.rx.fetched[i]? with
          | none => exact ⟨inHand, waiting, by simpa only [VirtioNetRx.step, hcompleting, hd] using h⟩
          | some d => exact ⟨inHand, _, h.complete len hcompleting hd⟩
  | count => exact ⟨inHand, waiting, h.count⟩

theorem Receiving.run (h : s.Receiving k inHand waiting) (events : List RecvEvent) :
    ∃ inHand waiting, (s.run events).Receiving k inHand waiting := by
  induction events generalizing s inHand waiting with
  | nil => exact ⟨inHand, waiting, h⟩
  | cons event events ih =>
      obtain ⟨_, _, h'⟩ := h.step event
      exact ih h'

end VirtioNetRx

end SimpleOs
