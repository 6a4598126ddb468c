import SimpleOs.Drivers.VirtioNetInit
import SimpleOs.Proof.TxBuffers

/-!
# The supply of transmit descriptors

A frame that `virtio_net_send` accepts takes a descriptor, and nothing gives it back: `virtq_get_used` is
not called on the transmit queue. A queue with `n` free descriptors carries `n - 1` frames, however soon
the device is done with them. `virtio_net_init` does not set the queue up, and the static queue has none.
-/

namespace SimpleOs

variable {s : VirtioNet} {data : List (BitVec 8)}

def NetEvent.byDevice : NetEvent → Bool
  | .fetch | .complete _ _ | .count => true
  | _ => false

/-- A call of `virtio_net_send`, and what the device does before the next one. -/
structure SendCall where
  data : List (BitVec 8)
  device : List NetEvent

namespace VirtioNet

def afterCall (s : VirtioNet) (call : SendCall) : VirtioNet :=
  (s.run (sendEvents call.data)).run call.device

def afterCalls (s : VirtioNet) (calls : List SendCall) : VirtioNet := calls.foldl afterCall s

/-- What the calls return. -/
def results : VirtioNet → List SendCall → List Int
  | _, [] => []
  | s, call :: calls => s.sendResult call.data :: results (s.afterCall call) calls

/-- No frame is too long, and after each call the device completes every descriptor that is outstanding. -/
def Served : VirtioNet → List SendCall → Prop
  | _, [] => True
  | s, call :: calls =>
      call.data.length ≤ ethFrameLen ∧ (∀ event ∈ call.device, event.byDevice = true) ∧
        (s.afterCall call).outstanding = [] ∧ Served (s.afterCall call) calls

structure NeverWedges (s : VirtioNet) (calls : List SendCall) : Prop where
  results : ∀ result ∈ s.results calls, result ≠ -3
  available : ∀ d ∈ (s.afterCalls calls).tx.completed, d ∈ (s.afterCalls calls).tx.queue.freeList

/-- Between two calls of the driver, which is up. -/
structure Resting (s : VirtioNet) : Prop where
  phase : s.phase = .idle
  driver : s.tx.driver = .idle
  initialized : s.initialized = true

theorem run_append (events events' : List NetEvent) :
    s.run (events ++ events') = (s.run events).run events' := List.foldl_append

theorem step_of_byDevice {event : NetEvent} (hdevice : event.byDevice = true) :
    (s.step event).phase = s.phase ∧ (s.step event).initialized = s.initialized ∧
      (s.step event).tx.driver = s.tx.driver ∧
        (s.step event).tx.queue.numFree = s.tx.queue.numFree := by
  cases event with
  | send data => cases hdevice
  | store => cases hdevice
  | add => cases hdevice
  | publish => cases hdevice
  | fetch =>
      refine ⟨rfl, rfl, ?_⟩
      simp only [step, VirtqSystem.step]
      split <;> exact ⟨rfl, rfl⟩
  | complete i len =>
      refine ⟨rfl, rfl, ?_⟩
      simp only [step, VirtqSystem.step]
      split <;> exact ⟨rfl, rfl⟩
  | count =>
      refine ⟨rfl, rfl, ?_⟩
      simp only [step, VirtqSystem.step]
      split <;> exact ⟨rfl, rfl⟩

/-- The device takes no descriptor, and gives none back. -/
theorem Resting.device (h : s.Resting) {events : List NetEvent}
    (hdevice : ∀ event ∈ events, event.byDevice = true) :
    (s.run events).Resting ∧ (s.run events).tx.queue.numFree = s.tx.queue.numFree := by
  induction events generalizing s with
  | nil => exact ⟨h, rfl⟩
  | cons event events ih =>
      obtain ⟨hfirst, hrest⟩ := List.forall_mem_cons.mp hdevice
      obtain ⟨hphase, hinitialized, hdriver, hnumFree⟩ := step_of_byDevice (s := s) hfirst
      have hresting : (s.step event).Resting :=
        ⟨hphase.trans h.phase, hdriver.trans h.driver, hinitialized.trans h.initialized⟩
      obtain ⟨hresting', hnumFree'⟩ := ih hresting hrest
      exact ⟨hresting', hnumFree'.trans hnumFree⟩

theorem Resting.sendResult (h : s.Resting) (hlen : data.length ≤ ethFrameLen) :
    s.sendResult data = if s.tx.queue.numFree.toNat < 2 then -3 else 0 := by
  rw [VirtioNet.sendResult, h.initialized, if_neg Bool.noConfusion, if_neg (not_lt.mpr hlen)]

/-- A call that fails its checks does nothing. -/
theorem Resting.run_of_rejected (h : s.Resting) (hrejected : ¬s.accepts data) :
    s.run (sendEvents data) = s := by
  have hsend : s.step (.send data) = s := if_neg hrejected
  have hstore : s.step .store = s := by simp only [step, h.phase]
  have hadd : s.step .add = s := by simp only [step, h.phase]
  have hpublish : s.step .publish = s := by simp only [step, h.phase]
  have hstores (n : Nat) : s.run (List.replicate n .store) = s := by
    induction n with
    | zero => rfl
    | succ n ih => rwa [List.replicate_succ, run, List.foldl_cons, hstore]
  change (s.step (.send data)).run _ = s
  rw [hsend, run_append, hstores]
  change (s.step .add).step .publish = s
  rw [hadd, hpublish]

theorem run_stores {buffer : Nat} {stores : List (Nat × BitVec 8)}
    (hphase : s.phase = .filling buffer data stores) :
    ∃ mem, s.run (List.replicate stores.length .store) =
      { s with mem := mem, phase := .filling buffer data [] } := by
  induction stores generalizing s with
  | nil =>
      refine ⟨s.mem, ?_⟩
      rw [← hphase]
      rfl
  | cons st stores ih =>
      have hstep : s.step .store =
          { s with
            mem := Function.update s.mem (byteAt (s.bufferAddr buffer) st.1) st.2
            phase := .filling buffer data stores } := by
        simp only [step, hphase]
      obtain ⟨mem, hrun⟩ := ih (s := s.step .store) (by rw [hstep])
      refine ⟨mem, ?_⟩
      change (s.step .store).run (List.replicate stores.length .store) = _
      rw [hrun, hstep]

/-- A call that gets past its checks takes a descriptor. -/
theorem Resting.run_of_accepted (h : s.Resting) (haccepts : s.accepts data) :
    (s.run (sendEvents data)).Resting ∧
      (s.run (sendEvents data)).tx.queue.numFree = s.tx.queue.numFree - 1 := by
  have hlength : (sendStores data).length = 10 + data.length := by simp [sendStores]
  have hroom : s.tx.queue.numFree ≠ 0 := by
    intro hzero
    have hresult := haccepts.2
    rw [VirtioNet.sendResult, hzero] at hresult
    split_ifs at hresult
    · contradiction
  have hfilling : (s.step (.send data)).phase = .filling s.txBufIdx data (sendStores data) := by
    rw [step, if_pos haccepts]
  obtain ⟨mem, hfilled⟩ := run_stores hfilling
  have hrun : s.run (sendEvents data) =
      (((s.step (.send data)).run (List.replicate (10 + data.length) .store)).step .add).step
        .publish := by
    change (s.step (.send data)).run _ = _
    rw [run_append]
    rfl
  have hsent : s.step (.send data) =
      { s with
        txBufIdx := (s.txBufIdx + 1) % virtioNetTxBuffers
        phase := .filling s.txBufIdx data (sendStores data) } := if_pos haccepts
  rw [hrun, ← hlength, hfilled, hsent]
  simp only [step, VirtqSystem.step_add h.driver hroom]
  exact ⟨⟨rfl, rfl, h.initialized⟩, rfl⟩

theorem Resting.afterCall (h : s.Resting) {call : SendCall}
    (hlen : call.data.length ≤ ethFrameLen) (hdevice : ∀ event ∈ call.device, event.byDevice = true) :
    (s.afterCall call).Resting ∧ (s.afterCall call).tx.queue.numFree.toNat =
      if s.tx.queue.numFree.toNat < 2 then s.tx.queue.numFree.toNat
      else s.tx.queue.numFree.toNat - 1 := by
  have hresult := h.sendResult hlen
  by_cases hroom : s.tx.queue.numFree.toNat < 2
  · have hrejected : ¬s.accepts call.data := by
      rintro ⟨-, hzero⟩
      rw [hresult, if_pos hroom] at hzero
      exact absurd hzero (by decide)
    have hrest := h.device hdevice
    rw [if_pos hroom, VirtioNet.afterCall, h.run_of_rejected hrejected]
    exact ⟨hrest.1, congrArg BitVec.toNat hrest.2⟩
  · have haccepts : s.accepts call.data := ⟨h.phase, by rw [hresult, if_neg hroom]⟩
    obtain ⟨hresting, hnumFree⟩ := h.run_of_accepted haccepts
    obtain ⟨hresting', hnumFree'⟩ := hresting.device hdevice
    have hone : 1 ≤ s.tx.queue.numFree := by
      rw [BitVec.le_def]
      exact le_trans (by decide) (not_lt.mp hroom)
    rw [if_neg hroom]
    refine ⟨hresting', ?_⟩
    rw [VirtioNet.afterCall, hnumFree', hnumFree, BitVec.toNat_sub_of_le hone]
    rfl

/-- **Supply.** All but one of the descriptors that are free at the start carry a frame each; every call
after that is turned away. -/
theorem Resting.results_eq {calls : List SendCall} (h : s.Resting) (hserved : s.Served calls) :
    s.results calls = (List.range calls.length).map fun i =>
      if s.tx.queue.numFree.toNat < i + 2 then -3 else 0 := by
  induction calls generalizing s with
  | nil => rfl
  | cons call calls ih =>
      obtain ⟨hlen, hdevice, -, hrest⟩ := hserved
      obtain ⟨hresting, hnumFree⟩ := h.afterCall hlen hdevice
      rw [results, h.sendResult hlen, ih hresting hrest, hnumFree, List.length_cons,
        List.range_succ_eq_map, List.map_cons, List.map_map]
      congr 1
      apply List.map_congr_left
      intro i _
      have hnext : (if s.tx.queue.numFree.toNat < 2 then s.tx.queue.numFree.toNat
          else s.tx.queue.numFree.toNat - 1) < i + 2 ↔ s.tx.queue.numFree.toNat < i + 1 + 2 := by
        split <;> omega
      rw [Function.comp, Nat.succ_eq_add_one]
      simp only [hnext]

end VirtioNet

namespace VirtioNetDevice

open Ported

variable {devices : List PciDevice} {memory : Virtqueue} {txBuffers : BitVec 64} {mem : ByteMemory}
  {ports : Ports} {log : List PortAccess} {dev : VirtioNetDevice}

theorem resting_of_virtioNetInit
    (hinit : (virtioNetInit devices (boot memory txBuffers mem)).value ports log = (0, dev)) :
    dev.Resting ∧ dev.tx.queue.numFree = 0 := by
  have hsame := always_virtioNetInit devices (boot memory txBuffers mem) ports log
  rw [hinit] at hsame
  change dev.toVirtioNet = _ at hsame
  rw [hsame]
  exact ⟨⟨rfl, rfl, rfl⟩, rfl⟩

/-- The card that `virtio_net_init` has set up never sends: the first call is turned away. -/
theorem neverWedges_iff
    (hinit : (virtioNetInit devices (boot memory txBuffers mem)).value ports log = (0, dev))
    {calls : List SendCall} (hserved : dev.Served calls) :
    dev.NeverWedges calls ↔ calls = [] := by
  obtain ⟨hresting, hnumFree⟩ := resting_of_virtioNetInit hinit
  constructor
  · intro hwedges
    by_contra hne
    have hlen : 0 < calls.length := List.length_pos_iff.mpr hne
    refine hwedges.results (-3) ?_ rfl
    rw [hresting.results_eq hserved, hnumFree]
    exact List.mem_map.mpr ⟨0, List.mem_range.mpr hlen, rfl⟩
  · rintro rfl
    have hsame := always_virtioNetInit devices (boot memory txBuffers mem) ports log
    rw [hinit] at hsame
    change dev.toVirtioNet = _ at hsame
    refine ⟨fun _ hresult => (by cases hresult), fun d hd => ?_⟩
    change d ∈ dev.tx.completed at hd
    rw [hsame] at hd
    cases hd

/-- A machine with one card, at port 0xC000, that answers 0 to everything. -/
def sampleCard : PciDevice := ⟨0, 3, 0, pciVendorRedhat, pciDeviceVirtioNet, fun _ => 0xC001⟩

def sampleDevice : VirtioNetDevice :=
  ((virtioNetInit [sampleCard] (boot VirtqSystem.sampleMemory 0x200000 ByteMemory.zero)).value
    (fun _ => 0) []).2

theorem virtioNetInit_sampleCard :
    (virtioNetInit [sampleCard] (boot VirtqSystem.sampleMemory 0x200000 ByteMemory.zero)).value
      (fun _ => 0) [] = (0, sampleDevice) := Prod.ext (by decide) rfl

/-- One frame, and nothing for the device to complete. -/
def oneCall : List SendCall := [⟨[1], []⟩]

theorem served_oneCall : sampleDevice.Served oneCall :=
  ⟨by decide, fun _ hevent => (by cases hevent), by decide, trivial⟩

theorem neverWedges_iff_oneCall : sampleDevice.NeverWedges oneCall ↔ oneCall = [] :=
  neverWedges_iff virtioNetInit_sampleCard served_oneCall

theorem not_neverWedges_oneCall :
    ¬∀ (devices : List PciDevice) (memory : Virtqueue) (txBuffers : BitVec 64) (mem : ByteMemory)
      (ports : Ports) (log : List PortAccess) (dev : VirtioNetDevice) (calls : List SendCall),
      (virtioNetInit devices (boot memory txBuffers mem)).value ports log = (0, dev) →
        dev.Served calls → dev.NeverWedges calls := by
  intro h
  have hwedges := h _ _ _ _ _ _ _ _ virtioNetInit_sampleCard served_oneCall
  exact hwedges.results (-3) (by decide) rfl

end VirtioNetDevice

end SimpleOs
