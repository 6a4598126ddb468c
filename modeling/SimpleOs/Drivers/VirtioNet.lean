import SimpleOs.Lib.ByteMemory
import SimpleOs.Net.Packet
import SimpleOs.Drivers.Virtqueue

/-!
# Sending frames

`virtio_net_send` of `kernel/virtio_net.h`, store by store, on a queue that the device works on at the
same time. It takes a buffer, fills it, and hands it to the queue; the buffers are used in turn.
-/

namespace SimpleOs

def virtioNetTxBuffers : Nat := 16
def virtioNetBufferSize : Nat := 2048

/-- `sizeof(virtio_net_hdr_t)`. -/
def virtioNetHdrSize : Nat := 12

/-- The stores of `virtio_net_send` into its buffer, by offset: the fields of the header up to
`csum_offset`, which are all 0, and the frame. `num_buffers` is not written. -/
def sendStores (data : List (BitVec 8)) : List (Nat × BitVec 8) :=
  (List.range 10).map (fun i => (i, 0)) ++
    (List.range data.length).map fun i => (virtioNetHdrSize + i, data.getD i 0)

/-- Where a call of `virtio_net_send` is. -/
inductive SendPhase where
  | idle
  /-- The buffer has been taken, and these stores are still to be made. -/
  | filling (buffer : Nat) (data : List (BitVec 8)) (stores : List (Nat × BitVec 8))
  /-- In `virtq_add_buffer`, before the descriptor is counted as available. -/
  | adding (data : List (BitVec 8))
deriving Repr, DecidableEq

/-- A frame that was handed to the queue. -/
structure Transmission where
  desc : Nat
  buffer : Nat
  data : List (BitVec 8)
deriving Repr, DecidableEq

/-- The state of the driver with its transmit queue and memory, and the frames whose descriptors are not
completed. `txBuffers` is the address of `dev->tx_buffers`. -/
structure VirtioNet where
  initialized : Bool
  tx : VirtqSystem
  txBuffers : BitVec 64
  txBufIdx : Nat
  mem : ByteMemory
  packetsTx : BitVec 64
  bytesTx : BitVec 64
  phase : SendPhase
  outstanding : List Transmission

inductive NetEvent where
  | send (data : List (BitVec 8))
  | store
  | add
  | publish
  /-- Steps of the device. -/
  | fetch
  | complete (i : Nat) (len : BitVec 32)
  | count
deriving Repr, DecidableEq

namespace VirtioNet

def bufferAddr (s : VirtioNet) (buffer : Nat) : BitVec 64 :=
  s.txBuffers + BitVec.ofNat 64 (virtioNetBufferSize * buffer)

/-- The byte at an offset from an address. -/
def byteAt (addr : BitVec 64) (offset : Nat) : Nat := (addr.toNat + offset) % 2 ^ 64

/-- What `virtio_net_send` returns. -/
def sendResult (s : VirtioNet) (data : List (BitVec 8)) : Int :=
  if s.initialized = false then -1
  else if data.length > ethFrameLen then -2
  else if s.tx.queue.numFree.toNat < 2 then -3
  else 0

/-- A call that gets past its checks. -/
def accepts (s : VirtioNet) (data : List (BitVec 8)) : Prop :=
  s.phase = .idle ∧ s.sendResult data = 0

instance (s : VirtioNet) (data : List (BitVec 8)) : Decidable (s.accepts data) :=
  inferInstanceAs (Decidable (_ ∧ _))

def step (s : VirtioNet) : NetEvent → VirtioNet
  | .send data =>
      if s.accepts data then
        { s with
          txBufIdx := (s.txBufIdx + 1) % virtioNetTxBuffers
          phase := .filling s.txBufIdx data (sendStores data) }
      else s
  | .store =>
      match s.phase with
      | .filling buffer data ((offset, value) :: stores) =>
          { s with
            mem := Function.update s.mem (byteAt (s.bufferAddr buffer) offset) value
            phase := .filling buffer data stores }
      | _ => s
  | .add =>
      match s.phase with
      | .filling buffer data [] =>
          { s with
            tx := s.tx.step (.add (s.bufferAddr buffer)
              (BitVec.ofNat 32 (virtioNetHdrSize + data.length)) 0)
            phase := .adding data
            outstanding := s.outstanding ++ [⟨s.tx.queue.freeHead.toNat, buffer, data⟩] }
      | _ => s
  | .publish =>
      match s.phase with
      | .adding data =>
          { s with
            tx := s.tx.step .publish
            packetsTx := s.packetsTx + 1
            bytesTx := s.bytesTx + BitVec.ofNat 64 data.length
            phase := .idle }
      | _ => s
  | .fetch => { s with tx := s.tx.step .fetch }
  | .complete i len => { s with tx := s.tx.step (.complete i len) }
  | .count =>
      { s with
        tx := s.tx.step .count
        outstanding := s.outstanding.filter fun t => some t.desc ≠ s.tx.completing }

def run (s : VirtioNet) (events : List NetEvent) : VirtioNet := events.foldl step s

/-- With a transmit queue that has just been set up. -/
def start (initialized : Bool) (queue : Virtqueue) (txBuffers : BitVec 64) (mem : ByteMemory) :
    VirtioNet where
  initialized := initialized
  tx := .start queue
  txBuffers := txBuffers
  txBufIdx := 0
  mem := mem
  packetsTx := 0
  bytesTx := 0
  phase := .idle
  outstanding := []

end VirtioNet

end SimpleOs
