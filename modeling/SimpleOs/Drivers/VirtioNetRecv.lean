import SimpleOs.Drivers.VirtioNet

/-!
# Receiving frames

`virtio_net_recv` of `kernel/virtio_net.h`, as one function, and step by step on a queue that the device
works on at the same time. The driver has one array of buffers for the queue, and takes the number of a
descriptor for the number of its buffer.
-/

namespace SimpleOs

open VirtioNet (byteAt)

def virtioNetRxBuffers : Nat := 16

def virtqDescFWrite : BitVec 16 := 0x02

/-- The address of `dev->rx_buffers[i]`. -/
def rxBuffer (rxBuffers : BitVec 64) (i : Nat) : BitVec 64 :=
  rxBuffers + BitVec.ofNat 64 (virtioNetBufferSize * i)

/-- The entry of the descriptor table that posts a buffer. -/
def rxEntry (rxBuffers : BitVec 64) (i : Nat) : VirtqDesc :=
  ⟨rxBuffer rxBuffers i, BitVec.ofNat 32 virtioNetBufferSize, virtqDescFWrite, 0⟩

/-- `pkt_len`, for a used length and the size of the caller's buffer. -/
def recvLen (len bufSize : BitVec 32) : BitVec 32 :=
  let pktLen := len - BitVec.ofNat 32 virtioNetHdrSize
  if pktLen > bufSize then bufSize else pktLen

/-- The half of `virtio_net_dev` that receives. -/
structure RxDriver where
  initialized : Bool
  queue : Virtqueue
  rxBuffers : BitVec 64
  packetsRx : BitVec 64
  bytesRx : BitVec 64

namespace RxDriver

/-- What is returned, what has been copied to `buf`, and the driver. -/
def virtioNetRecv (dev : RxDriver) (mem : ByteMemory) (bufSize : BitVec 32) :
    Int × List (BitVec 8) × RxDriver :=
  if dev.initialized = false then (-1, [], dev)
  else if dev.queue.hasUsed = false then (0, [], dev)
  else
    let (id, len, queue) := dev.queue.takeUsed
    if id.toInt < 0 then (0, [], { dev with queue := queue })
    else
      let buffer := rxBuffer dev.rxBuffers id.toNat
      let pktLen := recvLen len bufSize
      let data := (List.range pktLen.toNat).map fun i => mem (byteAt buffer (virtioNetHdrSize + i))
      let (_, queue) :=
        queue.virtqAddBuffer buffer (BitVec.ofNat 32 virtioNetBufferSize) virtqDescFWrite
      (pktLen.toInt, data,
        { dev with
          queue := queue
          packetsRx := dev.packetsRx + 1
          bytesRx := dev.bytesRx + pktLen.setWidth 64 })

end RxDriver

/-- Where a call of `virtio_net_recv` is. -/
inductive RecvPhase where
  | idle
  /-- In `virtq_get_used`, after the test. -/
  | getting (bufSize : BitVec 32)
  /-- The descriptor has been taken, and `data` is what has been copied so far. -/
  | copying (desc len bufSize : BitVec 32) (data : List (BitVec 8))
  /-- In `virtq_add_buffer`, before the descriptor is counted as available. -/
  | adding (pktLen : BitVec 32)
deriving Repr, DecidableEq

/-- The device has written a buffer and handed it back: the descriptor, where the device found the buffer
and what it holds, and the length that the device reports. -/
structure RxCompletion where
  desc : Nat
  addr : BitVec 64
  len : BitVec 32
  data : Nat → BitVec 8

/-- A call of `virtio_net_recv` has copied `data` out of the buffer at `source`. -/
structure RxCopy where
  desc : Nat
  source : BitVec 64
  len : BitVec 32
  data : List (BitVec 8)

/-- The driver with its receive queue and memory, and what has been completed and received. -/
structure VirtioNetRx where
  initialized : Bool
  rx : VirtqSystem
  rxBuffers : BitVec 64
  mem : ByteMemory
  packetsRx : BitVec 64
  bytesRx : BitVec 64
  phase : RecvPhase
  completions : List RxCompletion
  received : List RxCopy

inductive RecvEvent where
  | recv (bufSize : BitVec 32)
  | take
  | copy
  | add
  | publish
  /-- Steps of the device. It writes into the buffers of the descriptors it works on. -/
  | fetch
  | write (i offset : Nat) (value : BitVec 8)
  | complete (i : Nat) (len : BitVec 32)
  | count
deriving Repr, DecidableEq

namespace VirtioNetRx

/-- The queue as it is filled at the start. -/
def post (rxBuffers : BitVec 64) (n : Nat) : List VirtqEvent :=
  (List.range n).flatMap fun i =>
    [.add (rxBuffer rxBuffers i) (BitVec.ofNat 32 virtioNetBufferSize) virtqDescFWrite, .publish]

/-- With a queue that has just been set up and filled. -/
def start (initialized : Bool) (queue : Virtqueue) (rxBuffers : BitVec 64) (mem : ByteMemory) :
    VirtioNetRx where
  initialized := initialized
  rx := (VirtqSystem.start queue).run (post rxBuffers virtioNetRxBuffers)
  rxBuffers := rxBuffers
  mem := mem
  packetsRx := 0
  bytesRx := 0
  phase := .idle
  completions := []
  received := []

def step (s : VirtioNetRx) : RecvEvent → VirtioNetRx
  | .recv bufSize =>
      if s.phase = .idle ∧ s.initialized = true ∧ s.rx.queue.hasUsed = true then
        { s with rx := s.rx.step .test, phase := .getting bufSize }
      else s
  | .take =>
      match s.phase with
      | .getting bufSize =>
          let (id, len, _) := s.rx.queue.takeUsed
          { s with
            rx := s.rx.step .take
            phase := if id.toInt < 0 then .idle else .copying id len bufSize [] }
      | _ => s
  | .copy =>
      match s.phase with
      | .copying desc len bufSize data =>
          if data.length < (recvLen len bufSize).toNat then
            let byte :=
              s.mem (byteAt (rxBuffer s.rxBuffers desc.toNat) (virtioNetHdrSize + data.length))
            { s with phase := .copying desc len bufSize (data ++ [byte]) }
          else s
      | _ => s
  | .add =>
      match s.phase with
      | .copying desc len bufSize data =>
          if data.length < (recvLen len bufSize).toNat then s
          else
            { s with
              rx := s.rx.step (.add (rxBuffer s.rxBuffers desc.toNat)
                (BitVec.ofNat 32 virtioNetBufferSize) virtqDescFWrite)
              phase := .adding (recvLen len bufSize)
              received :=
                s.received ++ [⟨desc.toNat, rxBuffer s.rxBuffers desc.toNat, len, data⟩] }
      | _ => s
  | .publish =>
      match s.phase with
      | .adding pktLen =>
          { s with
            rx := s.rx.step .publish
            packetsRx := s.packetsRx + 1
            bytesRx := s.bytesRx + pktLen.setWidth 64
            phase := .idle }
      | _ => s
  | .fetch => { s with rx := s.rx.step .fetch }
  | .write i offset value =>
      match s.rx.fetched[i]? with
      | some d =>
          if offset < (s.rx.queue.desc d).len.toNat then
            { s with mem := Function.update s.mem (byteAt (s.rx.queue.desc d).addr offset) value }
          else s
      | none => s
  | .complete i len =>
      match s.rx.completing, s.rx.fetched[i]? with
      | none, some d =>
          { s with
            rx := s.rx.step (.complete i len)
            completions := s.completions ++
              [⟨d, (s.rx.queue.desc d).addr, len, fun i => s.mem (byteAt (s.rx.queue.desc d).addr i)⟩] }
      | _, _ => s
  | .count => { s with rx := s.rx.step .count }

def run (s : VirtioNetRx) (events : List RecvEvent) : VirtioNetRx := events.foldl step s

end VirtioNetRx

end SimpleOs
