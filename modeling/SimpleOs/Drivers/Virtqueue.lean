import SimpleOs.Lib.Ring

/-!
# Virtqueues

The queues of `kernel/virtio.h` and the functions of `kernel/virtio_net.h` that work on them. `virtq_init`
puts the three parts of a queue apart in its memory, so each is an array of its own. What the device may see
change in the middle of a function is a step of its own.
-/

namespace SimpleOs

structure VirtqDesc where
  addr : BitVec 64
  len : BitVec 32
  flags : BitVec 16
  next : BitVec 16
deriving Repr, DecidableEq

structure VirtqUsedElem where
  id : BitVec 32
  len : BitVec 32
deriving Repr, DecidableEq

/-- `virtqueue_t`, with the descriptors, the available ring and the used ring that it points to. -/
structure Virtqueue where
  size : BitVec 16
  desc : Nat → VirtqDesc
  availFlags : BitVec 16
  availIdx : BitVec 16
  availRing : Nat → BitVec 16
  usedFlags : BitVec 16
  usedIdx : BitVec 16
  usedRing : Nat → VirtqUsedElem
  freeHead : BitVec 16
  numFree : BitVec 16
  lastUsedIdx : BitVec 16

namespace Virtqueue

/-- The memory of the queue holds anything before; `next` of the last descriptor stays what it was. -/
def virtqInit (mem : Virtqueue) (size : BitVec 16) : Virtqueue where
  size := size
  desc i := if i < size.toNat - 1 then { mem.desc i with next := BitVec.ofNat 16 (i + 1) } else mem.desc i
  availFlags := 0
  availIdx := 0
  availRing := mem.availRing
  usedFlags := 0
  usedIdx := 0
  usedRing := mem.usedRing
  freeHead := 0
  numFree := size
  lastUsedIdx := 0

/-- The slot of a ring that an index goes to. -/
def slot (vq : Virtqueue) (idx : BitVec 16) : Nat := (idx &&& (vq.size - 1)).toNat

/-- `virtq_add_buffer` up to the first barrier; `none` is -1. -/
def addEntry (vq : Virtqueue) (addr : BitVec 64) (len : BitVec 32) (flags : BitVec 16) :
    Option (BitVec 16) × Virtqueue :=
  if vq.numFree = 0 then (none, vq)
  else
    let head := vq.freeHead
    (some head,
      { vq with
        freeHead := (vq.desc head.toNat).next
        numFree := vq.numFree - 1
        desc := Function.update vq.desc head.toNat ⟨addr, len, flags, 0⟩
        availRing := Function.update vq.availRing (vq.slot vq.availIdx) head })

/-- The rest of `virtq_add_buffer`. -/
def publish (vq : Virtqueue) : Virtqueue := { vq with availIdx := vq.availIdx + 1 }

def virtqAddBuffer (vq : Virtqueue) (addr : BitVec 64) (len : BitVec 32) (flags : BitVec 16) :
    Option (BitVec 16) × Virtqueue :=
  match vq.addEntry addr len flags with
  | (none, vq) => (none, vq)
  | (some head, vq) => (some head, vq.publish)

/-- The first test of `virtq_get_used`. -/
def hasUsed (vq : Virtqueue) : Bool := vq.lastUsedIdx ≠ vq.usedIdx

/-- `virtq_get_used` from the barrier on: the descriptor, the length, and the queue. -/
def takeUsed (vq : Virtqueue) : BitVec 32 × BitVec 32 × Virtqueue :=
  let elem := vq.usedRing (vq.slot vq.lastUsedIdx)
  (elem.id, elem.len,
    { vq with
      lastUsedIdx := vq.lastUsedIdx + 1
      desc :=
        Function.update vq.desc elem.id.toNat { vq.desc elem.id.toNat with next := vq.freeHead }
      freeHead := elem.id.setWidth 16
      numFree := vq.numFree + 1 })

/-- The first `n` descriptors of the list from `head` on. -/
def freeFrom (desc : Nat → VirtqDesc) (head : BitVec 16) : Nat → List Nat
  | 0 => []
  | n + 1 => head.toNat :: freeFrom desc (desc head.toNat).next n

def freeList (vq : Virtqueue) : List Nat := freeFrom vq.desc vq.freeHead vq.numFree.toNat

end Virtqueue

inductive DriverPhase where
  | idle
  /-- In `virtq_add_buffer`, before `avail->idx++`. -/
  | adding
  /-- In `virtq_get_used`, after the test. -/
  | getting
deriving Repr, DecidableEq

/-- A queue between the driver and a device. The device has read the available ring up to
`lastAvailIdx`; it works on the descriptors in `fetched`, and may have written the entry of the used
ring for one of them without having counted it. The rest records what happened: the descriptors handed
to the device and not completed, the completions and those of them that the driver was given, the slots
of the rings that were written and not read, and whether such a slot was written again. -/
structure VirtqSystem where
  queue : Virtqueue
  driver : DriverPhase
  lastAvailIdx : BitVec 16
  fetched : List Nat
  completing : Option Nat
  inFlight : List Nat
  completed : List Nat
  collected : List Nat
  availUnread : Nat → Bool
  usedUnread : Nat → Bool
  overwritten : Bool

inductive VirtqEvent where
  /-- `virtq_add_buffer`, in two steps. -/
  | add (addr : BitVec 64) (len : BitVec 32) (flags : BitVec 16)
  | publish
  /-- `virtq_get_used`, in two steps. -/
  | test
  | take
  /-- The device reads the next entry of the available ring, if there is one. -/
  | fetch
  /-- The device writes an entry of the used ring for one of the descriptors it works on. -/
  | complete (i : Nat) (len : BitVec 32)
  | count
deriving Repr, DecidableEq

namespace VirtqSystem

open Virtqueue

def step (s : VirtqSystem) : VirtqEvent → VirtqSystem
  | .add addr len flags =>
      if s.driver = .idle then
        match s.queue.addEntry addr len flags with
        | (none, _) => s
        | (some head, queue) =>
            { s with
              queue := queue
              driver := .adding
              inFlight := s.inFlight ++ [head.toNat]
              availUnread := Function.update s.availUnread (s.queue.slot s.queue.availIdx) true
              overwritten := s.overwritten || s.availUnread (s.queue.slot s.queue.availIdx) }
      else s
  | .publish =>
      if s.driver = .adding then { s with queue := s.queue.publish, driver := .idle } else s
  | .test => if s.driver = .idle ∧ s.queue.hasUsed then { s with driver := .getting } else s
  | .take =>
      if s.driver = .getting then
        { s with
          queue := s.queue.takeUsed.2.2
          driver := .idle
          collected := s.collected ++ [s.queue.takeUsed.1.toNat]
          usedUnread := Function.update s.usedUnread (s.queue.slot s.queue.lastUsedIdx) false }
      else s
  | .fetch =>
      if s.lastAvailIdx ≠ s.queue.availIdx then
        { s with
          lastAvailIdx := s.lastAvailIdx + 1
          fetched := s.fetched ++ [(s.queue.availRing (s.queue.slot s.lastAvailIdx)).toNat]
          availUnread := Function.update s.availUnread (s.queue.slot s.lastAvailIdx) false }
      else s
  | .complete i len =>
      match s.completing, s.fetched[i]? with
      | none, some d =>
          { s with
            queue :=
              { s.queue with
                usedRing := Function.update s.queue.usedRing (s.queue.slot s.queue.usedIdx)
                  ⟨BitVec.ofNat 32 d, len⟩ }
            fetched := s.fetched.eraseIdx i
            completing := some d
            usedUnread := Function.update s.usedUnread (s.queue.slot s.queue.usedIdx) true
            overwritten := s.overwritten || s.usedUnread (s.queue.slot s.queue.usedIdx) }
      | _, _ => s
  | .count =>
      match s.completing with
      | none => s
      | some d =>
          { s with
            queue := { s.queue with usedIdx := s.queue.usedIdx + 1 }
            completing := none
            inFlight := s.inFlight.erase d
            completed := s.completed ++ [d] }

def run (s : VirtqSystem) (events : List VirtqEvent) : VirtqSystem := events.foldl step s

def start (queue : Virtqueue) : VirtqSystem where
  queue := queue
  driver := .idle
  lastAvailIdx := 0
  fetched := []
  completing := none
  inFlight := []
  completed := []
  collected := []
  availUnread _ := false
  usedUnread _ := false
  overwritten := false

end VirtqSystem

end SimpleOs
