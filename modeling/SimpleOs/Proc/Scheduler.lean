import SimpleOs.Proc.Process

/-!
# The scheduler

`kernel/proc/scheduler.c`: 32 ready queues and a sleep queue, threaded through the `next` and `prev`
fields of the process table. `context_switch` changes the running stack and the saved stack pointer of
the process it leaves, and nothing the scheduler reads, so it is left out here.

A walk along `next` that visits more nodes than there are processes goes in a circle and never ends;
such a call returns `none`.
-/

namespace SimpleOs

open X86 (Word)

def schedTimeSliceBase : Nat := 5

def schedPriorityIdle : Int := 31

def clampPriority (priority : Int) : Fin 32 :=
  if priority < 0 then 0
  else if h : priority < 32 then ⟨priority.toNat, by omega⟩
  else 31

namespace Kernel

def setNext (k : Kernel) (p : ProcPtr) (v : Option ProcPtr) : Kernel :=
  k.modify p fun proc => { proc with next := v }

def setPrev (k : Kernel) (p : ProcPtr) (v : Option ProcPtr) : Kernel :=
  k.modify p fun proc => { proc with prev := v }

def setState (k : Kernel) (p : ProcPtr) (v : ProcState) : Kernel :=
  k.modify p fun proc => { proc with state := v }

def setTimeSlice (k : Kernel) (p : ProcPtr) (v : Word) : Kernel :=
  k.modify p fun proc => { proc with timeSlice := v }

def setReadyQueue (k : Kernel) (i : Fin 32) (v : Option ProcPtr) : Kernel :=
  { k with readyQueues := Function.update k.readyQueues i v }

def queueOf (k : Kernel) (p : ProcPtr) : Fin 32 := clampPriority (k.processes p).priority

/-- `while (tail->next) tail = tail->next`. -/
def queueTail (k : Kernel) : Nat → ProcPtr → Option ProcPtr
  | 0, _ => none
  | fuel + 1, tail =>
      match (k.processes tail).next with
      | none => some tail
      | some next => queueTail k fuel next

def schedulerAdd (k : Kernel) (p : ProcPtr) : Option Kernel :=
  if (k.processes p).state = .unused then some k
  else
    let prio := k.queueOf p
    let k := (k.setNext p none).setPrev p none
    let linked :=
      match k.readyQueues prio with
      | none =>
          some { k.setReadyQueue prio (some p) with
            readyBitmap := k.readyBitmap ||| 1#32 <<< prio.val }
      | some head =>
          (k.queueTail 64 head).map fun tail => (k.setNext tail (some p)).setPrev p (some tail)
    linked.map fun k =>
      (k.setState p .ready).setTimeSlice p
        (BitVec.ofNat 64 (schedTimeSliceBase + (32 - prio.val)))

/-- What `scheduler_remove` writes before it looks at the bitmap. -/
def unlinkProcess (k : Kernel) (p : ProcPtr) : Kernel :=
  let k :=
    match (k.processes p).prev with
    | some prev => k.setNext prev (k.processes p).next
    | none => k.setReadyQueue (k.queueOf p) (k.processes p).next
  let k :=
    match (k.processes p).next with
    | some next => k.setPrev next (k.processes p).prev
    | none => k
  (k.setNext p none).setPrev p none

def schedulerRemove (k : Kernel) (p : ProcPtr) : Kernel :=
  let prio := k.queueOf p
  let k := k.unlinkProcess p
  if k.readyQueues prio = none then { k with readyBitmap := k.readyBitmap &&& ~~~(1#32 <<< prio.val) }
  else k

/-- `__builtin_ctz` of a bitmap that is not 0. -/
def lowestBit (bitmap : BitVec 32) : Fin 32 := Fin.ofNat 32 bitmap.ctz.toNat

def findNextProcess (k : Kernel) : Option ProcPtr :=
  if k.readyBitmap = 0 then k.idleProc else k.readyQueues (lowestBit k.readyBitmap)

def schedulerInit (k : Kernel) (idleEntry : Nat) : Kernel :=
  let k := processInit { k with
    readyQueues := fun _ => none
    readyBitmap := 0
    sleepQueue := none
    schedulerRunning := false
    currentTick := 0 }
  let (idle, k) := k.processCreateKernelThread [105, 100, 108, 101] idleEntry schedPriorityIdle
  let k := { k with idleProc := idle }
  match idle with
  | none => k
  | some p => k.setState p .ready

def requeueCurrent (k : Kernel) : Option Kernel :=
  match k.currentProcess with
  | none => some k
  | some current =>
      if (k.processes current).state = .running then
        (k.setState current .ready).schedulerAdd current
      else some k

def switchTo (k : Kernel) (next : ProcPtr) : Kernel :=
  let k := ((k.schedulerRemove next).setState next .running).processSetCurrent next
  if (k.processes next).pageTable ≠ 0 then { k with cr3 := (k.processes next).pageTable } else k

def schedule (k : Kernel) : Option Kernel :=
  match k.findNextProcess with
  | none => some k
  | some next =>
      if k.currentProcess = some next then some k
      else k.requeueCurrent.map fun k => k.switchTo next

def popSleeper (k : Kernel) (p : ProcPtr) : Kernel :=
  let next := (k.processes p).next
  let k := { k with sleepQueue := next }
  let k :=
    match next with
    | some q => k.setPrev q none
    | none => k
  (k.setNext p none).setPrev p none

/-- The wake loop of `scheduler_tick`. It calls nothing but `scheduler_add`, so it ends unless the
sleep queue feeds itself; the fuel bounds the number of processes woken. -/
def wakeSleepers (k : Kernel) : Nat → Option Kernel
  | 0 => none
  | fuel + 1 =>
      match k.sleepQueue with
      | none => some k
      | some p =>
          if (k.processes p).wakeTime ≤ k.currentTick then
            ((k.popSleeper p).schedulerAdd p).bind fun k => wakeSleepers k fuel
          else some k

def chargeTick (k : Kernel) (current : ProcPtr) : Kernel :=
  k.modify current fun proc =>
    { proc with
      totalTime := proc.totalTime + 1
      timeSlice := if 0 < proc.timeSlice then proc.timeSlice - 1 else proc.timeSlice }

/-- `scheduler_tick` after its wake loop: the state, and whether the slice of the current process has
run out. -/
def expireSlice (k : Kernel) : Kernel × Bool :=
  match k.currentProcess with
  | none => (k, false)
  | some current =>
      if (k.processes current).state = .running then
        let k := k.chargeTick current
        (k, (k.processes current).timeSlice = 0)
      else (k, false)

def schedulerTick (k : Kernel) (fuel : Nat) : Option Kernel :=
  (wakeSleepers { k with currentTick := k.currentTick + 1 } fuel).bind fun k =>
    if k.expireSlice.2 then k.expireSlice.1.schedule else some k.expireSlice.1

def blockProcess (k : Kernel) (p : ProcPtr) : Kernel :=
  (k.setState p .blocked).schedulerRemove p

/-- A null argument stands for the current process. -/
def schedulerBlock (k : Kernel) (proc : Option ProcPtr) : Option Kernel :=
  match proc.or k.currentProcess with
  | none => some k
  | some p =>
      let k := k.blockProcess p
      if k.currentProcess = some p then k.schedule else some k

def schedulerUnblock (k : Kernel) (p : ProcPtr) : Option Kernel :=
  if (k.processes p).state ≠ .blocked then some k else k.schedulerAdd p

/-- The state in which `scheduler_yield` calls `schedule`. -/
def yieldSlice (k : Kernel) : Kernel :=
  match k.currentProcess with
  | none => k
  | some current => k.setTimeSlice current 0

def schedulerYield (k : Kernel) : Option Kernel := k.yieldSlice.schedule

/-- `while (pos->next && pos->next->wake_time <= wake_time) pos = pos->next`. -/
def sleepPosition (k : Kernel) (wakeTime : Word) : Nat → ProcPtr → Option ProcPtr
  | 0, _ => none
  | fuel + 1, pos =>
      match (k.processes pos).next with
      | none => some pos
      | some next =>
          if (k.processes next).wakeTime ≤ wakeTime then sleepPosition k wakeTime fuel next
          else some pos

def insertSleeper (k : Kernel) (p : ProcPtr) : Option Kernel :=
  match k.sleepQueue with
  | none => some { (k.setNext p none).setPrev p none with sleepQueue := some p }
  | some head =>
      if (k.processes p).wakeTime < (k.processes head).wakeTime then
        some { ((k.setNext p (some head)).setPrev p none).setPrev head (some p) with
          sleepQueue := some p }
      else
        (k.sleepPosition (k.processes p).wakeTime 64 head).map fun pos =>
          let next := (k.processes pos).next
          let k := (k.setNext p next).setPrev p (some pos)
          let k :=
            match next with
            | some q => k.setPrev q (some p)
            | none => k
          k.setNext pos (some p)

/-- The state in which `scheduler_sleep` calls `schedule`, for the current process `p`. -/
def fallAsleep (k : Kernel) (p : ProcPtr) (ticks : Word) : Option Kernel :=
  ((k.modify p fun proc => { proc with wakeTime := k.currentTick + ticks }).blockProcess
    p).insertSleeper p

def schedulerSleep (k : Kernel) (ticks : Word) : Option Kernel :=
  match k.currentProcess with
  | none => some k
  | some p => (k.fallAsleep p ticks).bind schedule

/-- Registering `scheduler_tick` with the timer is left out. -/
def schedulerStart (k : Kernel) : Option Kernel := schedule { k with schedulerRunning := true }

end Kernel

end SimpleOs
