import SimpleOs.Mm.Vmm

/-!
# Processes

`kernel/proc/process.c`: the process table, and the creation and destruction of kernel threads. A
process pointer is an index into the table, a null pointer is `none`. `Kernel` also holds the static
variables of `scheduler.c`, which work on the same table.
-/

namespace SimpleOs

open X86 (Word)

/-- A pointer into `processes[MAX_PROCESSES]`. -/
abbrev ProcPtr := Fin 64

/-- For the literals of `ProcPtr`. -/
instance instNeZeroProcesses : NeZero 64 := ⟨by decide⟩

def kernelStackSize : Nat := 8192

inductive ProcState where
  | unused
  | ready
  | running
  | blocked
  | zombie
deriving Repr, DecidableEq

/-- `process_t`, less `brk`, which nothing reads. -/
structure Process where
  pid : Word
  state : ProcState
  priority : Int
  context : Nat
  kernelStack : Nat
  kernelStackTop : Nat
  pageTable : Word
  timeSlice : Word
  totalTime : Word
  wakeTime : Word
  parent : Option ProcPtr
  exitCode : Int
  next : Option ProcPtr
  prev : Option ProcPtr
  name : List (BitVec 8)

/-- The static variables of `process.c` and `scheduler.c` and what they work on: memory, the page
allocator, the stack pointer in the TSS and CR3. -/
structure Kernel where
  mem : ByteMemory
  pmm : Pmm
  kernelPml4 : Word
  tssRsp0 : Nat
  cr3 : Word
  processes : ProcPtr → Process
  currentProcess : Option ProcPtr
  nextPid : Word
  readyQueues : Fin 32 → Option ProcPtr
  readyBitmap : BitVec 32
  sleepQueue : Option ProcPtr
  schedulerRunning : Bool
  currentTick : Word
  idleProc : Option ProcPtr

def Process.zero : Process where
  pid := 0
  state := .unused
  priority := 0
  context := 0
  kernelStack := 0
  kernelStackTop := 0
  pageTable := 0
  timeSlice := 0
  totalTime := 0
  wakeTime := 0
  parent := none
  exitCode := 0
  next := none
  prev := none
  name := []

namespace Kernel

def loaded (mem : ByteMemory) (pmm : Pmm) (kernelPml4 : Word) (tssRsp0 : Nat) (cr3 : Word) :
    Kernel where
  mem := mem
  pmm := pmm
  kernelPml4 := kernelPml4
  tssRsp0 := tssRsp0
  cr3 := cr3
  processes _ := Process.zero
  currentProcess := none
  nextPid := 1
  readyQueues _ := none
  readyBitmap := 0
  sleepQueue := none
  schedulerRunning := false
  currentTick := 0
  idleProc := none

def modify (k : Kernel) (p : ProcPtr) (f : Process → Process) : Kernel :=
  { k with processes := Function.update k.processes p (f (k.processes p)) }

def processInit (k : Kernel) : Kernel :=
  { k with
    processes := fun p => { k.processes p with state := .unused, pid := 0 }
    currentProcess := none
    nextPid := 1 }

def allocProcessSlot (k : Kernel) : Option ProcPtr :=
  (List.finRange 64).find? fun p => (k.processes p).state = .unused

/-- The initial context at the top of a stack: the entry point, and zeros for the six registers that
`context_switch` pops. -/
def initialContext (m : ByteMemory) (top entry : Nat) : ByteMemory :=
  ((((((m.write (top - 8) 8 entry).write (top - 16) 8 0).write (top - 24) 8 0).write
    (top - 32) 8 0).write (top - 40) 8 0).write (top - 48) 8 0).write (top - 56) 8 0

def processCreateKernelThread (k : Kernel) (name : List (BitVec 8)) (entry : Nat)
    (priority : Int) : Option ProcPtr × Kernel :=
  match k.allocProcessSlot with
  | none => (none, k)
  | some p =>
      match k.pmm.pmmAllocPages (kernelStackSize / pageSize) with
      | (none, pmm) => (none, { k with pmm := pmm })
      | (some stack, pmm) =>
          let top := stack + kernelStackSize
          (some p,
            { k with
              pmm := pmm
              nextPid := k.nextPid + 1
              mem := initialContext k.mem top entry
              processes := Function.update k.processes p
                { pid := k.nextPid
                  state := .ready
                  priority := priority
                  context := top - 56
                  kernelStack := stack
                  kernelStackTop := top
                  pageTable := 0
                  timeSlice := 10
                  totalTime := 0
                  wakeTime := 0
                  parent := k.currentProcess
                  exitCode := 0
                  next := none
                  prev := none
                  name := name.take 31 } })

def processDestroy (k : Kernel) (p : ProcPtr) : Kernel :=
  let proc := k.processes p
  if proc.state = .unused then k
  else
    let pmm :=
      if proc.kernelStack ≠ 0 then k.pmm.pmmFreePages proc.kernelStack (kernelStackSize / pageSize)
      else k.pmm
    let v : Vmm := ⟨k.mem, pmm, k.kernelPml4⟩
    let v := if proc.pageTable ≠ 0 then v.vmmDestroyAddressSpace proc.pageTable else v
    { k with
      mem := v.mem
      pmm := v.pmm
      processes := Function.update k.processes p { proc with state := .unused, pid := 0 } }

/-- `process_exit` up to its last loop, which does nothing but halt until the next interrupt. -/
def processExit (k : Kernel) (code : Int) : Kernel :=
  match k.currentProcess with
  | none => k
  | some p => k.modify p fun proc => { proc with state := .zombie, exitCode := code }

def processGet (k : Kernel) (pid : Word) : Option ProcPtr :=
  (List.finRange 64).find? fun p => (k.processes p).state ≠ .unused ∧ (k.processes p).pid = pid

def processSetCurrent (k : Kernel) (p : ProcPtr) : Kernel :=
  { k with
    currentProcess := some p
    tssRsp0 := (k.processes p).kernelStackTop }

end Kernel

end SimpleOs
