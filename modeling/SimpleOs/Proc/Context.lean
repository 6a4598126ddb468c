import SimpleOs.Lib.Spill
import SimpleOs.Proc.Process

/-!
# Context switches

`context_switch` of `kernel/proc/context.S`, on the machine, and threads that call it. `slot p` is the
address of the field `context` of the process `p`; `none` is the code that runs before the first
thread, for which `schedule` passes the field of a null pointer.
-/

namespace SimpleOs

open X86 (Reg Word Machine Instr load store)

/-- `context_switch` up to its `ret`; `rdi` is `old` and `rsi` is `new`. -/
def contextSwitchCode : List Instr :=
  [.push .rbp,
   .push .rbx,
   .push .r12,
   .push .r13,
   .push .r14,
   .push .r15,
   .movStore .rsp .rdi,
   .mov .rsi .rsp,
   .pop .r15,
   .pop .r14,
   .pop .r13,
   .pop .r12,
   .pop .rbx,
   .pop .rbp]

/-- Where it returns to, and the state there. -/
def contextSwitch (s : Machine) : Word × Machine := (Machine.exec contextSwitchCode s).ret

/-- `context_t`. -/
structure Context where
  r15 : Word
  r14 : Word
  r13 : Word
  r12 : Word
  rbp : Word
  rbx : Word
  rip : Word
deriving Repr, DecidableEq

namespace Context

/-- The fields, as they lie in memory. -/
def words (f : Context) : List Word := [f.r15, f.r14, f.r13, f.r12, f.rbp, f.rbx, f.rip]

/-- The context that a pointer points to. -/
def load (m : ByteMemory) (context : Word) : Context where
  r15 := X86.load m context
  r14 := X86.load m (context + 8#64)
  r13 := X86.load m (context + 16#64)
  r12 := X86.load m (context + 24#64)
  rbp := X86.load m (context + 32#64)
  rbx := X86.load m (context + 40#64)
  rip := X86.load m (context + 48#64)

/-- An assignment to every field through a pointer. -/
def store (m : ByteMemory) (context : Word) (f : Context) : ByteMemory :=
  X86.storeWords m context f.words

end Context

/-- What a thread that does not run counts on when it runs again. -/
structure Owed where
  regs : Reg → Word
  rsp : Word
  rip : Word

/-- Registers and kernel, the thread that runs, and what the others are owed, which no code sees. -/
structure Switching where
  regs : Reg → Word
  kernel : Kernel
  running : Option ProcPtr
  owed : Option ProcPtr → Option Owed

namespace Switching

inductive Event where
  /-- Any code: it leaves behind these registers and this kernel, with all its memory. -/
  | code (regs : Reg → Word) (kernel : Kernel)
  | create (name : List (BitVec 8)) (entry : Nat) (priority : Int)
  /-- The running thread calls `context_switch`. -/
  | switch (next : Option ProcPtr)

def machine (s : Switching) : Machine := ⟨s.regs, s.kernel.mem⟩

def step (slot : Option ProcPtr → Word) (s : Switching) : Event → Switching
  | .code regs kernel => { s with regs := regs, kernel := kernel }
  | .create name entry priority =>
      match s.kernel.processCreateKernelThread name entry priority with
      | (none, kernel) => { s with kernel := kernel }
      | (some p, kernel) =>
          { s with
            kernel :=
              { kernel with
                mem := store kernel.mem (slot (some p))
                  (BitVec.ofNat 64 (kernel.processes p).context) }
            -- at the entry point, on an empty stack
            owed := Function.update s.owed (some p) (some
              ⟨fun _ => 0, BitVec.ofNat 64 (kernel.processes p).kernelStackTop,
                BitVec.ofNat 64 entry⟩) }
  | .switch next =>
      { regs := (contextSwitch s.machine).2.regs
        kernel := { s.kernel with mem := (contextSwitch s.machine).2.mem }
        running := next
        -- after the call, with the return address popped
        owed := Function.update (Function.update s.owed next none) s.running (some
          ⟨s.regs, s.regs .rsp + 8#64, load s.kernel.mem (s.regs .rsp)⟩) }

def run (slot : Option ProcPtr → Word) (s : Switching) (events : List Event) : Switching :=
  events.foldl (step slot) s

/-- The running thread calls `context_switch(&current->context, next->context)`, as `schedule` does: for
another thread, which has been switched away from or never ran. -/
structure Calls (slot : Option ProcPtr → Word) (s : Switching) (next : Option ProcPtr) : Prop where
  old : s.regs .rdi = slot s.running
  new : s.regs .rsi = load s.kernel.mem (slot next)
  other : next ≠ s.running
  waiting : s.owed next ≠ none

end Switching

end SimpleOs
