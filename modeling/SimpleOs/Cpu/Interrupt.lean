import SimpleOs.Proc.Scheduler

/-!
# The timer interrupt

`interrupt_handler` of `kernel/cpu/idt.c` for IRQ 0, with the stub around it (`isr.S`), `timer_handler`,
`pic_eoi` and `context_switch` (`context.S`). Of the processor there is the interrupt flag, of the
interrupt controller the in-service bit of IRQ 0; the count of timer ticks is left out.

`context_switch` saves and loads the registers that a call preserves. It leaves the flags alone, so the
thread it goes on with has those of the thread it left, until it executes `iretq`.
-/

namespace SimpleOs

/-- Where a thread goes on when `context_switch` returns on its stack. -/
inductive Suspension where
  /-- It has never run, and goes to its entry point. -/
  | entry
  /-- In a call of `schedule` made by its own code. -/
  | call
  /-- In a call of `schedule` made by `interrupt_handler`; the processor had pushed this interrupt
  flag. -/
  | interrupt (flag : Bool)
deriving Repr, DecidableEq

structure Cpu where
  kernel : Kernel
  interruptFlag : Bool
  inService : Bool
  suspended : ProcPtr → Suspension

namespace Cpu

def picEoi (m : Cpu) : Cpu := { m with inService := false }

def iretq (m : Cpu) (flag : Bool) : Cpu := { m with interruptFlag := flag }

/-- From the return of `schedule` to the code of the thread outside `interrupt_handler`. -/
def goOn (m : Cpu) : Suspension → Cpu
  | .entry => m
  | .call => m
  | .interrupt flag => m.picEoi.iretq flag

/-- A call of the scheduler has left the kernel in `kernel`. If that has another current process,
`context_switch` has left the thread in the suspension `self` and goes on with the other one. -/
def contextSwitch (m : Cpu) (kernel : Kernel) (self : Suspension) : Cpu :=
  match m.kernel.currentProcess, kernel.currentProcess with
  | some current, some next =>
      if current = next then { m with kernel := kernel }.goOn self
      else
        { m with
          kernel := kernel
          suspended := Function.update m.suspended current self }.goOn (m.suspended next)
  | none, some next => { m with kernel := kernel }.goOn (m.suspended next)
  | _, none => { m with kernel := kernel }.goOn self

/-- The interrupt gate clears the interrupt flag and the controller marks IRQ 0 as in service. The
callback of `timer_handler` is `scheduler_tick`; there is fuel for 64 sleepers. -/
def timerInterrupt (m : Cpu) : Option Cpu :=
  (m.kernel.schedulerTick 65).map fun kernel =>
    { m with interruptFlag := false, inService := true }.contextSwitch kernel
      (.interrupt m.interruptFlag)

def yield (m : Cpu) : Option Cpu :=
  m.kernel.schedulerYield.map fun kernel => m.contextSwitch kernel .call

inductive Event where
  | timer
  | yield
deriving Repr, DecidableEq

/-- The timer fires or the running thread yields. The request of the timer waits if interrupts are
disabled or the last one is still in service. -/
def step (m : Cpu) : Event → Option Cpu
  | .timer => if m.interruptFlag ∧ ¬ m.inService then m.timerInterrupt else some m
  | .yield => m.yield

def run (m : Cpu) (events : List Event) : Option Cpu := events.foldlM step m

/-- Interrupts are enabled and no thread has run yet. -/
def enabled (kernel : Kernel) : Cpu where
  kernel := kernel
  interruptFlag := true
  inService := false
  suspended _ := .entry

def start (kernel : Kernel) : Option Cpu :=
  kernel.schedulerStart.map fun kernel' => (enabled kernel).contextSwitch kernel' .call

/-- The code of the thread can be interrupted by the timer. -/
def Preemptible (m : Cpu) : Prop := m.interruptFlag = true ∧ m.inService = false

end Cpu

end SimpleOs
