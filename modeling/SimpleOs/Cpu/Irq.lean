import SimpleOs.Drivers.Keyboard
import SimpleOs.Lib.Chipset
import SimpleOs.Io

/-!
# Interrupt requests

`kernel/cpu/pic.c`, `kernel/drivers/timer.c` and `interrupt_handler` of `kernel/cpu/idt.c`, and the machine
that they drive: devices request interrupts, the processor takes them, and the code outside of handlers
enables and disables lines.

Nothing but `kernel_main` changes the interrupt flag of the processor, and all gates of the lines are
interrupt gates: it is set except in handlers. The stubs hand over the number of the vector. A callback of
the timer that does not return, but goes on with another thread, ends the run here: the timer interrupt of
threads is modelled with the scheduler.
-/

namespace SimpleOs

open Ported

def pic1Command : BitVec 8 := 0x20
def pic1Data : BitVec 8 := 0x21
def pic2Command : BitVec 8 := 0xA0
def pic2Data : BitVec 8 := 0xA1

def picEoiCommand : BitVec 8 := 0x20
def picIcw1Init : BitVec 8 := 0x11
def picIcw1Icw4 : BitVec 8 := 0x01
def picIcw48086 : BitVec 8 := 0x01

def pic1Offset : BitVec 8 := 0x20
def pic2Offset : BitVec 8 := 0x28

/-- The port is passed as a byte. -/
def picSendCommand (pic cmd : BitVec 8) : Ported Unit := do
  outb (pic.setWidth 16) cmd
  ioWait

def picSendData (pic data : BitVec 8) : Ported Unit := do
  outb (pic.setWidth 16) data
  ioWait

def picInit : Ported Unit := do
  picSendCommand pic1Command (picIcw1Init ||| picIcw1Icw4)
  picSendData pic1Data pic1Offset
  picSendData pic1Data (1#8 <<< 2)
  picSendData pic1Data picIcw48086
  picSendCommand pic2Command (picIcw1Init ||| picIcw1Icw4)
  picSendData pic2Data pic2Offset
  picSendData pic2Data 2
  picSendData pic2Data picIcw48086
  picSendData pic1Data 0xFB
  picSendData pic2Data 0xFF

def picEoi (irq : BitVec 8) : Ported Unit := do
  if 8 ≤ irq.toNat then picSendCommand pic2Command picEoiCommand
  picSendCommand pic1Command picEoiCommand

def picDisable : Ported Unit := do
  picSendData pic1Data 0xFF
  picSendData pic2Data 0xFF

/-- The port of the mask of a line, and the line at its controller. -/
def picPort (irq : BitVec 8) : BitVec 16 × BitVec 8 :=
  if irq.toNat < 8 then (pic1Data.setWidth 16, irq) else (pic2Data.setWidth 16, irq - 8)

/-- `1 << irq`, an `int`, in a byte. -/
def picBit (irq : BitVec 8) : BitVec 8 := (1#32 <<< irq.toNat).setWidth 8

def picEnableIrq (irq : BitVec 8) : Ported Unit := do
  let value ← inb (picPort irq).1
  outb (picPort irq).1 (value &&& ~~~picBit (picPort irq).2)

def picDisableIrq (irq : BitVec 8) : Ported Unit := do
  let value ← inb (picPort irq).1
  outb (picPort irq).1 (value ||| picBit (picPort irq).2)

def pitChannel0 : BitVec 16 := 0x40
def pitCommand : BitVec 16 := 0x43

def pitChannel0Sel : BitVec 8 := 0x00
def pitAccessLohi : BitVec 8 := 0x30
def pitMode2 : BitVec 8 := 0x04
def pitBinary : BitVec 8 := 0x00

def pitFrequency : BitVec 32 := 1193182
def timerFrequency : BitVec 32 := 100

/-- `none` is the division by zero. -/
def timerInit (frequency : BitVec 32) : Ported (Option Unit) :=
  if frequency = 0 then pure none
  else do
    let divisor := pitFrequency / frequency
    outb pitCommand (pitChannel0Sel ||| pitAccessLohi ||| pitMode2 ||| pitBinary)
    outb pitChannel0 ((divisor &&& 0xFF).setWidth 8)
    outb pitChannel0 (((divisor >>> 8) &&& 0xFF).setWidth 8)
    picEnableIrq 0
    pure (some ())

/-- The static variables of the drivers, and the state of the rest of the kernel, which a callback may
change. The callback gives `none` if it does not return. -/
structure Drivers (σ : Type) where
  timerTicks : BitVec 64
  timerCallback : Option (σ → Option σ)
  keyboard : Keyboard
  others : σ

namespace Drivers

variable {σ : Type}

def timerHandler (k : Drivers σ) : Option (Drivers σ) :=
  let k := { k with timerTicks := k.timerTicks + 1 }
  match k.timerCallback with
  | none => some k
  | some callback => (callback k.others).map fun others => { k with others := others }

def keyboardData : BitVec 16 := 0x60

def keyboardInit (k : Drivers σ) : Ported (Drivers σ) := do
  let k := { k with keyboard := k.keyboard.keyboardInit }
  picEnableIrq 1
  pure k

def keyboardHandler (k : Drivers σ) : Ported (Drivers σ) := do
  let scancode ← inb keyboardData
  pure { k with keyboard := k.keyboard.keyboardHandler scancode }

/-- The handler of the device. -/
def dispatch (k : Drivers σ) (irq : BitVec 8) : Ported (Option (Drivers σ)) :=
  match irq.toNat with
  | 0 => pure k.timerHandler
  | 1 => do
      let k ← k.keyboardHandler
      pure (some k)
  | _ => pure (some k)

/-- `none` where it halts the processor for good, or the callback does not come back for the end of the
interrupt. -/
def interruptHandler (k : Drivers σ) (interruptNumber : BitVec 64) : Ported (Option (Drivers σ)) :=
  if interruptNumber.toNat < 32 then pure none
  else if 32 ≤ interruptNumber.toNat ∧ interruptNumber.toNat < 48 then do
    let irq := (interruptNumber - 32).setWidth 8
    match ← k.dispatch irq with
    | none => pure none
    | some k => do
        picEoi irq
        pure (some k)
  else pure (some k)

end Drivers

/-- `taken` are the lines of the interrupts that were taken. -/
structure Irqs (σ : Type) where
  chipset : Chipset
  drivers : Drivers σ
  taken : List Nat

inductive IrqEvent where
  /-- A device other than the keyboard requests an interrupt. -/
  | request (line : Fin 16)
  | key (scancode : BitVec 8)
  /-- The processor takes an interrupt if it is asked to. -/
  | interrupt
  /-- A call of `pic_enable_irq`, outside of handlers. -/
  | enableIrq (irq : Fin 16)
  /-- A call of `pic_disable_irq`. -/
  | disableIrq (irq : Fin 16)
deriving Repr, DecidableEq

namespace Irqs

variable {σ : Type}

/-- A function of a driver runs. -/
def call (m : Irqs σ) (x : Ported Unit) : Irqs σ :=
  { m with chipset := (Chipset.device.exec x m.chipset).2 }

def interrupt (m : Irqs σ) : Option (Irqs σ) :=
  match m.chipset.pics.accept with
  | none => some m
  | some (vector, line, pics) =>
      let result := Chipset.device.exec (m.drivers.interruptHandler (vector.setWidth 64))
        { m.chipset with pics := pics }
      result.1.map fun drivers => ⟨result.2, drivers, m.taken ++ [line]⟩

def step (m : Irqs σ) : IrqEvent → Option (Irqs σ)
  | .request line => some { m with chipset := m.chipset.request line }
  | .key scancode => some { m with chipset := m.chipset.key scancode }
  | .interrupt => m.interrupt
  | .enableIrq irq => some (m.call (picEnableIrq (BitVec.ofNat 8 irq)))
  | .disableIrq irq => some (m.call (picDisableIrq (BitVec.ofNat 8 irq)))

def run (m : Irqs σ) (events : List IrqEvent) : Option (Irqs σ) := events.foldlM step m

/-- What `kernel_main` does to the controllers and the drivers before it enables interrupts. -/
def initDrivers (drivers : Drivers σ) (frequency : BitVec 32) : Ported (Option (Drivers σ)) := do
  picInit
  picDisable
  match ← timerInit frequency with
  | none => pure none
  | some _ => do
      let drivers ← drivers.keyboardInit
      pure (some drivers)

def boot (chipset : Chipset) (drivers : Drivers σ) (frequency : BitVec 32) : Option (Irqs σ) :=
  let result := Chipset.device.exec (initDrivers drivers frequency) chipset
  result.1.map fun drivers => ⟨result.2, drivers, []⟩

/-- Booting, and what happens then. -/
def bootRun (chipset : Chipset) (drivers : Drivers σ) (frequency : BitVec 32)
    (events : List IrqEvent) : Option (Irqs σ) :=
  (boot chipset drivers frequency).bind fun m => m.run events

end Irqs

end SimpleOs
