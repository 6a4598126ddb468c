import SimpleOs.Cpu.Irq

/-!
# From requests to handlers

The machine with its controllers, ports and handlers does what a board without them does, on which lines
are enabled and requested and an interrupt is handled at once. What each function of the drivers does to the
chipset is said once, as what it yields there; from booting on, the controllers are between interrupts in a
state in which nothing is in service.
-/

namespace SimpleOs

open PortDevice Chipset Pic8259

variable {σ : Type} {c : Chipset} {v : BitVec 8} {line : Nat} {k k' : Drivers σ} {frequency : BitVec 32}

theorem access_pic1Command : device.access c (.write (pic1Command.setWidth 16) 8 v.toNat) =
    { c with pics := { c.pics with master := c.pics.master.writeCommand v } } :=
  congrArg (fun v => { c with pics := { c.pics with master := c.pics.master.writeCommand v } })
    (ofNat_toNat_self v)

theorem access_pic1Data : device.access c (.write (pic1Data.setWidth 16) 8 v.toNat) =
    { c with pics := { c.pics with master := c.pics.master.writeData v } } :=
  congrArg (fun v => { c with pics := { c.pics with master := c.pics.master.writeData v } })
    (ofNat_toNat_self v)

theorem access_pic2Command : device.access c (.write (pic2Command.setWidth 16) 8 v.toNat) =
    { c with pics := { c.pics with slave := c.pics.slave.writeCommand v } } :=
  congrArg (fun v => { c with pics := { c.pics with slave := c.pics.slave.writeCommand v } })
    (ofNat_toNat_self v)

theorem access_pic2Data : device.access c (.write (pic2Data.setWidth 16) 8 v.toNat) =
    { c with pics := { c.pics with slave := c.pics.slave.writeData v } } :=
  congrArg (fun v => { c with pics := { c.pics with slave := c.pics.slave.writeData v } })
    (ofNat_toNat_self v)

theorem access_pitCommand : device.access c (.write pitCommand 8 v.toNat) =
    { c with pit := c.pit.writeControl v } :=
  congrArg (fun v => { c with pit := c.pit.writeControl v }) (ofNat_toNat_self v)

theorem access_pitChannel0 : device.access c (.write pitChannel0 8 v.toNat) =
    { c with pit := c.pit.writeCounter v } :=
  congrArg (fun v => { c with pit := c.pit.writeCounter v }) (ofNat_toNat_self v)

/-- Sending ends with a write to a port where nothing is. -/
theorem yields_picSendCommand {pic : BitVec 8} : device.Yields (picSendCommand pic v) c ()
    (device.access c (.write (pic.setWidth 16) 8 v.toNat)) :=
  yields_output.bind yields_output

theorem yields_picSendData {pic : BitVec 8} : device.Yields (picSendData pic v) c ()
    (device.access c (.write (pic.setWidth 16) 8 v.toNat)) :=
  yields_output.bind yields_output

/-- Whatever the controllers were told before. -/
def initializedPics (mask1 mask2 : BitVec 8) : PicPair where
  master := ⟨0, 0, mask1, pic1Offset, 4, true, .ready⟩
  slave := ⟨0, 0, mask2, pic2Offset, 2, true, .ready⟩

theorem yields_picInit : device.Yields picInit c () { c with pics := initializedPics 0xFB 0xFF } := by
  have h : device.Yields picInit c () _ :=
    yields_picSendCommand.bind <| yields_picSendData.bind <| yields_picSendData.bind <|
      yields_picSendData.bind <| yields_picSendCommand.bind <| yields_picSendData.bind <|
      yields_picSendData.bind <| yields_picSendData.bind <| yields_picSendData.bind yields_picSendData
  simp only [access_pic1Command, access_pic1Data, access_pic2Command, access_pic2Data] at h
  exact h

theorem yields_picDisable {mask1 mask2 : BitVec 8} (h : c.pics = initializedPics mask1 mask2) :
    device.Yields picDisable c () { c with pics := initializedPics 0xFF 0xFF } := by
  have hyields : device.Yields picDisable c () _ := yields_picSendData.bind yields_picSendData
  simp only [access_pic1Data, access_pic2Data, h] at hyields
  exact hyields

theorem picBit_eq : ∀ n < 8, picBit (BitVec.ofNat 8 n) = BitVec.twoPow 8 n := by decide

theorem picPort_ofNat : ∀ n < 16, picPort (BitVec.ofNat 8 n) =
    if n < 8 then (pic1Data.setWidth 16, BitVec.ofNat 8 n)
    else (pic2Data.setWidth 16, BitVec.ofNat 8 (n - 8)) := by decide

theorem yields_update (port : BitVec 16) (update : BitVec 8 → BitVec 8) :
    device.Yields (do let value ← Ported.inb port; Ported.outb port (update value)) c ()
      (device.access (device.access c (.read port 8))
        (.write port 8 (update (BitVec.ofNat 8 (device.answer c port 8))).toNat)) :=
  yields_input.bind yields_output

theorem yields_pic1Data (update : BitVec 8 → BitVec 8) :
    device.Yields (do
      let value ← Ported.inb (pic1Data.setWidth 16)
      Ported.outb (pic1Data.setWidth 16) (update value)) c ()
      { c with pics :=
        { c.pics with master := c.pics.master.writeData (update c.pics.master.imr) } } := by
  have h := yields_update (c := c) (pic1Data.setWidth 16) update
  rw [access_pic1Data, show BitVec.ofNat 8 (device.answer c (pic1Data.setWidth 16) 8) =
    c.pics.master.imr from ofNat_toNat_self _] at h
  exact h

theorem yields_pic2Data (update : BitVec 8 → BitVec 8) :
    device.Yields (do
      let value ← Ported.inb (pic2Data.setWidth 16)
      Ported.outb (pic2Data.setWidth 16) (update value)) c ()
      { c with pics :=
        { c.pics with slave := c.pics.slave.writeData (update c.pics.slave.imr) } } := by
  have h := yields_update (c := c) (pic2Data.setWidth 16) update
  rw [access_pic2Data, show BitVec.ofNat 8 (device.answer c (pic2Data.setWidth 16) 8) =
    c.pics.slave.imr from ofNat_toNat_self _] at h
  exact h

theorem yields_picEnableIrq (hline : line < 16) : device.Yields (picEnableIrq (BitVec.ofNat 8 line)) c ()
    { c with pics := c.pics.switch line true } := by
  rw [picEnableIrq, picPort_ofNat line hline, PicPair.switch]
  split
  · rename_i hmaster
    simp only [picBit_eq line hmaster]
    exact yields_pic1Data _
  · rename_i hslave
    simp only [picBit_eq (line - 8) (by omega)]
    exact yields_pic2Data _

theorem yields_picDisableIrq (hline : line < 16) :
    device.Yields (picDisableIrq (BitVec.ofNat 8 line)) c ()
      { c with pics := c.pics.switch line false } := by
  rw [picDisableIrq, picPort_ofNat line hline, PicPair.switch]
  split
  · rename_i hmaster
    simp only [picBit_eq line hmaster]
    exact yields_pic1Data _
  · rename_i hslave
    simp only [picBit_eq (line - 8) (by omega)]
    exact yields_pic2Data _

/-- The low byte of the divisor goes first. -/
def programmedPit (divisor : BitVec 32) : Pit8254 :=
  ⟨0x34, none, some (((divisor >>> 8) &&& 0xFF).setWidth 8 ++ (divisor &&& 0xFF).setWidth 8)⟩

theorem writeCounter_writeCounter (t : Pit8254) (low high : BitVec 8) :
    ((t.writeControl (pitChannel0Sel ||| pitAccessLohi ||| pitMode2 ||| pitBinary)).writeCounter
      low).writeCounter high = ⟨0x34, none, some (high ++ low)⟩ := by
  have hcontrol : t.writeControl (pitChannel0Sel ||| pitAccessLohi ||| pitMode2 ||| pitBinary) =
      ⟨0x34, none, none⟩ := if_pos (by decide)
  simp [hcontrol, Pit8254.writeCounter]

theorem yields_timerInit (hfrequency : frequency ≠ 0) : device.Yields (timerInit frequency) c (some ())
    { c with pics := c.pics.switch 0 true, pit := programmedPit (pitFrequency / frequency) } := by
  rw [timerInit, if_neg hfrequency]
  have h : device.Yields (do
      Ported.outb pitCommand (pitChannel0Sel ||| pitAccessLohi ||| pitMode2 ||| pitBinary)
      Ported.outb pitChannel0 (((pitFrequency / frequency) &&& 0xFF).setWidth 8)
      Ported.outb pitChannel0 ((((pitFrequency / frequency) >>> 8) &&& 0xFF).setWidth 8)
      picEnableIrq 0
      pure (some ())) c (some ()) _ :=
    yields_output.bind <| yields_output.bind <| yields_output.bind <|
      (yields_picEnableIrq (show 0 < 16 by decide)).bind yields_pure
  simp only [access_pitCommand, access_pitChannel0, writeCounter_writeCounter] at h
  exact h

theorem yields_keyboardInit : device.Yields k.keyboardInit c
    { k with keyboard := k.keyboard.keyboardInit } { c with pics := c.pics.switch 1 true } :=
  (yields_picEnableIrq (show 1 < 16 by decide)).bind yields_pure

theorem switch_initializedPics : ((initializedPics 0xFF 0xFF).switch 0 true).switch 1 true =
    initializedPics 0xFC 0xFF := by decide

theorem yields_initDrivers (hfrequency : frequency ≠ 0) : device.Yields
    (Irqs.initDrivers k frequency) c (some { k with keyboard := k.keyboard.keyboardInit })
    ⟨initializedPics 0xFC 0xFF, programmedPit (pitFrequency / frequency), c.scancodes⟩ :=
  yields_picInit.bind <| (yields_picDisable rfl).bind <| (yields_timerInit hfrequency).bind <| by
    have h := yields_keyboardInit (k := k) (c := ⟨(initializedPics 0xFF 0xFF).switch 0 true,
      programmedPit (pitFrequency / frequency), c.scancodes⟩)
    rw [switch_initializedPics] at h
    exact h.bind yields_pure

/-- What booting leaves, if no division traps. -/
def Irqs.booted (c : Chipset) (k : Drivers σ) (frequency : BitVec 32) : Irqs σ :=
  ⟨⟨initializedPics 0xFC 0xFF, programmedPit (pitFrequency / frequency), c.scancodes⟩,
    { k with keyboard := k.keyboard.keyboardInit }, []⟩

theorem boot_eq (hfrequency : frequency ≠ 0) :
    Irqs.boot c k frequency = some (Irqs.booted c k frequency) := by
  rw [Irqs.boot, (yields_initDrivers hfrequency).exec_eq]
  rfl

theorem bootRun_eq (hfrequency : frequency ≠ 0) (events : List IrqEvent) :
    Irqs.bootRun c k frequency events = (Irqs.booted c k frequency).run events := by
  rw [Irqs.bootRun, boot_eq hfrequency, Option.bind_some]

/-- A callback that there is returns. -/
def Drivers.CallbackReturns (k : Drivers σ) : Prop :=
  ∀ callback, k.timerCallback = some callback → ∀ others, callback others ≠ none

theorem Drivers.CallbackReturns.congr (h : k.CallbackReturns)
    (hcallback : k'.timerCallback = k.timerCallback) : k'.CallbackReturns := by
  rwa [Drivers.CallbackReturns, hcallback]

/-- What the callback makes of the rest of the kernel. -/
def Drivers.calledBack (k : Drivers σ) (others : σ) : σ :=
  (k.timerCallback.bind fun callback => callback others).getD others

theorem calledBack_congr (h : k'.timerCallback = k.timerCallback) : k'.calledBack = k.calledBack := by
  funext others
  rw [Drivers.calledBack, Drivers.calledBack, h]

/-- What an interrupt of the timer leaves, if it returns. -/
def Drivers.ticked (k : Drivers σ) : Drivers σ :=
  { k with timerTicks := k.timerTicks + 1, others := k.calledBack k.others }

theorem eq_ticked_of_timerHandler (h : k.timerHandler = some k') : k' = k.ticked := by
  obtain ⟨ticks, callback, keyboard, others⟩ := k
  cases callback with
  | none =>
      obtain rfl := Option.some_inj.mp h
      rfl
  | some callback =>
      obtain ⟨others', hcallback, rfl⟩ := Option.map_eq_some_iff.mp h
      simp [Drivers.ticked, Drivers.calledBack, hcallback]

theorem timerHandler_ne_none (h : k.CallbackReturns) : k.timerHandler ≠ none := by
  obtain ⟨ticks, callback, keyboard, others⟩ := k
  cases callback with
  | none => exact Option.some_ne_none _
  | some callback => exact fun hnone => h callback rfl others (Option.map_eq_none_iff.mp hnone)

theorem yields_keyboardHandler : device.Yields k.keyboardHandler c
    { k with keyboard := k.keyboard.keyboardHandler (c.scancodes.headD 0) } c.readKeyboard := by
  have h : device.Yields k.keyboardHandler c _ _ := yields_input.bind yields_pure
  rw [show BitVec.ofNat 8 (device.answer c Drivers.keyboardData 8) = c.scancodes.headD 0 from
    ofNat_toNat_self _] at h
  exact h

/-- What a handler does for its line, before the end of the interrupt. -/
def Drivers.serve (k : Drivers σ) (c : Chipset) : Nat → Drivers σ × Chipset
  | 0 => (k.ticked, c)
  | 1 => ({ k with keyboard := k.keyboard.keyboardHandler (c.scancodes.headD 0) }, c.readKeyboard)
  | _ => (k, c)

theorem writeCommand_eoi (p : Pic8259) : p.writeCommand picEoiCommand = p.endOfInterrupt :=
  (if_neg (by decide)).trans (if_pos rfl)

theorem yields_picEoi (hline : line < 16) : device.Yields (picEoi (BitVec.ofNat 8 line)) c ()
    { c with pics := c.pics.endOfInterrupt line } := by
  have htoNat : (BitVec.ofNat 8 line).toNat = line := Nat.mod_eq_of_lt (by omega)
  have hmaster : ∀ c, device.Yields (picSendCommand pic1Command picEoiCommand) c () _ :=
    fun c => yields_picSendCommand
  have hslave : device.Yields (picSendCommand pic2Command picEoiCommand) c () _ :=
    yields_picSendCommand
  simp only [access_pic1Command, access_pic2Command, writeCommand_eoi] at hmaster hslave
  rw [picEoi, htoNat, PicPair.endOfInterrupt]
  split
  · exact hslave.bind (hmaster _)
  · exact yields_pure.bind (hmaster _)

theorem yields_dispatch (hline : line < 16) (hreturns : line = 0 → k.timerHandler ≠ none) :
    device.Yields (k.dispatch (BitVec.ofNat 8 line)) c (some (k.serve c line).1) (k.serve c line).2 := by
  rw [Drivers.dispatch, show (BitVec.ofNat 8 line).toNat = line from Nat.mod_eq_of_lt (by omega)]
  obtain rfl | rfl | hother : line = 0 ∨ line = 1 ∨ 2 ≤ line := by omega
  · obtain ⟨k', hk'⟩ := Option.ne_none_iff_exists'.mp (hreturns rfl)
    obtain rfl := eq_ticked_of_timerHandler hk'
    simp only [hk']
    exact yields_pure
  · exact yields_keyboardHandler.bind yields_pure
  · obtain ⟨n, rfl⟩ := Nat.exists_eq_add_of_le' hother
    exact yields_pure

/-- The vector tells the handler the line. -/
theorem irq_of_vector : ∀ n < 16, ((pic1Offset + BitVec.ofNat 8 n).setWidth 64).toNat = 32 + n ∧
    ((pic1Offset + BitVec.ofNat 8 n).setWidth 64 - (32 : BitVec 64)).setWidth 8 =
      BitVec.ofNat 8 n := by decide

theorem yields_interruptHandler (hline : line < 16) (hreturns : line = 0 → k.timerHandler ≠ none) :
    device.Yields (k.interruptHandler ((pic1Offset + BitVec.ofNat 8 line).setWidth 64)) c
      (some (k.serve c line).1)
      { (k.serve c line).2 with pics := (k.serve c line).2.pics.endOfInterrupt line } := by
  obtain ⟨hnumber, hirq⟩ := irq_of_vector line hline
  rw [Drivers.interruptHandler, if_neg (by omega), if_pos (by omega), hirq]
  exact (yields_dispatch hline hreturns).bind ((yields_picEoi hline).bind yields_pure)

/-- A callback that does not return leaves the interrupt in service. -/
theorem yields_interruptHandler_none (hnone : k.timerHandler = none) :
    device.Yields (k.interruptHandler ((pic1Offset + BitVec.ofNat 8 0).setWidth 64)) c none c := by
  obtain ⟨hnumber, hirq⟩ := irq_of_vector 0 (by decide)
  have hdispatch : device.Yields (k.dispatch (BitVec.ofNat 8 0)) c none c := by
    rw [Drivers.dispatch, show (BitVec.ofNat 8 0).toNat = 0 from rfl]
    simp only [hnone]
    exact yields_pure
  rw [Drivers.interruptHandler, if_neg (by omega), if_pos (by omega), hirq]
  exact hdispatch.bind yields_pure

/-- Enabled and requested lines, the bytes that the keyboard has sent, and the drivers. There are no
registers and no ports, and an interrupt is handled when it is taken. -/
structure Board (σ : Type) where
  arbiter : Arbiter
  scancodes : List (BitVec 8)
  drivers : Drivers σ
  taken : List Nat

namespace Board

def request (b : Board σ) (line : Nat) : Board σ :=
  if line = 1 ∨ line = 2 then b else { b with arbiter := b.arbiter.request line true }

def key (b : Board σ) (scancode : BitVec 8) : Board σ :=
  { b with
    scancodes := b.scancodes ++ [scancode]
    arbiter := if b.scancodes = [] then b.arbiter.request 1 true else b.arbiter }

def readKeyboard (b : Board σ) : Board σ :=
  { b with
    drivers := { b.drivers with
      keyboard := b.drivers.keyboard.keyboardHandler (b.scancodes.headD 0) }
    scancodes := b.scancodes.tail
    arbiter := if b.scancodes.tail = [] then b.arbiter else b.arbiter.request 1 true }

def handle (b : Board σ) : Nat → Board σ
  | 0 => { b with drivers := b.drivers.ticked }
  | 1 => b.readKeyboard
  | _ => b

def serve (b : Board σ) (line : Nat) : Board σ :=
  { b with arbiter := b.arbiter.request line false, taken := b.taken ++ [line] }.handle line

def interrupt (b : Board σ) : Board σ :=
  match b.arbiter.next with
  | none => b
  | some line => b.serve line

def step (b : Board σ) : IrqEvent → Board σ
  | .request line => b.request line
  | .key scancode => b.key scancode
  | .interrupt => b.interrupt
  | .enableIrq irq => { b with arbiter := b.arbiter.enable irq true }
  | .disableIrq irq => { b with arbiter := b.arbiter.enable irq false }

def run (b : Board σ) (events : List IrqEvent) : Board σ := events.foldl step b

end Board

/-- The machine does what the board does. -/
structure Irqs.Follows (m : Irqs σ) (b : Board σ) : Prop where
  pics : m.chipset.pics.Arbitrates b.arbiter 0 0
  vectors : ∀ n < 16, b.arbiter.vector n = pic1Offset + BitVec.ofNat 8 n
  scancodes : m.chipset.scancodes = b.scancodes
  drivers : m.drivers = b.drivers
  taken : m.taken = b.taken

/-- `readKeyboard` and a handler, while interrupts may be in service. -/
theorem arbitrates_serve {b : Board σ} {m s : BitVec 8} (h : c.pics.Arbitrates b.arbiter m s)
    (hscancodes : c.scancodes = b.scancodes) (line : Nat) :
    (b.drivers.serve c line).2.pics.Arbitrates (b.handle line).arbiter m s ∧
      (b.drivers.serve c line).2.scancodes = (b.handle line).scancodes ∧
      (b.drivers.serve c line).1 = (b.handle line).drivers := by
  obtain rfl | rfl | hother : line = 0 ∨ line = 1 ∨ 2 ≤ line := by omega
  · exact ⟨h, hscancodes, rfl⟩
  · have hpics : (if c.scancodes.tail = [] then c.pics else c.pics.request 1).Arbitrates
        (if b.scancodes.tail = [] then b.arbiter else b.arbiter.request 1 true) m s := by
      rw [hscancodes]
      split
      · exact h
      · exact h.request (by decide) (by decide)
    refine ⟨hpics, congrArg List.tail hscancodes, ?_⟩
    rw [Drivers.serve, hscancodes]
    rfl
  · obtain ⟨n, rfl⟩ := Nat.exists_eq_add_of_le' hother
    exact ⟨h, hscancodes, rfl⟩

theorem vector_handle (b : Board σ) (line : Nat) :
    (b.handle line).arbiter.vector = b.arbiter.vector ∧ (b.handle line).taken = b.taken := by
  obtain rfl | rfl | hother : line = 0 ∨ line = 1 ∨ 2 ≤ line := by omega
  · exact ⟨rfl, rfl⟩
  · refine ⟨?_, rfl⟩
    change (if b.scancodes.tail = [] then b.arbiter else b.arbiter.request 1 true).vector = _
    split <;> rfl
  · obtain ⟨n, rfl⟩ := Nat.exists_eq_add_of_le' hother
    exact ⟨rfl, rfl⟩

theorem callback_serve (b : Board σ) (line : Nat) :
    (b.serve line).drivers.timerCallback = b.drivers.timerCallback := by
  obtain rfl | rfl | hother : line = 0 ∨ line = 1 ∨ 2 ≤ line := by omega
  · rfl
  · rfl
  · obtain ⟨n, rfl⟩ := Nat.exists_eq_add_of_le' hother
    rfl

theorem callback_step (b : Board σ) (event : IrqEvent) :
    (b.step event).drivers.timerCallback = b.drivers.timerCallback := by
  cases event with
  | request line =>
      rw [Board.step, Board.request]
      split <;> rfl
  | interrupt =>
      rw [Board.step, Board.interrupt]
      cases b.arbiter.next with
      | none => rfl
      | some line => exact callback_serve b line
  | _ => rfl

theorem Irqs.Follows.interrupt {m : Irqs σ} {b : Board σ} (h : m.Follows b)
    (hreturns : b.arbiter.next = some 0 → m.drivers.timerHandler ≠ none) :
    ∃ m', m.interrupt = some m' ∧ m'.Follows b.interrupt := by
  cases hnext : b.arbiter.next with
  | none =>
      rw [Irqs.interrupt, h.pics.accept_none hnext, Board.interrupt, hnext]
      exact ⟨m, rfl, h⟩
  | some line =>
      obtain ⟨pics, haccept, hline, hafter⟩ := h.pics.accept_some hnext
      obtain ⟨c, hc⟩ : ∃ c : Chipset, c = { m.chipset with pics := pics } := ⟨_, rfl⟩
      obtain ⟨b', hb⟩ : ∃ b' : Board σ, b' =
        { b with arbiter := b.arbiter.request line false, taken := b.taken ++ [line] } := ⟨_, rfl⟩
      have hpics : c.pics.Arbitrates b'.arbiter (PicPair.inService line).1
          (PicPair.inService line).2 := by
        rw [hc, hb]
        exact hafter
      have hsame : c.scancodes = b'.scancodes ∧ m.drivers = b'.drivers ∧
          m.taken ++ [line] = b'.taken ∧ b'.arbiter.vector = b.arbiter.vector := by
        rw [hc, hb]
        exact ⟨h.scancodes, h.drivers, congrArg (· ++ [line]) h.taken, rfl⟩
      obtain ⟨hscancodes, hdrivers, htaken, hvector⟩ := hsame
      obtain ⟨hserved, hrest, hhandled⟩ := arbitrates_serve hpics hscancodes line
      have hhandler := yields_interruptHandler (c := c) hline fun hzero => hreturns (hzero ▸ hnext)
      rw [Irqs.interrupt, haccept, Board.interrupt, hnext]
      simp only [h.vectors line hline, ← hc, hhandler.exec_eq, Option.map_some]
      rw [Board.serve, ← hb, htaken, hdrivers]
      refine ⟨_, rfl, hserved.endOfInterrupt hline, ?_, hrest, hhandled, (vector_handle b' line).2.symm⟩
      rw [(vector_handle b' line).1, hvector]
      exact h.vectors

/-- If the callback does not return, neither does the step. -/
theorem Irqs.Follows.interrupt_none {m : Irqs σ} {b : Board σ} (h : m.Follows b)
    (hnext : b.arbiter.next = some 0) (hnone : m.drivers.timerHandler = none) : m.interrupt = none := by
  obtain ⟨pics, haccept, hline, -⟩ := h.pics.accept_some hnext
  rw [Irqs.interrupt, haccept]
  simp only [h.vectors 0 hline, (yields_interruptHandler_none hnone).exec_eq, Option.map_none]

theorem Irqs.Follows.of_interrupt {m m' : Irqs σ} {b : Board σ} (h : m.Follows b)
    (hm' : m.interrupt = some m') : m'.Follows b.interrupt := by
  have hreturns : b.arbiter.next = some 0 → m.drivers.timerHandler ≠ none := fun hnext hnone =>
    Option.some_ne_none m' (hm'.symm.trans (h.interrupt_none hnext hnone))
  obtain ⟨m'', hm'', hfollows⟩ := h.interrupt hreturns
  obtain rfl := Option.some_inj.mp (hm'.symm.trans hm'')
  exact hfollows

theorem Irqs.Follows.request {m : Irqs σ} {b : Board σ} (h : m.Follows b) (line : Fin 16) :
    Follows { m with chipset := m.chipset.request line } (b.request line) := by
  unfold Chipset.request Board.request
  by_cases hone : line.val = 1
  · rw [if_pos hone, if_pos (.inl hone)]
    exact h
  · by_cases htwo : line.val = 2
    · rw [if_neg hone, if_pos (.inr htwo), PicPair.request, if_pos htwo]
      exact h
    · rw [if_neg hone, if_neg (not_or.mpr ⟨hone, htwo⟩)]
      exact ⟨h.pics.request line.isLt htwo, h.vectors, h.scancodes, h.drivers, h.taken⟩

theorem Irqs.Follows.key {m : Irqs σ} {b : Board σ} (h : m.Follows b) (scancode : BitVec 8) :
    Follows { m with chipset := m.chipset.key scancode } (b.key scancode) := by
  unfold Chipset.key Board.key
  rw [h.scancodes]
  by_cases hempty : b.scancodes = []
  · rw [if_pos hempty, if_pos hempty]
    exact ⟨h.pics.request (show 1 < 16 by decide) (by decide), h.vectors, rfl, h.drivers, h.taken⟩
  · rw [if_neg hempty, if_neg hempty]
    exact ⟨h.pics, h.vectors, rfl, h.drivers, h.taken⟩

theorem Irqs.Follows.enable {m : Irqs σ} {b : Board σ} (h : m.Follows b) (irq : Fin 16) :
    (m.call (picEnableIrq (BitVec.ofNat 8 irq))).Follows (b.step (.enableIrq irq)) := by
  rw [Irqs.call, (yields_picEnableIrq irq.isLt).exec_eq]
  exact ⟨h.pics.switch true, h.vectors, h.scancodes, h.drivers, h.taken⟩

theorem Irqs.Follows.disable {m : Irqs σ} {b : Board σ} (h : m.Follows b) (irq : Fin 16) :
    (m.call (picDisableIrq (BitVec.ofNat 8 irq))).Follows (b.step (.disableIrq irq)) := by
  rw [Irqs.call, (yields_picDisableIrq irq.isLt).exec_eq]
  exact ⟨h.pics.switch false, h.vectors, h.scancodes, h.drivers, h.taken⟩

theorem Irqs.Follows.step {m : Irqs σ} {b : Board σ} (h : m.Follows b)
    (hreturns : b.drivers.CallbackReturns) (event : IrqEvent) :
    ∃ m', m.step event = some m' ∧ m'.Follows (b.step event) := by
  cases event with
  | request line => exact ⟨_, rfl, h.request line⟩
  | key scancode => exact ⟨_, rfl, h.key scancode⟩
  | interrupt => exact h.interrupt fun _ => timerHandler_ne_none (h.drivers ▸ hreturns)
  | enableIrq irq => exact ⟨_, rfl, h.enable irq⟩
  | disableIrq irq => exact ⟨_, rfl, h.disable irq⟩

theorem Irqs.Follows.of_step {m m' : Irqs σ} {b : Board σ} (h : m.Follows b) {event : IrqEvent}
    (hm' : m.step event = some m') : m'.Follows (b.step event) := by
  cases event with
  | request line => exact Option.some_inj.mp hm' ▸ h.request line
  | key scancode => exact Option.some_inj.mp hm' ▸ h.key scancode
  | interrupt => exact h.of_interrupt hm'
  | enableIrq irq => exact Option.some_inj.mp hm' ▸ h.enable irq
  | disableIrq irq => exact Option.some_inj.mp hm' ▸ h.disable irq

theorem Irqs.Follows.run {m : Irqs σ} {b : Board σ} (h : m.Follows b)
    (hreturns : b.drivers.CallbackReturns) (events : List IrqEvent) :
    ∃ m', m.run events = some m' ∧ m'.Follows (b.run events) := by
  induction events generalizing m b with
  | nil => exact ⟨m, rfl, h⟩
  | cons event events ih =>
      obtain ⟨m', hstep, hfollows⟩ := h.step hreturns event
      obtain ⟨m'', hrun, hfollows'⟩ := ih hfollows (hreturns.congr (callback_step b event))
      refine ⟨m'', ?_, hfollows'⟩
      rw [Irqs.run, List.foldlM_cons, hstep]
      exact hrun

/-- Whether the callback returns or not, a run that there is follows the board. -/
theorem Irqs.Follows.of_run {m m' : Irqs σ} {b : Board σ} (h : m.Follows b) {events : List IrqEvent}
    (hm' : m.run events = some m') : m'.Follows (b.run events) := by
  induction events generalizing m b with
  | nil => exact Option.some_inj.mp hm' ▸ h
  | cons event events ih =>
      rw [Irqs.run, List.foldlM_cons] at hm'
      obtain ⟨m₁, hstep, hrun⟩ := Option.bind_eq_some_iff.mp hm'
      exact ih (h.of_step hstep) hrun

/-- Lines 0 and 1 are enabled and nothing is requested. -/
def bootArbiter : Arbiter where
  enabled line := line ≤ 1
  pending _ := false
  vector line := pic1Offset + BitVec.ofNat 8 line

def Board.start (scancodes : List (BitVec 8)) (k : Drivers σ) : Board σ where
  arbiter := bootArbiter
  scancodes := scancodes
  drivers := { k with keyboard := k.keyboard.keyboardInit }
  taken := []

theorem arbitrates_initializedPics :
    (initializedPics 0xFC 0xFF).Arbitrates bootArbiter 0 0 where
  ready := ⟨rfl, rfl⟩
  cascade := ⟨rfl, rfl⟩
  vectors := by decide
  service := ⟨rfl, rfl⟩
  masterMask := by decide
  slaveMask := by decide
  masterRequests := by decide
  slaveRequests := by decide

theorem follows_booted (c : Chipset) (k : Drivers σ) (frequency : BitVec 32) :
    (Irqs.booted c k frequency).Follows (Board.start c.scancodes k) :=
  ⟨arbitrates_initializedPics, fun _ _ => rfl, rfl, rfl, rfl⟩

/-- What happens after booting, on the board, if the callback returns. -/
theorem follows_bootRun (c : Chipset) (hreturns : k.CallbackReturns) (hfrequency : frequency ≠ 0)
    (events : List IrqEvent) : ∃ m, Irqs.bootRun c k frequency events = some m ∧
      m.Follows ((Board.start c.scancodes k).run events) := by
  rw [bootRun_eq hfrequency]
  exact (follows_booted c k frequency).run (hreturns.congr rfl) events

theorem follows_of_bootRun (hfrequency : frequency ≠ 0) {events : List IrqEvent} {m : Irqs σ}
    (hrun : Irqs.bootRun c k frequency events = some m) :
    m.Follows ((Board.start c.scancodes k).run events) := by
  rw [bootRun_eq hfrequency] at hrun
  exact (follows_booted c k frequency).of_run hrun

/-- The static variables before anything ran, without a callback. -/
def zeroDrivers : Drivers Unit :=
  ⟨0, none, ⟨fun _ => 0, 0, 0, ⟨false, false, false, false, false⟩⟩, ()⟩

/-- An interrupt is in service and the other controller waits for an initialization word. -/
def firmwareChipset : Chipset where
  pics := ⟨⟨0xFF, 0x01, 0x00, 0x08, 4, true, .ready⟩, ⟨0, 0, 0xFF, 0x70, 0, true, .icw3⟩⟩
  pit := ⟨0x36, some 0, none⟩
  scancodes := []

end SimpleOs
