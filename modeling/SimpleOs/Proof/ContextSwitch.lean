import SimpleOs.Lib.Spill
import SimpleOs.Proc.Context
import SimpleOs.Proof.ProcLife

/-!
# Threads that are switched back to

A thread that waits is described by two places in memory: the seven words at the top of its stack, and
the field `context` of its process, which points to them. `context_switch` builds them for the caller,
`process_create_kernel_thread` builds them by hand, and `context_switch` reads them when the thread is
switched to. Between the two, what other code writes has to miss these bytes; `Spares` says so. What
`context_switch` itself writes on behalf of another thread is known, so there it is about addresses only.
-/

namespace SimpleOs

open X86 (Reg Word Machine Stack load store)
open X86.Machine (exec)
open ByteMemory (bytes)

/-- The registers that `context_switch` saves, from the top of the stack on. -/
def savedRegs : List Reg := [.r15, .r14, .r13, .r12, .rbx, .rbp]

/-- The stack pointer of a thread that waits: six registers and the return address are on its stack. -/
def Owed.frame (o : Owed) : Word := o.rsp - 56#64

/-- What a thread that runs again finds is what it is owed. -/
structure Owed.Paid (o : Owed) (result : Word × Machine) : Prop where
  rip : result.1 = o.rip
  rsp : result.2.regs .rsp = o.rsp
  regs : ∀ r ∈ [Reg.rbx, .rbp, .r12, .r13, .r14, .r15], result.2.regs r = o.regs r

variable {slot : Option ProcPtr → Word} {s : Switching} {e : Switching.Event} {t : Option ProcPtr}
  {o : Owed} {m m' : ByteMemory} {c : Machine} {x top : Nat} {r : Reg}

/-- With the registers saved. -/
def pushed (c : Machine) : Machine := exec (savedRegs.reverse.map .push) c

def move (c : Machine) : Machine := exec [.movStore .rsp .rdi, .mov .rsi .rsp] c

theorem mem_move : (move c).mem = store c.mem (c.regs .rdi) (c.regs .rsp) := rfl

theorem rsp_move : (move c).regs .rsp = c.regs .rsi := by
  simp [move, exec, Machine.step, Machine.set]

theorem rsp_notMem_savedRegs : Reg.rsp ∉ savedRegs := by decide

theorem rsp_notMem_reverse : Reg.rsp ∉ savedRegs.reverse :=
  fun h => rsp_notMem_savedRegs (List.mem_reverse.mp h)

theorem exec_contextSwitchCode :
    exec contextSwitchCode c = exec (savedRegs.map .pop) (move (pushed c)) := by
  have hcode : contextSwitchCode = savedRegs.reverse.map .push ++
      ([.movStore .rsp .rdi, .mov .rsi .rsp] ++ savedRegs.map .pop) := rfl
  rw [hcode, X86.exec_append, X86.exec_append, move, pushed]

theorem regs_pushed (hr : r ≠ .rsp) : (pushed c).regs r = c.regs r :=
  X86.regs_exec_push rsp_notMem_reverse hr

theorem rsp_pushed : (pushed c).regs .rsp = c.regs .rsp - 48#64 :=
  X86.rsp_exec_push rsp_notMem_reverse

theorem stack_pushed : Stack (pushed c).mem (c.regs .rsp - 48#64)
    (savedRegs.map c.regs ++ [load c.mem (c.regs .rsp)]) := by
  have hreturn : Stack c.mem (c.regs .rsp) [load c.mem (c.regs .rsp)] := ⟨rfl, trivial⟩
  have hlen : savedRegs.reverse.length + [load c.mem (c.regs .rsp)].length ≤ 2 ^ 60 :=
    show 6 + 1 ≤ 2 ^ 60 by decide
  have hstack := X86.stack_exec_push rsp_notMem_reverse hlen hreturn
  rw [List.reverse_reverse] at hstack
  rwa [← rsp_pushed]

theorem mem_pushed (hx : x ∉ bytes (c.regs .rsp - 48#64).toNat 48) : (pushed c).mem x = c.mem x :=
  X86.mem_exec_push_of_notMem rsp_notMem_reverse hx

theorem mem_contextSwitch : (contextSwitch c).2.mem =
    store (pushed c).mem (c.regs .rdi) (c.regs .rsp - 48#64) := by
  have hrdi : (pushed c).regs .rdi = c.regs .rdi := regs_pushed (by decide)
  rw [contextSwitch, X86.mem_ret, exec_contextSwitchCode, X86.mem_exec_pop rsp_notMem_savedRegs,
    mem_move, rsp_pushed, hrdi]

/-- `context_switch` writes six words below the stack pointer, and the word that `rdi` points to. -/
theorem mem_contextSwitch_of_notMem (hstack : x ∉ bytes (c.regs .rsp - 48#64).toNat 48)
    (hslot : x ∉ bytes (c.regs .rdi).toNat 8) : (contextSwitch c).2.mem x = c.mem x := by
  rw [mem_contextSwitch]
  exact (ByteMemory.write_apply_of_notMem hslot).trans (mem_pushed hstack)

/-- It leaves the new stack with six registers and the return address popped. -/
theorem rsp_contextSwitch : (contextSwitch c).2.regs .rsp = c.regs .rsi + 56#64 := by
  calc (contextSwitch c).2.regs .rsp
      = (move (pushed c)).regs .rsp + BitVec.ofNat 64 (8 * savedRegs.length) + 8#64 := by
        rw [contextSwitch, X86.rsp_ret, exec_contextSwitchCode,
          X86.rsp_exec_pop rsp_notMem_savedRegs]
    _ = c.regs .rsi + 48#64 + 8#64 := by
        rw [rsp_move, regs_pushed (by decide)]
        rfl
    _ = c.regs .rsi + 56#64 := BitVec.add_assoc ..

/-- It returns with what lies on the new stack. -/
theorem contextSwitch_paid (hrsi : c.regs .rsi = o.frame)
    (hstack : Stack (contextSwitch c).2.mem o.frame (savedRegs.map o.regs ++ [o.rip])) :
    o.Paid (contextSwitch c) := by
  have hmoved : (move (pushed c)).regs .rsp = o.frame := by
    rw [rsp_move, regs_pushed (by decide), hrsi]
  have hmem : (contextSwitch c).2.mem = (move (pushed c)).mem := by
    rw [contextSwitch, X86.mem_ret, exec_contextSwitchCode, X86.mem_exec_pop rsp_notMem_savedRegs]
  rw [hmem, ← hmoved] at hstack
  have hleft := X86.stack_exec_pop rsp_notMem_savedRegs hstack
  rw [← exec_contextSwitchCode] at hleft
  refine ⟨X86.ret_fst hleft, ?_, fun r hr => ?_⟩
  · rw [rsp_contextSwitch, hrsi, Owed.frame, BitVec.sub_add_cancel]
  · have hne : r ≠ .rsp := by
      rintro rfl
      exact absurd hr (by decide)
    have hmem : r ∈ savedRegs := by
      revert hr
      cases r <;> decide
    rw [contextSwitch, X86.regs_ret hne, exec_contextSwitchCode,
      X86.regs_exec_pop rsp_notMem_savedRegs hstack hne, if_pos hmem]

/-- The bytes on which the return of a waiting thread depends. -/
def kept (slot : Option ProcPtr → Word) (t : Option ProcPtr) (o : Owed) : Set Nat :=
  bytes o.frame.toNat 56 ∪ bytes (slot t).toNat 8

structure Waits (slot : Option ProcPtr → Word) (m : ByteMemory) (t : Option ProcPtr) (o : Owed) :
    Prop where
  context : load m (slot t) = o.frame
  stack : Stack m o.frame (savedRegs.map o.regs ++ [o.rip])

theorem Waits.congr (h : Waits slot m t o) (hsame : ∀ x ∈ kept slot t o, m' x = m x) :
    Waits slot m' t o where
  context := (X86.load_congr_bytes fun x hx => hsame x (.inr hx)).trans h.context
  stack := h.stack.congr_bytes rfl fun x hx => hsame x (.inl hx)

/-- A thread waits once its frame is on its stack and its address is stored. -/
theorem waits_store (hstack : Stack m o.frame (savedRegs.map o.regs ++ [o.rip]))
    (hapart : Disjoint (bytes o.frame.toNat 56) (bytes (slot t).toNat 8)) :
    Waits slot (store m (slot t) o.frame) t o where
  context := X86.load_store_self
  stack := hstack.congr_bytes rfl fun _ hx =>
    ByteMemory.write_apply_of_notMem (Set.disjoint_left.mp hapart hx)

/-- A thread that has just been created. -/
def newThread (top entry : Nat) : Owed := ⟨fun _ => 0, BitVec.ofNat 64 top, BitVec.ofNat 64 entry⟩

theorem frame_newThread (htop : 56 ≤ top) (entry : Nat) :
    BitVec.ofNat 64 (top - 56) = (newThread top entry).frame := by
  apply BitVec.eq_of_toNat_eq
  rw [newThread, Owed.frame, BitVec.toNat_sub, BitVec.toNat_ofNat, BitVec.toNat_ofNat,
    BitVec.toNat_ofNat]
  omega

theorem le_stackTop (start : Nat) : 56 ≤ start * pageSize + kernelStackSize := by
  rw [kernelStackSize]
  omega

/-- `process_create_kernel_thread` pushes the entry point and six zeros. -/
theorem initialContext_eq (htop : 56 ≤ top) (entry : Nat) : Kernel.initialContext m top entry =
    X86.pushWords m (BitVec.ofNat 64 top)
      (BitVec.ofNat 64 entry :: List.replicate 6 (BitVec.ofNat 64 0)) := by
  have hpush : ∀ k < 6, ∀ m vs, X86.pushWords m (BitVec.ofNat 64 (top - 8 * (k + 1)))
      (BitVec.ofNat 64 0 :: vs) = X86.pushWords (m.write (top - 8 * (k + 2)) 8 0)
        (BitVec.ofNat 64 (top - 8 * (k + 2))) vs := by
    intro k hk m vs
    rw [X86.pushWords_ofNat (by omega), Nat.sub_sub]
    rfl
  rw [X86.pushWords_ofNat (by omega)]
  simp only [List.replicate_succ]
  rw [hpush 0 (by decide), hpush 1 (by decide), hpush 2 (by decide), hpush 3 (by decide),
    hpush 4 (by decide), hpush 5 (by decide)]
  rfl

theorem stack_initialContext (htop : 56 ≤ top) (entry : Nat) :
    Stack (Kernel.initialContext m top entry) (newThread top entry).frame
      (savedRegs.map (newThread top entry).regs ++ [(newThread top entry).rip]) := by
  rw [initialContext_eq htop]
  have hempty : Stack m (BitVec.ofNat 64 top) [] := trivial
  exact X86.stack_pushWords _ (show 7 + 0 ≤ 2 ^ 60 by decide) hempty

theorem initialContext_apply_of_notMem (htop : 56 ≤ top) {entry : Nat}
    (hx : x ∉ bytes (newThread top entry).frame.toNat 56) :
    Kernel.initialContext m top entry x = m x := by
  rw [initialContext_eq htop]
  exact X86.pushWords_apply_of_notMem hx

/-- The process points to the frame that was built. -/
theorem context_spawned {k : Kernel} {p : ProcPtr} {start entry : Nat} {name : List (BitVec 8)}
    {priority : Int} : BitVec.ofNat 64 ((k.spawned p start name entry priority).processes p).context =
      (newThread (start * pageSize + kernelStackSize) entry).frame := by
  rw [← frame_newThread (le_stackTop start), Kernel.spawned]
  simp only [Function.update_self]

namespace Switching

variable {next : Option ProcPtr} {events : List Event}

/-- The thread for which the event builds a frame. -/
def Event.parks (s : Switching) : Event → Option (Option ProcPtr)
  | .code _ _ => none
  | .create name entry priority =>
      (s.kernel.processCreateKernelThread name entry priority).1.map some
  | .switch _ => some s.running

/-- The bytes that the event may change. -/
def written (slot : Option ProcPtr → Word) (s : Switching) : Event → Set Nat
  | .code _ kernel => {x | kernel.mem x ≠ s.kernel.mem x}
  | .create name entry priority =>
      match s.kernel.processCreateKernelThread name entry priority with
      | (none, _) => ∅
      | (some p, kernel) =>
          bytes (newThread (kernel.processes p).kernelStackTop entry).frame.toNat 56 ∪
            bytes (slot (some p)).toNat 8
  | .switch _ => bytes (s.regs .rsp - 48#64).toNat 48 ∪ bytes (s.regs .rdi).toNat 8

/-- The stack and the context pointer of `t` are written by `t` only, while it waits, and its context
pointer is not on its stack. -/
structure Spares (slot : Option ProcPtr → Word) (t : Option ProcPtr) (s : Switching) (e : Event) :
    Prop where
  kept : e.parks s ≠ some t → ∀ o, s.owed t = some o → Disjoint (kept slot t o) (written slot s e)
  apart : e.parks s = some t → ∀ o, (s.step slot e).owed t = some o →
    Disjoint (bytes o.frame.toNat 56) (bytes (slot t).toNat 8)

/-- The events can follow each other from `s` on, and spare `t`. -/
def Lawful (slot : Option ProcPtr → Word) (t : Option ProcPtr) : Switching → List Event → Prop
  | _, [] => True
  | s, e :: events => (∀ next, e = .switch next → s.Calls slot next) ∧ s.Spares slot t e ∧
      Lawful slot t (s.step slot e) events

/-- What `t` is owed lies in memory. -/
def Parked (slot : Option ProcPtr → Word) (t : Option ProcPtr) (s : Switching) : Prop :=
  ∀ o, s.owed t = some o → Waits slot s.kernel.mem t o

section Create

variable {name : List (BitVec 8)} {entry start : Nat} {priority : Int} {p : ProcPtr}
  (hcreate : s.kernel.processCreateKernelThread name entry priority =
    (some p, s.kernel.spawned p start name entry priority))

include hcreate

theorem mem_create : (s.step slot (.create name entry priority)).kernel.mem =
    store (Kernel.initialContext s.kernel.mem (start * pageSize + kernelStackSize) entry)
      (slot (some p)) (newThread (start * pageSize + kernelStackSize) entry).frame := by
  rw [← frame_newThread (le_stackTop start)]
  simp only [step, hcreate, Kernel.spawned, Function.update_self]

theorem owed_create : (s.step slot (.create name entry priority)).owed =
    Function.update s.owed (some p)
      (some (newThread (start * pageSize + kernelStackSize) entry)) := by
  simp only [step, hcreate, Kernel.spawned, Function.update_self, newThread]

theorem regs_create : (s.step slot (.create name entry priority)).regs = s.regs := by
  simp only [step, hcreate]

theorem running_create : (s.step slot (.create name entry priority)).running = s.running := by
  simp only [step, hcreate]

theorem parks_create : (Event.create name entry priority).parks s = some (some p) := by
  simp only [Event.parks, hcreate, Option.map_some]

theorem written_create : written slot s (.create name entry priority) =
    bytes (newThread (start * pageSize + kernelStackSize) entry).frame.toNat 56 ∪
      bytes (slot (some p)).toNat 8 := by
  simp only [written, hcreate, Kernel.spawned, Function.update_self]

end Create

theorem mem_switch : (s.step slot (.switch next)).kernel.mem =
    (contextSwitch s.machine).2.mem := by
  simp only [step]

theorem mem_step (hx : x ∉ written slot s e) : (s.step slot e).kernel.mem x = s.kernel.mem x := by
  cases e with
  | code regs kernel => exact not_not.mp hx
  | create name entry priority =>
      obtain ⟨p, start, -, -, hcreate⟩ | hcreate := s.kernel.create_cases name entry priority
      · rw [written_create hcreate, Set.mem_union, not_or] at hx
        rw [mem_create hcreate]
        exact (ByteMemory.write_apply_of_notMem hx.2).trans
          (initialContext_apply_of_notMem (le_stackTop start) hx.1)
      · simp only [step, hcreate]
  | switch next =>
      rw [written, Set.mem_union, not_or] at hx
      rw [mem_switch]
      exact mem_contextSwitch_of_notMem hx.1 hx.2

theorem owed_of_not_parks (hparks : e.parks s ≠ some t) (ho : (s.step slot e).owed t = some o) :
    s.owed t = some o := by
  cases e with
  | code regs kernel => exact ho
  | create name entry priority =>
      obtain ⟨p, start, -, -, hcreate⟩ | hcreate := s.kernel.create_cases name entry priority
      · rw [parks_create hcreate] at hparks
        rw [owed_create hcreate] at ho
        rwa [Function.update_of_ne fun heq => hparks (congrArg some heq.symm)] at ho
      · simpa only [step, hcreate] using ho
  | switch next =>
      have hrunning : t ≠ s.running := fun heq => hparks (congrArg some heq.symm)
      simp only [step, Function.update_of_ne hrunning] at ho
      by_cases hnext : t = next
      · rw [hnext, Function.update_self] at ho
        cases ho
      · rwa [Function.update_of_ne hnext] at ho

theorem waits_of_parks (hparks : e.parks s = some t) (hspares : s.Spares slot t e)
    (hcalls : ∀ next, e = .switch next → s.Calls slot next)
    (ho : (s.step slot e).owed t = some o) : Waits slot (s.step slot e).kernel.mem t o := by
  have hapart := hspares.apart hparks o ho
  cases e with
  | code regs kernel => cases hparks
  | create name entry priority =>
      obtain ⟨p, start, -, -, hcreate⟩ | hcreate := s.kernel.create_cases name entry priority
      · obtain rfl := Option.some_inj.mp ((parks_create hcreate).symm.trans hparks)
        rw [owed_create hcreate, Function.update_self, Option.some_inj] at ho
        subst ho
        rw [mem_create hcreate]
        exact waits_store (stack_initialContext (le_stackTop start) entry) hapart
      · simp [Event.parks, hcreate] at hparks
  | switch next =>
      obtain rfl := Option.some_inj.mp hparks
      simp only [step, Function.update_self, Option.some_inj] at ho
      have hregs : o.regs = s.machine.regs := by rw [← ho]; rfl
      have hrip : o.rip = load s.machine.mem (s.machine.regs .rsp) := by rw [← ho]; rfl
      have hframe : s.machine.regs .rsp - 48#64 = o.frame := by
        apply BitVec.eq_of_toNat_eq
        rw [Owed.frame, ← ho, machine, BitVec.toNat_sub, BitVec.toNat_sub, BitVec.toNat_add]
        simp only [BitVec.toNat_ofNat]
        omega
      have hstack := stack_pushed (c := s.machine)
      have hrdi : s.machine.regs .rdi = slot s.running := (hcalls next rfl).old
      rw [hframe, ← hrip, ← hregs] at hstack
      rw [mem_switch, mem_contextSwitch, hrdi, hframe]
      exact waits_store hstack hapart

theorem parked_of_none (h : s.owed t = none) : s.Parked slot t := fun o ho => by
  rw [h] at ho
  cases ho

theorem Parked.step (h : s.Parked slot t) (hspares : s.Spares slot t e)
    (hcalls : ∀ next, e = .switch next → s.Calls slot next) :
    (s.step slot e).Parked slot t := by
  intro o ho
  by_cases hparks : e.parks s = some t
  · exact waits_of_parks hparks hspares hcalls ho
  · have hold := owed_of_not_parks hparks ho
    have hmiss := Set.disjoint_left.mp (hspares.kept hparks o hold)
    exact (h o hold).congr fun x hx => mem_step (hmiss hx)

theorem Parked.run (h : s.Parked slot t) (hrun : Lawful slot t s events) :
    (s.run slot events).Parked slot t := by
  induction events generalizing s with
  | nil => exact h
  | cons e events ih =>
      obtain ⟨hcalls, hspares, hrest⟩ := hrun
      exact ih (h.step hspares hcalls) hrest

theorem lawful_append {later : List Event} : Lawful slot t s (events ++ later) ↔
    Lawful slot t s events ∧ Lawful slot t (s.run slot events) later := by
  induction events generalizing s with
  | nil => exact ⟨fun h => ⟨trivial, h⟩, fun h => h.2⟩
  | cons e events ih =>
      rw [List.cons_append, Lawful, ih, Lawful, and_assoc, and_assoc]
      rfl

/-- A thread that waits is given back what it is owed by the switch to it. -/
theorem Parked.paid (h : s.Parked slot t) (hcall : s.Calls slot t)
    (hspares : s.Spares slot t (.switch t)) (ho : s.owed t = some o) :
    o.Paid (contextSwitch s.machine) := by
  have hother : (Event.switch t).parks s ≠ some t := fun heq =>
    hcall.other (Option.some_inj.mp heq).symm
  have hmiss := Set.disjoint_left.mp (hspares.kept hother o ho)
  have hwaits := (h o ho).congr fun x hx => mem_step (hmiss hx)
  rw [mem_switch] at hwaits
  have hrsi : s.machine.regs .rsi = o.frame := hcall.new.trans (h o ho).context
  exact contextSwitch_paid hrsi hwaits.stack

/-- **Transparency.** Whenever a thread is switched to, it goes on with what it was owed: as it called
`context_switch`, or at its entry point on an empty stack. -/
theorem contextSwitch_transparent (hstart : s.owed t = none)
    (hrun : Lawful slot t s (events ++ [.switch t])) :
    ∃ o, (s.run slot events).owed t = some o ∧
      o.Paid (contextSwitch (s.run slot events).machine) := by
  obtain ⟨hbefore, hcalls, hspares, -⟩ := lawful_append.mp hrun
  have hparked := (parked_of_none hstart).run hbefore
  have hcall := hcalls t rfl
  obtain ⟨o, ho⟩ := Option.ne_none_iff_exists'.mp hcall.waiting
  exact ⟨o, ho, hparked.paid hcall hspares ho⟩

/-- A null process pointer, and the table of processes. -/
def sampleSlot : Option ProcPtr → Word
  | none => 0x18#64
  | some p => 0x105000#64 + BitVec.ofNat 64 (160 * p)

/-- The boot code about to switch to the first thread that it has created. -/
def sampleStart : Switching where
  regs := Function.update (Function.update (Function.update (fun _ => 7) .rsp 0x9000#64)
    .rdi 0x18#64) .rsi 0x201FC8#64
  kernel := Kernel.loaded ByteMemory.zero Pmm.allConventional 0 0 0
  running := none
  owed _ := none

def firstProcess : ProcPtr := ⟨0, by decide⟩

def firstThread : Owed := newThread (512 * pageSize + kernelStackSize) 0x100000

theorem create_sampleStart : sampleStart.kernel.processCreateKernelThread [97] 0x100000 5 =
    (some firstProcess, sampleStart.kernel.spawned firstProcess 512 [97] 0x100000 5) := by
  have hslot : sampleStart.kernel.allocProcessSlot = some firstProcess := by decide
  have hstack : (sampleStart.kernel.pmm.pmmAllocPages (kernelStackSize / pageSize)).1 =
      some (512 * pageSize) := by decide
  rw [Kernel.processCreateKernelThread, hslot]
  obtain ⟨start, -, -, halloc⟩ | halloc :=
    Pmm.pmmAllocPages_cases sampleStart.kernel.pmm (kernelStackSize / pageSize)
  · rw [halloc, Option.some_inj] at hstack
    obtain rfl : start = 512 := Nat.eq_of_mul_eq_mul_right (by decide) hstack
    simp only [halloc, Kernel.spawned]
  · rw [halloc] at hstack
    cases hstack

/-- A thread about to switch to `next`, with a stack of its own. -/
def switchingRegs (s : Switching) (next : Option ProcPtr) (rsp : Word) : Reg → Word
  | .rsp => rsp
  | .rdi => sampleSlot s.running
  | .rsi => load s.kernel.mem (sampleSlot next)
  | .rbx => 1 | .rbp => 2 | .r12 => 3 | .r13 => 4 | .r14 => 5 | .r15 => 6
  | _ => 0

def sampleCreated : Switching := sampleStart.step sampleSlot (.create [97] 0x100000 5)

def startedEvents : List Event := [.create [97] 0x100000 5, .switch (some firstProcess)]

/-- The first thread runs. -/
def sampleStarted : Switching := sampleStart.run sampleSlot startedEvents

def stoppedEvents : List Event :=
  [.code (sampleStarted.switchingRegs none 0x201F00) sampleStarted.kernel, .switch none]

/-- It has switched back to the boot code. -/
def sampleStopped : Switching := sampleStarted.run sampleSlot stoppedEvents

/-- The boot code is about to switch to the first thread again. -/
def againEvents : List Event :=
  [.code (sampleStopped.switchingRegs (some firstProcess) 0x9000) sampleStopped.kernel]

/-- What the first thread is owed after its call. -/
def firstOwed : Owed :=
  ⟨sampleStarted.switchingRegs none 0x201F00, 0x201F08#64, load sampleStarted.kernel.mem 0x201F00#64⟩

theorem running_sampleCreated : sampleCreated.running = none := running_create create_sampleStart

theorem owed_sampleCreated : sampleCreated.owed (some firstProcess) = some firstThread := by
  rw [sampleCreated, owed_create create_sampleStart, Function.update_self, firstThread]

theorem owed_sampleStopped : sampleStopped.owed (some firstProcess) = some firstOwed := rfl

/-- Code that leaves memory alone spares every thread. -/
theorem spares_code (regs : Reg → Word) : s.Spares slot t (.code regs s.kernel) := by
  refine ⟨fun _ o _ => ?_, fun hparks => by cases hparks⟩
  have hnone : written slot s (.code regs s.kernel) = ∅ := by simp [written]
  rw [hnone]
  exact Set.disjoint_empty _

theorem lawful_startedEvents :
    Lawful sampleSlot (some firstProcess) sampleStart startedEvents := by
  have hframe : firstThread.frame.toNat = 0x201FC8 := by decide
  have hslot : (sampleSlot (some firstProcess)).toNat = 0x105000 := by decide
  have hspares : sampleStart.Spares sampleSlot (some firstProcess) (.create [97] 0x100000 5) := by
    refine ⟨fun _ o ho => (by cases ho), fun _ o ho => ?_⟩
    obtain rfl := Option.some_inj.mp (owed_sampleCreated.symm.trans ho)
    rw [hframe, hslot]
    exact (ByteMemory.apart_of_le (by decide) (by decide) (by decide)).disjoint
  have hparked : sampleCreated.Parked sampleSlot (some firstProcess) :=
    (parked_of_none rfl).step hspares fun next hnext => by cases hnext
  have hregs : sampleCreated.regs = sampleStart.regs := regs_create create_sampleStart
  have hother : some firstProcess ≠ sampleCreated.running := by
    rw [running_sampleCreated]
    exact Option.some_ne_none firstProcess
  have hcalls : sampleCreated.Calls sampleSlot (some firstProcess) := by
    refine ⟨?_, ?_, hother, by rw [owed_sampleCreated]; exact Option.some_ne_none firstThread⟩
    · rw [hregs, running_sampleCreated]
      decide
    · rw [(hparked firstThread owed_sampleCreated).context, hregs]
      decide
  have hswitch : sampleCreated.Spares sampleSlot (some firstProcess) (.switch (some firstProcess)) := by
    refine ⟨fun _ o ho => ?_, fun hparks => absurd (Option.some_inj.mp hparks).symm hother⟩
    obtain rfl := Option.some_inj.mp (owed_sampleCreated.symm.trans ho)
    have hstack : (sampleStart.regs .rsp - 48#64).toNat = 0x8FD0 := by decide
    have hnull : (sampleStart.regs .rdi).toNat = 0x18 := by decide
    rw [kept, hframe, hslot, written, hregs, hstack, hnull]
    simp only [Set.disjoint_union_left, Set.disjoint_union_right]
    refine ⟨⟨?_, ?_⟩, ?_, ?_⟩ <;>
      exact (ByteMemory.apart_of_le (by decide) (by decide) (by decide)).disjoint
  refine ⟨fun next hnext => (by cases hnext), hspares, fun next hnext => ?_, hswitch, trivial⟩
  obtain rfl : some firstProcess = next := by simpa using hnext
  exact hcalls

theorem lawful_stoppedEvents : Lawful sampleSlot (some firstProcess) sampleStarted stoppedEvents := by
  have howed : sampleStarted.owed none ≠ none := by
    change (sampleCreated.step sampleSlot (.switch (some firstProcess))).owed none ≠ none
    simp only [step, running_sampleCreated, Function.update_self]
    exact Option.some_ne_none _
  refine ⟨fun next hnext => (by cases hnext), spares_code _, fun next hnext => ?_, ⟨?_, ?_⟩, trivial⟩
  · obtain rfl : none = next := by simpa using hnext
    exact ⟨rfl, rfl, (Option.some_ne_none firstProcess).symm, howed⟩
  · exact fun hparks => absurd rfl hparks
  · intro _ o ho
    obtain rfl := Option.some_inj.mp (owed_sampleStopped.symm.trans ho)
    exact (ByteMemory.apart_of_le (by decide) (by decide) (by decide)).disjoint

theorem lawful_againEvents : Lawful sampleSlot (some firstProcess) sampleStopped
    (againEvents ++ [.switch (some firstProcess)]) := by
  have hother : some firstProcess ≠ sampleStopped.running := Option.some_ne_none firstProcess
  refine ⟨fun next hnext => (by cases hnext), spares_code _, fun next hnext => ?_, ⟨fun _ o ho => ?_, ?_⟩,
    trivial⟩
  · obtain rfl : some firstProcess = next := by simpa using hnext
    exact ⟨rfl, rfl, hother, Option.some_ne_none firstOwed⟩
  · obtain rfl := Option.some_inj.mp (owed_sampleStopped.symm.trans ho)
    rw [kept, written]
    simp only [Set.disjoint_union_left, Set.disjoint_union_right]
    refine ⟨⟨?_, ?_⟩, ?_, ?_⟩ <;>
      exact (ByteMemory.apart_of_le (by decide) (by decide) (by decide)).disjoint
  · exact fun hparks => absurd (Option.some_inj.mp hparks).symm hother

/-- The first thread is back behind its call, with the registers that it had. -/
theorem contextSwitch_transparent_switchedBack :
    firstOwed.Paid (contextSwitch
      (sampleStart.run sampleSlot (startedEvents ++ (stoppedEvents ++ againEvents))).machine) := by
  have hrun : Lawful sampleSlot (some firstProcess) sampleStart
      (startedEvents ++ (stoppedEvents ++ againEvents) ++ [.switch (some firstProcess)]) := by
    rw [List.append_assoc, List.append_assoc]
    exact lawful_append.mpr ⟨lawful_startedEvents,
      lawful_append.mpr ⟨lawful_stoppedEvents, lawful_againEvents⟩⟩
  obtain ⟨o, ho, hpaid⟩ := contextSwitch_transparent rfl hrun
  obtain rfl : firstOwed = o := Option.some_inj.mp ho
  exact hpaid

end Switching

end SimpleOs
