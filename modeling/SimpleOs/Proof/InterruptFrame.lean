import SimpleOs.Cpu.Isr

/-!
# What `interrupt_handler` is told, and what `iretq` goes back to

The words on the stack when `isr_common_stub` starts must be the interrupt number, an error code and the
five words pushed by the processor. A stub of the wrong shape for its vector puts one word too many
there, and moves every field above it: that is so for vector 17, and for no other.
-/

namespace SimpleOs

open X86
open X86.Machine (exec)

variable {s : Machine} {m : ByteMemory} {handler : Machine → Machine} {next : Word} {vector : BitVec 8}
  {errorCode rsp0 : Word} {p : Processor} {tail : List Word} {isr : Nat → Word}
  {code : Word → Option (List Instr)}

/-- The registers of the frame, from its start on. -/
def isrRegs : List Reg :=
  [.r15, .r14, .r13, .r12, .r11, .r10, .r9, .r8, .rbp, .rdi, .rsi, .rdx, .rcx, .rbx, .rax]

theorem rsp_notMem_isrRegs : Reg.rsp ∉ isrRegs := by decide

theorem rsp_notMem_isrRegs_reverse : Reg.rsp ∉ isrRegs.reverse :=
  fun h => rsp_notMem_isrRegs (List.mem_reverse.mp h)

theorem mem_isrRegs {r : Reg} (hr : r ≠ .rsp) : r ∈ isrRegs := by
  cases r <;> first | contradiction | decide

/-- The stack pointer moved down, and the address of the frame in `rdi`. -/
def align (s : Machine) : Machine := exec [.subImm 8 .rsp, .lea 8 .rsp .rdi] s

/-- In which `interrupt_handler` is called. -/
def isrCall (next : Word) (s : Machine) : Machine :=
  (align (exec (isrRegs.reverse.map .push) s)).pushWord next

def isrRestore : List Instr := .addImm 8 .rsp :: (isrRegs.map .pop ++ [.addImm 16 .rsp])

theorem isrCommonStub_eq (next : Word) : isrCommonStub next =
    (isrRegs.reverse.map .push ++ [.subImm 8 .rsp, .lea 8 .rsp .rdi]) ++
      .call next :: isrRestore := rfl

theorem run_isrCommonStub : Machine.run handler (isrCommonStub next) s =
    ([isrCall next s], exec isrRestore (handler (isrCall next s))) := by
  rw [isrCommonStub_eq, run_append_of_exec (by simp [isrRegs])]
  rw [exec_append, Machine.run, run_eq_exec (by simp [isrRestore, isrRegs])]
  rfl

def InterruptFrame.words (f : InterruptFrame) : List Word :=
  [f.r15, f.r14, f.r13, f.r12, f.r11, f.r10, f.r9, f.r8, f.rbp, f.rdi, f.rsi, f.rdx, f.rcx, f.rbx,
   f.rax, f.interruptNumber, f.errorCode, f.rip, f.cs, f.rflags, f.rsp, f.ss]

theorem InterruptFrame.load_eq {f : InterruptFrame} {a : Word} (h : Stack m a (f.words ++ tail)) :
    InterruptFrame.load m a = f := by
  obtain ⟨⟩ := f
  simp only [InterruptFrame.load, InterruptFrame.mk.injEq]
  exact ⟨h.1, h.get (k := 1) rfl, h.get (k := 2) rfl, h.get (k := 3) rfl, h.get (k := 4) rfl,
    h.get (k := 5) rfl, h.get (k := 6) rfl, h.get (k := 7) rfl, h.get (k := 8) rfl,
    h.get (k := 9) rfl, h.get (k := 10) rfl, h.get (k := 11) rfl, h.get (k := 12) rfl,
    h.get (k := 13) rfl, h.get (k := 14) rfl, h.get (k := 15) rfl, h.get (k := 16) rfl,
    h.get (k := 17) rfl, h.get (k := 18) rfl, h.get (k := 19) rfl, h.get (k := 20) rfl,
    h.get (k := 21) rfl⟩

theorem InterruptFrame.stack_load (a : Word) : Stack m a (InterruptFrame.load m a).words := by
  simp [InterruptFrame.words, InterruptFrame.load, Stack, BitVec.add_assoc]

/-- The frame that the handler should find. -/
def interruptFrame (vector : BitVec 8) (errorCode : Word) (p : Processor) : InterruptFrame where
  r15 := p.regs .r15
  r14 := p.regs .r14
  r13 := p.regs .r13
  r12 := p.regs .r12
  r11 := p.regs .r11
  r10 := p.regs .r10
  r9 := p.regs .r9
  r8 := p.regs .r8
  rbp := p.regs .rbp
  rdi := p.regs .rdi
  rsi := p.regs .rsi
  rdx := p.regs .rdx
  rcx := p.regs .rcx
  rbx := p.regs .rbx
  rax := p.regs .rax
  interruptNumber := BitVec.ofNat 64 vector.toNat
  errorCode := if pushesErrorCode vector.toNat then errorCode else 0
  rip := p.rip
  cs := p.cs
  rflags := p.rflags
  rsp := p.regs .rsp
  ss := p.ss

/-- The handler is called once, finds the frame, and if it returns with the frame as it was, execution
goes on as interrupted. -/
def Faithful (handler : Machine → Machine) (vector : BitVec 8) (errorCode : Word) (p : Processor)
    (result : Option (List Machine × Processor)) : Prop :=
  ∃ call resumed, result = some ([call], resumed) ∧
    InterruptFrame.load call.mem (call.regs .rdi) = interruptFrame vector errorCode p ∧
    ((handler call).regs .rsp = call.regs .rsp + 8#64 →
      InterruptFrame.load (handler call).mem (call.regs .rdi) = interruptFrame vector errorCode p →
        resumed = p)

theorem mem_align : (align s).mem = s.mem := rfl

theorem rsp_align : (align s).regs .rsp = s.regs .rsp - 8#64 := by
  simp [align, exec, Machine.step, Machine.set]

theorem rdi_align : (align s).regs .rdi = s.regs .rsp := by
  simp [align, exec, Machine.step, Machine.set]

/-- The word skipped for alignment counts as pushed. -/
theorem stack_align (h : Stack s.mem (s.regs .rsp) tail) : Stack (align s).mem ((align s).regs .rsp)
    (load s.mem (s.regs .rsp - 8#64) :: tail) := by
  rw [mem_align, rsp_align]
  refine ⟨rfl, ?_⟩
  rwa [BitVec.sub_add_cancel]

theorem rdi_isrCall : (isrCall next s).regs .rdi = (isrCall next s).regs .rsp + 8#64 + 8#64 := by
  rw [isrCall, rsp_pushWord, BitVec.sub_add_cancel, rsp_align, BitVec.sub_add_cancel]
  exact (regs_pushWord (by decide)).trans rdi_align

theorem stack_isrCall (h : Stack s.mem (s.regs .rsp) tail) (hlen : tail.length ≤ 8) :
    Stack (isrCall next s).mem ((isrCall next s).regs .rdi) (isrRegs.map s.regs ++ tail) := by
  have hsaved := stack_exec_push rsp_notMem_isrRegs_reverse
    (show 15 + tail.length ≤ 2 ^ 60 by omega) h
  rw [List.reverse_reverse] at hsaved
  have hlength : (isrRegs.map s.regs ++ tail).length ≤ 23 := by
    rw [List.length_append, List.length_map]
    exact Nat.add_le_add_left hlen 15
  have hcall := stack_pushWord (stack_align hsaved) (by
    rw [List.length_cons]
    exact (Nat.succ_le_succ hlength).trans (by decide)) next
  rw [rdi_isrCall]
  exact hcall.2.2

/-- After the handler, the registers and the words above them are taken off its frame. -/
theorem exec_isrRestore {f : Reg → Word} {vs : List Word} {number error : Word}
    (h : Stack s.mem (s.regs .rsp + 8#64) (isrRegs.map f ++ number :: error :: vs)) :
    (∀ r ≠ Reg.rsp, (exec isrRestore s).regs r = f r) ∧
      Stack (exec isrRestore s).mem ((exec isrRestore s).regs .rsp) vs := by
  have hfirst : Stack (exec [.addImm 8 .rsp] s).mem ((exec [.addImm 8 .rsp] s).regs .rsp)
      (isrRegs.map f ++ number :: error :: vs) := by
    simpa [exec, Machine.step, Machine.set] using h
  have hpopped := stack_exec_pop rsp_notMem_isrRegs hfirst
  have hsplit : exec isrRestore s =
      (exec (isrRegs.map .pop) (exec [.addImm 8 .rsp] s)).step (.addImm 16 .rsp) := by
    rw [isrRestore, ← List.singleton_append, exec_append, exec_append]
    rfl
  have hlast : ∀ d : Machine, ((d.step (.addImm 16 .rsp)).regs .rsp = d.regs .rsp + 16#64) ∧
      ∀ r ≠ Reg.rsp, (d.step (.addImm 16 .rsp)).regs r = d.regs r := by
    intro d
    refine ⟨?_, fun r hr => Function.update_of_ne hr ..⟩
    simp [Machine.step, Machine.set]
  rw [hsplit]
  refine ⟨fun r hr => ?_, ?_⟩
  · rw [(hlast _).2 r hr, regs_exec_pop rsp_notMem_isrRegs hfirst hr, if_pos (mem_isrRegs hr)]
  · rw [(hlast _).1]
    exact hpopped.tail 2

/-- What the stub of a vector pushes, the last word first. -/
def isrPushes (num : Nat) : List Word :=
  BitVec.ofNat 64 num :: if num ∈ errCodeStubs then [] else [0#64]

def isrStart (num : Nat) (s : Machine) : Machine :=
  exec ((isrPushes num).reverse.map .pushImm) s

theorem stack_isrStart {num : Nat} (h : Stack s.mem (s.regs .rsp) tail) (hlen : tail.length ≤ 6) :
    Stack (isrStart num s).mem ((isrStart num s).regs .rsp) (isrPushes num ++ tail) := by
  have hbound : tail.length + 1 ≤ 2 ^ 60 := (Nat.succ_le_succ hlen).trans (by decide)
  unfold isrStart isrPushes
  split
  · exact stack_pushWord h (Nat.le_of_succ_le hbound) _
  · exact stack_pushWord (stack_pushWord h (Nat.le_of_succ_le hbound) _) hbound _

theorem regs_isrStart {num : Nat} {r : Reg} (hr : r ≠ .rsp) :
    (isrStart num s).regs r = s.regs r := by
  unfold isrStart isrPushes
  split
  · exact regs_pushWord hr
  · exact (regs_pushWord hr).trans (regs_pushWord hr)

theorem isrStub_eq {num : Nat} (hnum : num ∈ errCodeStubs ∨ num ∈ noErrCodeStubs) :
    isrStub next num = some ((isrPushes num).reverse.map .pushImm ++ isrCommonStub next) := by
  unfold isrStub isrPushes
  by_cases hcode : num ∈ errCodeStubs
  · rw [if_pos hcode, if_pos hcode]
    rfl
  · rw [if_neg hcode, if_neg hcode, if_pos (hnum.resolve_left hcode)]
    rfl

theorem mem_stubs_of_isrStub {num : Nat} {stub : List Instr} (hstub : isrStub next num = some stub) :
    num ∈ errCodeStubs ++ noErrCodeStubs := by
  rw [List.mem_append]
  unfold isrStub at hstub
  split_ifs at hstub with herr hnoErr
  · exact .inl herr
  · exact .inr hnoErr

theorem run_isrStub (num : Nat) : Machine.run handler
    ((isrPushes num).reverse.map .pushImm ++ isrCommonStub next) s =
      ([isrCall next (isrStart num s)],
        exec isrRestore (handler (isrCall next (isrStart num s)))) := by
  rw [run_append_of_exec, run_isrCommonStub, isrStart]
  intro i hi
  obtain ⟨w, -, rfl⟩ := List.mem_map.mp hi
  exact fun _ => Instr.noConfusion

theorem setWidth_and_mask {n : Nat} (x mask : Word) (hmask : mask.toNat = 2 ^ n - 1) :
    (x &&& mask).setWidth n = x.setWidth n := by
  apply BitVec.eq_of_toNat_eq
  rw [BitVec.toNat_setWidth, BitVec.toNat_setWidth, BitVec.toNat_and, hmask,
    Nat.and_two_pow_sub_one_eq_mod, Nat.mod_mod]

/-- `idt_set_entry` cuts the address into three fields, and the processor joins them. -/
theorem offset_idtEntry (handler : Word) (selector : BitVec 16) (typeAttr : BitVec 8) :
    (idtEntry handler selector typeAttr).offset = handler := by
  apply BitVec.eq_of_getLsbD_eq
  intro i hi
  rw [IdtEntry.offset, idtEntry, setWidth_and_mask _ _ (by decide),
    setWidth_and_mask _ _ (by decide), setWidth_and_mask _ _ (by decide)]
  simp only [BitVec.getLsbD_append, BitVec.getLsbD_setWidth, BitVec.getLsbD_ushiftRight]
  by_cases hlow : i < 16
  · simp [hlow]
  · by_cases hmid : i - 16 < 16
    · simp [hlow, hmid, show 16 + (i - 16) = i by omega]
    · simp [hlow, hmid, show 32 + (i - 16 - 16) = i by omega, show i - 16 - 16 < 32 by omega]

theorem foldl_idtSetEntry_of_notMem {gates : List (BitVec 8 × Nat × BitVec 8)} {idt : Idt}
    (hvector : vector ∉ gates.map Prod.fst) :
    gates.foldl (fun idt gate => idtSetEntry idt gate.1 (isr gate.2.1) 0x08 gate.2.2) idt vector =
      idt vector := by
  induction gates generalizing idt with
  | nil => rfl
  | cons gate gates ih =>
      rw [List.map_cons] at hvector
      obtain ⟨hne, hrest⟩ := List.ne_and_not_mem_of_not_mem_cons hvector
      exact (ih hrest).trans (Function.update_of_ne hne ..)

theorem foldl_idtSetEntry_of_mem {gates : List (BitVec 8 × Nat × BitVec 8)} {idt : Idt}
    (hnodup : (gates.map Prod.fst).Nodup) {gate : BitVec 8 × Nat × BitVec 8} (hgate : gate ∈ gates) :
    gates.foldl (fun idt gate => idtSetEntry idt gate.1 (isr gate.2.1) 0x08 gate.2.2) idt gate.1 =
      idtEntry (isr gate.2.1) 0x08 gate.2.2 := by
  induction gates generalizing idt with
  | nil => cases hgate
  | cons first gates ih =>
      obtain ⟨hfirst, hrest⟩ := List.nodup_cons.mp hnodup
      rcases List.mem_cons.mp hgate with rfl | hgate
      · exact (foldl_idtSetEntry_of_notMem hfirst).trans (Function.update_self ..)
      · exact ih hrest hgate

/-- Every gate is present, and leads to the stub of its own number. -/
theorem idtGates_stub : ∀ gate ∈ idtGates, gate.2.1 = gate.1.toNat ∧ gate.2.2.getLsbD 7 = true ∧
    (gate.1.toNat ∈ errCodeStubs ∨ gate.1.toNat ∈ noErrCodeStubs) := by
  decide

theorem idtGates_errorCode : ∀ gate ∈ idtGates, gate.1 ≠ 17 →
    (gate.1.toNat ∈ errCodeStubs ↔ pushesErrorCode gate.1.toNat = true) := by
  decide

theorem exists_gate (hpresent : (idtInit isr vector).Present) :
    ∃ gate ∈ idtGates, gate.1 = vector := by
  by_contra hnone
  have hnotMem : vector ∉ idtGates.map Prod.fst := fun hmem => by
    obtain ⟨gate, hgate, heq⟩ := List.mem_map.mp hmem
    exact hnone ⟨gate, hgate, heq⟩
  rw [idtInit, foldl_idtSetEntry_of_notMem hnotMem] at hpresent
  exact absurd hpresent (by decide)

theorem offset_idtInit (hpresent : (idtInit isr vector).Present) :
    (idtInit isr vector).offset = isr vector.toNat := by
  obtain ⟨gate, hgate, rfl⟩ := exists_gate hpresent
  rw [idtInit, foldl_idtSetEntry_of_mem (by decide) hgate, offset_idtEntry,
    (idtGates_stub gate hgate).1]

/-- The stubs lie where their symbols say. -/
def Linked (isr : Nat → Word) (next : Word) (code : Word → Option (List Instr)) : Prop :=
  ∀ num stub, isrStub next num = some stub → code (isr num) = some stub

/-- On the way into the handler. -/
def atStub (vector : BitVec 8) (rsp0 errorCode : Word) (p : Processor) (m : ByteMemory) : Machine :=
  isrStart vector.toNat (p.deliver rsp0 vector.toNat errorCode m)

theorem interrupt_eq (hpresent : (idtInit isr vector).Present) (hlinked : Linked isr next code) :
    interrupt code handler (idtInit isr) rsp0 vector errorCode p m =
      some ([isrCall next (atStub vector rsp0 errorCode p m)],
        iretq (exec isrRestore (handler (isrCall next (atStub vector rsp0 errorCode p m))))) := by
  obtain ⟨gate, hgate, rfl⟩ := exists_gate hpresent
  have hstub : isrStub next gate.1.toNat = some _ := isrStub_eq (idtGates_stub gate hgate).2.2
  rw [interrupt, if_pos hpresent, offset_idtInit hpresent, hlinked _ _ hstub, Option.map_some]
  simp only [run_isrStub, atStub]

theorem regs_atStub {r : Reg} (hr : r ≠ .rsp) :
    (atStub vector rsp0 errorCode p m).regs r = p.regs r :=
  (regs_isrStart hr).trans (regs_deliver hr)

/-- What the handler finds at its argument. -/
theorem stack_call : Stack (isrCall next (atStub vector rsp0 errorCode p m)).mem
    ((isrCall next (atStub vector rsp0 errorCode p m)).regs .rdi)
    (isrRegs.map p.regs ++ (isrPushes vector.toNat ++ p.interruptWords vector.toNat errorCode)) := by
  have hwords : (p.interruptWords vector.toNat errorCode).length ≤ 6 := length_interruptWords_le
  have hpushes : (isrPushes vector.toNat).length ≤ 2 := by
    unfold isrPushes
    split <;> simp
  have hregs : isrRegs.map (atStub vector rsp0 errorCode p m).regs = isrRegs.map p.regs := by
    apply List.map_congr_left
    intro r hr
    apply regs_atStub
    rintro rfl
    exact rsp_notMem_isrRegs hr
  rw [← hregs]
  apply stack_isrCall (stack_isrStart stack_deliver hwords)
  rw [List.length_append]
  omega

/-- The words above the registers, where the shape of the stub fits the vector. -/
theorem isrPushes_append (hshape : vector.toNat ∈ errCodeStubs ↔
    pushesErrorCode vector.toNat = true) :
    isrPushes vector.toNat ++ p.interruptWords vector.toNat errorCode =
      [BitVec.ofNat 64 vector.toNat, if pushesErrorCode vector.toNat then errorCode else 0, p.rip,
        p.cs, p.rflags, p.regs .rsp, p.ss] := by
  unfold isrPushes Processor.interruptWords
  by_cases hcode : pushesErrorCode vector.toNat = true
  · rw [if_pos (hshape.mpr hcode), if_pos hcode, if_pos hcode]
    rfl
  · rw [if_neg fun hmem => hcode (hshape.mp hmem), if_neg hcode, if_neg hcode]
    rfl

/-- The frame found by the handler of vector 17: from the error code on, every field is one word off. -/
def shiftedFrame (errorCode : Word) (p : Processor) : InterruptFrame :=
  { interruptFrame 17 errorCode p with
    errorCode := 0
    rip := errorCode
    cs := p.rip
    rflags := p.cs
    rsp := p.rflags
    ss := p.regs .rsp }

theorem load_call (hpresent : (idtInit isr vector).Present) (hvector : vector ≠ 17) :
    InterruptFrame.load (isrCall next (atStub vector rsp0 errorCode p m)).mem
      ((isrCall next (atStub vector rsp0 errorCode p m)).regs .rdi) =
        interruptFrame vector errorCode p := by
  obtain ⟨gate, hgate, rfl⟩ := exists_gate hpresent
  have hwords : isrRegs.map p.regs ++
      (isrPushes gate.1.toNat ++ p.interruptWords gate.1.toNat errorCode) =
        (interruptFrame gate.1 errorCode p).words ++ [] := by
    rw [isrPushes_append (idtGates_errorCode gate hgate hvector), List.append_nil]
    rfl
  exact InterruptFrame.load_eq (hwords ▸ stack_call)

/-- A handler that returns with the frame as it was goes back to the interrupted state. -/
theorem iretq_isrRestore (hrsp : (handler (isrCall next s)).regs .rsp =
      (isrCall next s).regs .rsp + 8#64)
    (hframe : InterruptFrame.load (handler (isrCall next s)).mem ((isrCall next s).regs .rdi) =
      interruptFrame vector errorCode p) :
    iretq (exec isrRestore (handler (isrCall next s))) = p := by
  have hstack : Stack (handler (isrCall next s)).mem ((isrCall next s).regs .rdi)
      (interruptFrame vector errorCode p).words := hframe ▸ InterruptFrame.stack_load _
  rw [rdi_isrCall, ← hrsp] at hstack
  obtain ⟨hregs, hleft⟩ := exec_isrRestore hstack
  exact iretq_eq hregs hleft

theorem faithful_of_ne (hpresent : (idtInit isr vector).Present) (hlinked : Linked isr next code)
    (hvector : vector ≠ 17) : Faithful handler vector errorCode p
      (interrupt code handler (idtInit isr) rsp0 vector errorCode p m) :=
  ⟨_, _, interrupt_eq hpresent hlinked, load_call hpresent hvector, iretq_isrRestore⟩

theorem not_faithful_seventeen (hpresent : (idtInit isr 17).Present) (hlinked : Linked isr next code) :
    ¬ Faithful handler 17 errorCode p
      (interrupt code handler (idtInit isr) rsp0 17 errorCode p m) := by
  rintro ⟨call, resumed, hresult, hframe, -⟩
  rw [interrupt_eq hpresent hlinked, Option.some_inj, Prod.mk.injEq, List.singleton_inj] at hresult
  obtain ⟨rfl, -⟩ := hresult
  have hshifted : InterruptFrame.load (isrCall next (atStub 17 rsp0 errorCode p m)).mem
      ((isrCall next (atStub 17 rsp0 errorCode p m)).regs .rdi) = shiftedFrame errorCode p :=
    InterruptFrame.load_eq stack_call
  rw [hshifted] at hframe
  -- four words of the interrupted state would have to be equal, the error code and RFLAGS among them
  have herror : 0 = errorCode := congrArg InterruptFrame.errorCode hframe
  have hrip : errorCode = p.rip := congrArg InterruptFrame.rip hframe
  have hcs : p.rip = p.cs := congrArg InterruptFrame.cs hframe
  have hrflags : p.cs = p.rflags := congrArg InterruptFrame.rflags hframe
  have hfixed := p.rflags_fixed
  rw [← hrflags, ← hcs, ← hrip, ← herror] at hfixed
  exact absurd hfixed (by decide)

/-- **Interrupt frames.** The frame of an interrupt is faithful, and execution goes on as interrupted,
for every vector that is installed but 17. -/
theorem interrupt_faithful_iff (hpresent : (idtInit isr vector).Present)
    (hlinked : Linked isr next code) : Faithful handler vector errorCode p
      (interrupt code handler (idtInit isr) rsp0 vector errorCode p m) ↔ vector ≠ 17 := by
  constructor
  · rintro hfaithful rfl
    exact not_faithful_seventeen hpresent hlinked hfaithful
  · exact faithful_of_ne hpresent hlinked

/-- Stubs every 32 bytes from 1 MiB on. -/
def sampleIsr (num : Nat) : Word := BitVec.ofNat 64 (0x100000 + 32 * num)

def sampleCode (a : Word) : Option (List Instr) := isrStub 0x102000 ((a.toNat - 0x100000) / 32)

theorem linked_sampleCode : Linked sampleIsr 0x102000 sampleCode := by
  intro num stub hstub
  have haddr : ∀ num ∈ errCodeStubs ++ noErrCodeStubs,
      ((sampleIsr num).toNat - 0x100000) / 32 = num := by decide
  rw [sampleCode, haddr num (mem_stubs_of_isrStub hstub), hstub]

/-- Kernel code at work. -/
def sampleProcessor : Processor where
  regs r := if r = .rsp then 0x90000 else 7
  rip := 0x101000
  cs := 0x08
  rflags := 0x202
  ss := 0x10
  rflags_fixed := by decide

theorem interrupt_faithful_iff_pageFault : Faithful (fun s => s.ret.2) 14 2 sampleProcessor
    (interrupt sampleCode (fun s => s.ret.2) (idtInit sampleIsr) 0 14 2 sampleProcessor
      ByteMemory.zero) := by
  have hpresent : (idtInit sampleIsr 14).Present := by decide
  exact (interrupt_faithful_iff hpresent linked_sampleCode).mpr (by decide)

/-- An alignment check. -/
theorem not_faithful_alignmentCheck : ¬ Faithful (fun s => s.ret.2) 17 0 sampleProcessor
    (interrupt sampleCode (fun s => s.ret.2) (idtInit sampleIsr) 0 17 0 sampleProcessor
      ByteMemory.zero) := by
  have hpresent : (idtInit sampleIsr 17).Present := by decide
  exact not_faithful_seventeen hpresent linked_sampleCode

end SimpleOs
