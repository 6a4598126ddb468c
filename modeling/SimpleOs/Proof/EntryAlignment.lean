import SimpleOs.Boot.Entry
import SimpleOs.Lib.Alignment
import SimpleOs.Proof.ContextSwitch
import SimpleOs.Proof.InterruptFrame
import SimpleOs.Proof.SyscallEntry

/-!
# The stack on entry to C code

Every way from assembly into C starts from a stack that is aligned to 16 bytes, so what counts is the
number of words pushed on the way. `isr_common_stub` makes it even, by 8 bytes that it skips "for
alignment"; a new thread is entered by a `ret` on an empty stack; `_start` pushes a fake return address
in front of the real one. Only vector 17, whose stub pushes a word too many, is entered as it should be.
`syscall_entry` is another matter: it stays on the stack of the user.
-/

namespace SimpleOs

open X86
open X86.Machine (exec)

variable {s c : Machine} {base next rsp0 errorCode : Word} {n num vector : Nat} {p : Processor}
  {m : ByteMemory} {handler : Machine → Machine}

namespace Symbols

variable {symbols : Symbols} {r : Reg}

/-- The stack pointer of the kernel, before anything is pushed. -/
def stackBase (symbols : Symbols) : Word := symbols.stackTop &&& ~~~15#64

theorem rsp_setStack : (symbols.setStack s).regs .rsp = symbols.stackBase := by
  simp [setStack, stackBase, Machine.set]

theorem regs_foldl_set {rs : List Reg} : (rs.foldl (fun s r => s.set r 0) s).regs r =
    if r ∈ rs then 0 else s.regs r := by
  induction rs generalizing s with
  | nil => exact (if_neg List.not_mem_nil).symm
  | cons q rs ih =>
      rw [List.foldl_cons, ih]
      by_cases hq : r = q
      · simp [hq, Machine.set]
      · simp [hq, Machine.set]

/-- On the stack, with the BSS section cleared. -/
def stacked (symbols : Symbols) (s : Machine) : Machine :=
  symbols.setStack (symbols.clearBss (symbols.setStack (s.step (.mov .rcx .r12))))

/-- At the call. -/
def cleared (symbols : Symbols) (s : Machine) : Machine :=
  clearedRegs.foldl (fun s r => s.set r 0)
    (((symbols.stacked s).pushWord 0).step (.mov .r12 .rdi))

theorem start_eq (symbols : Symbols) (s : Machine) :
    symbols.start s = (symbols.cleared s).pushWord symbols.mainNext := rfl

theorem rsp_stacked : (symbols.stacked s).regs .rsp = symbols.stackBase := rsp_setStack

theorem rsp_cleared : (symbols.cleared s).regs .rsp = symbols.stackBase - 8#64 := by
  have hkept : (((symbols.stacked s).pushWord 0).step (.mov .r12 .rdi)).regs .rsp =
      ((symbols.stacked s).pushWord 0).regs .rsp := by simp [Machine.step, Machine.set]
  rw [cleared, regs_foldl_set, if_neg (by decide), hkept, rsp_pushWord, rsp_stacked]

theorem rsp_start : (symbols.start s).regs .rsp = symbols.stackBase - 16#64 := by
  rw [start_eq, rsp_pushWord, rsp_cleared, BitVec.sub_sub]
  rfl

end Symbols

theorem depth_isrStart (h : Depth base n s) :
    Depth base (n + (isrPushes num).length) (isrStart num s) := by
  have hpushed := h.exec_pushImm (isrPushes num).reverse
  rwa [List.length_reverse] at hpushed

/-- Fifteen registers, the word that is skipped and the return address. -/
theorem depth_isrCall (h : Depth base n s) : Depth base (n + 17) (isrCall next s) := by
  have hsaved := h.exec_push rsp_notMem_isrRegs_reverse
  have haligned := hsaved.sub (k := 1) rsp_align
  exact haligned.pushWord next

theorem length_interruptWords : (p.interruptWords num errorCode).length =
    if pushesErrorCode num then 6 else 5 := by
  unfold Processor.interruptWords
  split <;> rfl

theorem length_isrPushes : (isrPushes num).length = if num ∈ errCodeStubs then 1 else 2 := by
  unfold isrPushes
  split <;> rfl

/-- Seven words lie below the interrupted stack when the common stub starts, but for vector 17. -/
theorem length_stub : ∀ num ∈ errCodeStubs ++ noErrCodeStubs,
    ((if pushesErrorCode num then 6 else 5) + if num ∈ errCodeStubs then 1 else 2) =
      if num = 17 then 8 else 7 := by
  decide

theorem interruptStack_mod : (p.interruptStack rsp0).toNat % 16 = 0 := mod_and_not_fifteen _

theorem entryAligned_isrCall_iff (hnum : num ∈ errCodeStubs ++ noErrCodeStubs) :
    EntryAligned (isrCall next (isrStart num (p.deliver rsp0 num errorCode m))) ↔ num = 17 := by
  have hdepth : Depth (p.interruptStack rsp0) ((if num = 17 then 8 else 7) + 17)
      (isrCall next (isrStart num (p.deliver rsp0 num errorCode m))) := by
    rw [← length_stub num hnum, ← length_interruptWords, ← length_isrPushes]
    exact depth_isrCall (depth_isrStart depth_deliver)
  rw [hdepth.entryAligned_iff interruptStack_mod]
  by_cases hseventeen : num = 17
  · simp [hseventeen]
  · simp [hseventeen]

/-- The entry of a thread that was created is reached with its stack empty. -/
theorem depth_entry {name : List (BitVec 8)} {entry : Nat} {priority : Int} {k k' : Kernel}
    {q : ProcPtr} (hcreate : k.processCreateKernelThread name entry priority = (some q, k'))
    (hnew : c.regs .rsi = BitVec.ofNat 64 (k'.processes q).context) :
    ∃ start, Depth (BitVec.ofNat 64 (start * pageSize + kernelStackSize)) 0 (contextSwitch c).2 := by
  obtain ⟨start, -, -, rfl⟩ := Kernel.eq_spawned_of_create hcreate
  refine ⟨start, depth_zero ?_⟩
  rw [rsp_contextSwitch, hnew, context_spawned, Owed.frame, BitVec.sub_add_cancel, newThread]

theorem stackTop_mod (start : Nat) :
    (BitVec.ofNat 64 (start * pageSize + kernelStackSize)).toNat % 16 = 0 := by
  rw [BitVec.toNat_ofNat, pageSize, kernelStackSize]
  omega

theorem depth_start (symbols : Symbols) (s : Machine) :
    Depth symbols.stackBase 2 (symbols.start s) := Symbols.rsp_start

inductive Path where
  | interrupt (vector : Nat)
  | thread
  | start
deriving Repr, DecidableEq

/-- The machine at the first instruction of a C function that assembly has gone to. -/
inductive Entered : Path → Machine → Prop where
  /-- `interrupt_handler`, from `isr_common_stub`, whatever was interrupted. -/
  | interrupt {next rsp0 errorCode : Word} {vector : Nat} {stub : List Instr}
      {handler : Machine → Machine} {p : Processor} {m : ByteMemory} {call : Machine}
      (hstub : isrStub next vector = some stub)
      (hcall : call ∈ (Machine.run handler stub (p.deliver rsp0 vector errorCode m)).1) :
      Entered (.interrupt vector) call
  /-- The entry point of a thread, from the `ret` of the first switch to it. -/
  | thread {name : List (BitVec 8)} {entry : Nat} {priority : Int} {k k' : Kernel} {q : ProcPtr}
      {c : Machine}
      (hcreate : k.processCreateKernelThread name entry priority = (some q, k'))
      (hnew : c.regs .rsi = BitVec.ofNat 64 (k'.processes q).context)
      (hentry : (contextSwitch c).1 = BitVec.ofNat 64 entry) :
      Entered .thread (contextSwitch c).2
  /-- `kernel_main`, from `_start`. -/
  | start (symbols : Symbols) (s : Machine) : Entered .start (symbols.start s)

theorem isrCall_mem_run (handler : Machine → Machine) : isrCall next (isrStart num s) ∈
    (Machine.run handler ((isrPushes num).reverse.map .pushImm ++ isrCommonStub next) s).1 := by
  rw [run_isrStub]
  exact List.mem_singleton_self _

/-- **Entry alignment.** Of all the ways into C code, only the interrupt with vector 17 leaves the stack
as the ABI has it. -/
theorem entered_aligned_iff {path : Path} (hentered : Entered path s) :
    EntryAligned s ↔ path = .interrupt 17 := by
  cases hentered with
  | interrupt hstub hcall =>
      have hnum := mem_stubs_of_isrStub hstub
      rw [isrStub_eq (List.mem_append.mp hnum), Option.some_inj] at hstub
      rw [← hstub, run_isrStub, List.mem_singleton] at hcall
      rw [hcall, entryAligned_isrCall_iff hnum, Path.interrupt.injEq]
  | thread hcreate hnew hentry =>
      obtain ⟨start, hdepth⟩ := depth_entry hcreate hnew
      rw [hdepth.entryAligned_iff (stackTop_mod start)]
      simp
  | start symbols s =>
      rw [(depth_start symbols s).entryAligned_iff (mod_and_not_fifteen _)]
      simp

/-- The call made for an interrupt of the sample processor. -/
def sampleCall (vector : Nat) : Machine :=
  isrCall 0x102000 (isrStart vector (sampleProcessor.deliver 0 vector 0 ByteMemory.zero))

theorem entered_sampleCall (hnum : num ∈ errCodeStubs ++ noErrCodeStubs) :
    Entered (.interrupt num) (sampleCall num) :=
  .interrupt (isrStub_eq (List.mem_append.mp hnum)) (isrCall_mem_run fun s => s.ret.2)

theorem entryAligned_alignmentCheck : EntryAligned (sampleCall 17) :=
  (entered_aligned_iff (entered_sampleCall (by decide))).mpr rfl

theorem not_entryAligned_timer : Entered (.interrupt 32) (sampleCall 32) ∧
    ¬ EntryAligned (sampleCall 32) := by
  refine ⟨entered_sampleCall (by decide), fun haligned => ?_⟩
  exact absurd ((entryAligned_isrCall_iff (by decide)).mp haligned) (by decide)

/-- `syscall_entry` stays on the stack of the user, so the dispatcher finds it aligned exactly when the
user's stack was at the `syscall` as at a function's first instruction. -/
theorem entryAligned_dispatch_iff {dispatch : Machine → Machine} {call : Machine}
    (hcall : call ∈ (Machine.run dispatch (syscallEntry next) s).1) :
    EntryAligned call ↔ EntryAligned s := by
  obtain ⟨s₁, hrun, hmatch⟩ := run_syscallEntry_eq s dispatch next
  rw [hrun, Machine.run, run_eq_exec (by simp [entryRestore, syscallEntry]), List.mem_singleton]
    at hcall
  have hdepth : Depth (s.regs .rsp) 13 s₁ := hmatch.rsp
  rw [hcall]
  exact (hdepth.pushWord next).entryAligned_iff_of_even rfl

/-- What `interrupt_handler` is called with by an interrupt through the table. -/
theorem entered_of_interrupt {isr : Nat → Word} {code : Word → Option (List Instr)}
    {vector : BitVec 8} {calls : List Machine} {resumed : Processor} {call : Machine}
    (hpresent : (idtInit isr vector).Present) (hlinked : Linked isr next code)
    (hresult : interrupt code handler (idtInit isr) rsp0 vector errorCode p m =
      some (calls, resumed)) (hcall : call ∈ calls) : Entered (.interrupt vector.toNat) call := by
  obtain ⟨gate, hgate, rfl⟩ := exists_gate hpresent
  rw [interrupt_eq hpresent hlinked, Option.some_inj, Prod.mk.injEq] at hresult
  rw [← hresult.1, List.mem_singleton] at hcall
  rw [hcall, atStub]
  exact .interrupt (isrStub_eq (idtGates_stub gate hgate).2.2) (isrCall_mem_run handler)

/-- A thread that is switched to, and is still owed what it was owed when it was created. -/
theorem Switching.entered_of_run {slot : Option ProcPtr → Word} {s : Switching}
    {events : List Event} {name : List (BitVec 8)} {entry : Nat} {priority : Int} {k' : Kernel}
    {q : ProcPtr} (hstart : s.owed (some q) = none)
    (hcreate : s.kernel.processCreateKernelThread name entry priority = (some q, k'))
    (hrun : Lawful slot (some q) s (.create name entry priority :: events ++ [.switch (some q)]))
    (hfresh : (s.run slot (.create name entry priority :: events)).owed (some q) =
      (s.step slot (.create name entry priority)).owed (some q)) :
    Entered .thread (contextSwitch
      (s.run slot (.create name entry priority :: events)).machine).2 := by
  obtain ⟨hbefore, hcalls, hspares, -⟩ := lawful_append.mp hrun
  obtain ⟨start, -, -, rfl⟩ := Kernel.eq_spawned_of_create hcreate
  rw [owed_create hcreate, Function.update_self] at hfresh
  have hparked := (parked_of_none hstart).run hbefore
  have hpaid := hparked.paid (hcalls _ rfl) hspares hfresh
  refine .thread hcreate ?_ hpaid.rip
  rw [context_spawned]
  exact (hcalls _ rfl).new.trans (hparked _ hfresh).context

end SimpleOs
