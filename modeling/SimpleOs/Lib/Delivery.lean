import SimpleOs.Lib.Spill

/-!
# Interrupt delivery

The processor's part of an interrupt in 64-bit mode: the words it pushes before the first instruction
of the handler, and those that `iretq` takes back.
-/

namespace X86

/-- Bit 1 of RFLAGS is always set. -/
structure Processor where
  regs : Reg → Word
  rip : Word
  cs : Word
  rflags : Word
  ss : Word
  rflags_fixed : rflags.getLsbD 1 = true

/-- Of the vectors up to 20 and those of external interrupts. -/
def pushesErrorCode (vector : Nat) : Bool := vector ∈ [8, 10, 11, 12, 13, 14, 17]

namespace Processor

/-- What is pushed, the last word first. -/
def interruptWords (p : Processor) (vector : Nat) (errorCode : Word) : List Word :=
  (if pushesErrorCode vector then [errorCode] else []) ++
    [p.rip, p.cs, p.rflags, p.regs .rsp, p.ss]

/-- An interrupt of user code uses the stack of the TSS, one of the kernel the stack in use. -/
def interruptStack (p : Processor) (rsp0 : Word) : Word :=
  (if p.cs &&& 3#64 = 0 then p.regs .rsp else rsp0) &&& ~~~15#64

/-- The state in which the first instruction of the handler executes. -/
def deliver (p : Processor) (rsp0 : Word) (vector : Nat) (errorCode : Word) (m : ByteMemory) :
    Machine where
  regs := Function.update p.regs .rsp
    (p.interruptStack rsp0 - BitVec.ofNat 64 (8 * (p.interruptWords vector errorCode).length))
  mem := pushWords m (p.interruptStack rsp0) (p.interruptWords vector errorCode).reverse

end Processor

def iretq (s : Machine) : Processor where
  regs := Function.update s.regs .rsp (load s.mem (s.regs .rsp + 24#64))
  rip := load s.mem (s.regs .rsp)
  cs := load s.mem (s.regs .rsp + 8#64)
  rflags := load s.mem (s.regs .rsp + 16#64) ||| 2#64
  ss := load s.mem (s.regs .rsp + 32#64)
  rflags_fixed := by simp

variable {s : Machine} {p : Processor} {rsp0 errorCode : Word} {vector : Nat} {m : ByteMemory}
  {r : Reg} {vs : List Word}

theorem regs_deliver (hr : r ≠ .rsp) : (p.deliver rsp0 vector errorCode m).regs r = p.regs r :=
  Function.update_of_ne hr ..

theorem length_interruptWords_le : (p.interruptWords vector errorCode).length ≤ 6 := by
  unfold Processor.interruptWords
  split <;> simp

theorem stack_deliver : Stack (p.deliver rsp0 vector errorCode m).mem
    ((p.deliver rsp0 vector errorCode m).regs .rsp) (p.interruptWords vector errorCode) := by
  have hlen : (p.interruptWords vector errorCode).length ≤ 6 := length_interruptWords_le
  have hempty : Stack m (p.interruptStack rsp0) [] := trivial
  have hstack := stack_pushWords (p.interruptWords vector errorCode).reverse
    (by rw [List.length_reverse, List.length_nil]; omega) hempty
  rw [List.reverse_reverse, List.append_nil, List.length_reverse] at hstack
  simpa only [Processor.deliver, Function.update_self] using hstack

theorem or_two_of_fixed {flags : Word} (h : flags.getLsbD 1 = true) : flags ||| 2#64 = flags := by
  ext i hi
  rw [BitVec.getElem_or, ← BitVec.getLsbD_eq_getElem, ← BitVec.getLsbD_eq_getElem]
  by_cases hone : i = 1
  · rw [hone, h, Bool.true_or]
  · have hzero : (2#64).getLsbD i = false := by
      rw [show 2#64 = BitVec.twoPow 64 1 from rfl, BitVec.getLsbD_twoPow]
      simp [Ne.symm hone]
    rw [hzero, Bool.or_false]

/-- `iretq` on the words pushed for `p` goes back to `p`. -/
theorem iretq_eq (hregs : ∀ r ≠ Reg.rsp, s.regs r = p.regs r)
    (hstack : Stack s.mem (s.regs .rsp)
      (p.rip :: p.cs :: p.rflags :: p.regs .rsp :: p.ss :: vs)) : iretq s = p := by
  obtain ⟨regs, rip, cs, rflags, ss, hfixed⟩ := p
  have hrsp : load s.mem (s.regs .rsp + 24#64) = regs .rsp := hstack.get (k := 3) rfl
  have hrflags : load s.mem (s.regs .rsp + 16#64) = rflags := hstack.get (k := 2) rfl
  have hupdate : Function.update s.regs .rsp (regs .rsp) = regs := by
    funext r
    by_cases hr : r = .rsp
    · rw [hr, Function.update_self]
    · rw [Function.update_of_ne hr, hregs r hr]
  simp only [iretq, Processor.mk.injEq]
  refine ⟨?_, hstack.1, hstack.get (k := 1) rfl, ?_, hstack.get (k := 4) rfl⟩
  · rw [hrsp, hupdate]
  · rw [hrflags, or_two_of_fixed hfixed]

end X86
