import SimpleOs.Lib.Delivery

/-!
# Stack alignment

The System V ABI has the stack aligned to 16 bytes at a call, so at the first instruction of the callee
it stands 8 bytes below. Assembly that moves `rsp` by whole words and starts from an aligned stack meets
this exactly when the number of words on the stack is odd, so the proofs count words.
-/

namespace X86

open Machine (exec)

/-- As C code expects `rsp` at its first instruction. -/
def EntryAligned (s : Machine) : Prop := (s.regs .rsp).toNat % 16 = 8

instance : DecidablePred EntryAligned := fun s =>
  inferInstanceAs (Decidable ((s.regs .rsp).toNat % 16 = 8))

/-- There are `n` words on the stack that starts at `base`. -/
def Depth (base : Word) (n : Nat) (s : Machine) : Prop :=
  s.regs .rsp = base - BitVec.ofNat 64 (8 * n)

variable {s s' : Machine} {base : Word} {n k : Nat} {rs : List Reg} {p : Processor}
  {rsp0 errorCode : Word} {vector : Nat} {m : ByteMemory}

theorem depth_zero (hrsp : s.regs .rsp = base) : Depth base 0 s := by
  rw [Depth, hrsp]
  exact (BitVec.sub_zero base).symm

/-- All other steps below are cases of this one. -/
theorem Depth.sub (h : Depth base n s) (hrsp : s'.regs .rsp = s.regs .rsp - BitVec.ofNat 64 (8 * k)) :
    Depth base (n + k) s' := by
  rw [Depth, hrsp, h, BitVec.sub_sub, Nat.mul_add, BitVec.ofNat_add]

theorem Depth.pushWord (h : Depth base n s) (v : Word) : Depth base (n + 1) (s.pushWord v) :=
  h.sub rsp_pushWord

theorem Depth.exec_push (h : Depth base n s) (hrs : Reg.rsp ∉ rs) :
    Depth base (n + rs.length) (exec (rs.map .push) s) :=
  h.sub (rsp_exec_push hrs)

theorem Depth.exec_pushImm (h : Depth base n s) (vs : List Word) :
    Depth base (n + vs.length) (exec (vs.map .pushImm) s) := by
  induction vs generalizing n s with
  | nil => exact h
  | cons v vs ih =>
      have hrest : Depth base (n + 1 + vs.length) (exec (vs.map .pushImm) (s.pushWord v)) :=
        ih (h.pushWord v)
      rwa [Nat.add_assoc, Nat.add_comm 1] at hrest

/-- The processor pushes its words onto a stack that it has aligned. -/
theorem depth_deliver : Depth (p.interruptStack rsp0) (p.interruptWords vector errorCode).length
    (p.deliver rsp0 vector errorCode m) := by
  simp only [Depth, Processor.deliver, Function.update_self]

theorem mod_and_not_fifteen (a : Word) : (a &&& ~~~15#64).toNat % 16 = 0 := by
  have hlow : (a &&& ~~~15#64) &&& 15#64 = 0#64 := by
    rw [BitVec.and_assoc, show ~~~15#64 &&& 15#64 = 0#64 by decide, BitVec.and_zero]
  have hmod := congrArg BitVec.toNat hlow
  rwa [BitVec.toNat_and, show (15#64).toNat = 2 ^ 4 - 1 by decide,
    Nat.and_two_pow_sub_one_eq_mod] at hmod

theorem Depth.entryAligned_iff (h : Depth base n s) (hbase : base.toNat % 16 = 0) :
    EntryAligned s ↔ n % 2 = 1 := by
  have hlt := base.isLt
  rw [EntryAligned, h, BitVec.toNat_sub, BitVec.toNat_ofNat]
  omega

/-- An even number of words keeps what was so before. -/
theorem Depth.entryAligned_iff_of_even (h : Depth (s.regs .rsp) n s') (hn : n % 2 = 0) :
    EntryAligned s' ↔ EntryAligned s := by
  have hlt := (s.regs .rsp).isLt
  rw [EntryAligned, EntryAligned, h, BitVec.toNat_sub, BitVec.toNat_ofNat]
  omega

end X86
