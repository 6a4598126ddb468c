import SimpleOs.Proof.ContextSwitch

/-!
# Frames and `context_t`

`context.S` pushes `rbp` before `rbx`, and `context_t` has `rbp` below `rbx`. The code of
`context_switch` agrees with itself, so threads run on unharmed. Whoever goes through the type finds the
two registers exchanged: in every frame that was saved, and after the restore of every frame that was
written through the fields.
-/

namespace SimpleOs

open X86 (Reg Word Machine Stack load)
open ByteMemory (bytes)

variable {m : ByteMemory} {c : Machine} {f : Context} {a : Word} {tail : List Word}

namespace Context

/-- What the names of the fields promise. -/
def ofRegs (regs : Reg → Word) (rip : Word) : Context where
  r15 := regs .r15
  r14 := regs .r14
  r13 := regs .r13
  r12 := regs .r12
  rbp := regs .rbp
  rbx := regs .rbx
  rip := rip

def swapped (f : Context) : Context := { f with rbp := f.rbx, rbx := f.rbp }

theorem swapped_eq_self_iff : f.swapped = f ↔ f.rbp = f.rbx := by
  obtain ⟨⟩ := f
  simp only [swapped, mk.injEq, true_and, and_true]
  exact ⟨fun h => h.2, fun h => ⟨h.symm, h⟩⟩

theorem load_eq (h : Stack m a (f.words ++ tail)) : load m a = f := by
  obtain ⟨⟩ := f
  simp only [load, mk.injEq]
  exact ⟨h.1, h.get (k := 1) rfl, h.get (k := 2) rfl, h.get (k := 3) rfl, h.get (k := 4) rfl,
    h.get (k := 5) rfl, h.get (k := 6) rfl⟩

theorem stack_store : Stack (store m a f) a f.words :=
  X86.stack_storeWords f.words (show 7 ≤ 2 ^ 60 by decide)

/-- What is on the stack of a waiting thread, as a context. -/
theorem words_swapped_ofRegs (regs : Reg → Word) (rip : Word) :
    savedRegs.map regs ++ [rip] = (ofRegs regs rip).swapped.words := rfl

/-- What `context_switch` makes of the words of a context. -/
def owed (f : Context) (context : Word) : Owed where
  regs
    | .r15 => f.r15
    | .r14 => f.r14
    | .r13 => f.r13
    | .r12 => f.r12
    | .rbx => f.rbp
    | .rbp => f.rbx
    | _ => 0
  rsp := context + 56#64
  rip := f.rip

theorem frame_owed : (f.owed a).frame = a := BitVec.add_sub_cancel a _

theorem words_eq_owed : f.words = savedRegs.map (f.owed a).regs ++ [(f.owed a).rip] := rfl

end Context

/-- `old` is an object of its own, and `new` lies on another stack. -/
structure Separate (c : Machine) : Prop where
  old : Disjoint (bytes (c.regs .rsp - 48#64).toNat 56) (bytes (c.regs .rdi).toNat 8)
  new : Disjoint (bytes (c.regs .rsi).toNat 56)
    (bytes (c.regs .rsp - 48#64).toNat 48 ∪ bytes (c.regs .rdi).toNat 8)

theorem load_old : load (contextSwitch c).2.mem (c.regs .rdi) = c.regs .rsp - 48#64 := by
  rw [mem_contextSwitch]
  exact X86.load_store_self

/-- The frame that is saved, read through its pointer. -/
theorem load_saved (hseparate : Separate c) :
    Context.load (contextSwitch c).2.mem (load (contextSwitch c).2.mem (c.regs .rdi)) =
      (Context.ofRegs c.regs (load c.mem (c.regs .rsp))).swapped := by
  have hstack : Stack (contextSwitch c).2.mem (c.regs .rsp - 48#64)
      ((Context.ofRegs c.regs (load c.mem (c.regs .rsp))).swapped.words ++ []) := by
    rw [mem_contextSwitch, List.append_nil, ← Context.words_swapped_ofRegs]
    exact stack_pushed.congr_bytes rfl fun y hy =>
      ByteMemory.write_apply_of_notMem (Set.disjoint_left.mp hseparate.old hy)
  rw [load_old]
  exact Context.load_eq hstack

/-- What a frame that was written through the type is restored to. -/
theorem ofRegs_restored (hseparate : Separate c) (hframe : Stack c.mem (c.regs .rsi) f.words) :
    Context.ofRegs (contextSwitch c).2.regs (contextSwitch c).1 = f.swapped := by
  have hkept : Stack (contextSwitch c).2.mem (c.regs .rsi) f.words :=
    hframe.congr_bytes rfl fun y hy => by
      have hmiss := Set.disjoint_left.mp hseparate.new hy
      rw [Set.mem_union, not_or] at hmiss
      exact mem_contextSwitch_of_notMem hmiss.1 hmiss.2
  rw [Context.words_eq_owed (a := c.regs .rsi)] at hkept
  have hpaid : (f.owed (c.regs .rsi)).Paid (contextSwitch c) :=
    contextSwitch_paid Context.frame_owed.symm (Context.frame_owed.symm ▸ hkept)
  simp only [Context.ofRegs, Context.swapped, Context.mk.injEq]
  exact ⟨hpaid.regs .r15 (by decide), hpaid.regs .r14 (by decide), hpaid.regs .r13 (by decide),
    hpaid.regs .r12 (by decide), hpaid.regs .rbp (by decide), hpaid.regs .rbx (by decide), hpaid.rip⟩

/-- A switch goes through the type: the frame it saves has the registers under their names, and the
registers it restores are the fields of their names of `f`, the context that `new` points to. -/
structure MatchesContext (c : Machine) (f : Context) : Prop where
  saved : Context.load (contextSwitch c).2.mem (load (contextSwitch c).2.mem (c.regs .rdi)) =
    Context.ofRegs c.regs (load c.mem (c.regs .rsp))
  restored : Context.ofRegs (contextSwitch c).2.regs (contextSwitch c).1 = f

theorem matchesContext_iff_swapped (hseparate : Separate c)
    (hframe : Stack c.mem (c.regs .rsi) f.words) : MatchesContext c f ↔
      (Context.ofRegs c.regs (load c.mem (c.regs .rsp))).swapped =
        Context.ofRegs c.regs (load c.mem (c.regs .rsp)) ∧ f.swapped = f := by
  rw [← load_saved hseparate, ← ofRegs_restored hseparate hframe]
  exact ⟨fun h => ⟨h.saved, h.restored⟩, fun h => ⟨h.1, h.2⟩⟩

/-- **Context layout.** A switch matches `context_t` exactly when the two registers that are exchanged
are equal, both in the thread that is saved and in the context that is restored. -/
theorem matchesContext_iff (hseparate : Separate c) (hmem : c.mem = f.store m (c.regs .rsi)) :
    MatchesContext c f ↔ c.regs .rbp = c.regs .rbx ∧ f.rbp = f.rbx := by
  have hframe : Stack c.mem (c.regs .rsi) f.words := hmem ▸ Context.stack_store
  rw [matchesContext_iff_swapped hseparate hframe, Context.swapped_eq_self_iff,
    Context.swapped_eq_self_iff]
  rfl

/-- A thread with its stack at 36 KiB that switches to a context at 64 KiB. -/
def sampleRegs (rbp : Word) : Reg → Word
  | .rsp => 0x9000
  | .rdi => 0x105000
  | .rsi => 0x10000
  | .rbp => rbp
  | _ => 7

def sampleContext (rbp : Word) : Context := ⟨15, 14, 13, 12, rbp, 3, 0x100000⟩

/-- `rbp` is given for the thread and for the context, whose `rbx` are 7 and 3. -/
def sampleSwitch (rbp rbp' : Word) : Machine :=
  ⟨sampleRegs rbp, (sampleContext rbp').store ByteMemory.zero 0x10000⟩

theorem separate_sampleSwitch (rbp rbp' : Word) : Separate (sampleSwitch rbp rbp') := by
  have hold : ((sampleSwitch rbp rbp').regs .rdi).toNat = 0x105000 := rfl
  have hnew : ((sampleSwitch rbp rbp').regs .rsi).toNat = 0x10000 := rfl
  have hstack : ((sampleSwitch rbp rbp').regs .rsp - 48#64).toNat = 0x8FD0 :=
    show (0x9000#64 - 48#64).toNat = 0x8FD0 by decide
  constructor
  · rw [hold, hstack]
    exact (ByteMemory.apart_of_le (by decide) (by decide) (by decide)).disjoint
  · rw [hold, hnew, hstack, Set.disjoint_union_right]
    constructor <;> exact (ByteMemory.apart_of_le (by decide) (by decide) (by decide)).disjoint

theorem matchesContext_equal : MatchesContext (sampleSwitch 7 3) (sampleContext 3) :=
  (matchesContext_iff (separate_sampleSwitch 7 3) rfl).mpr ⟨rfl, rfl⟩

theorem not_matchesContext_exchanged : Separate (sampleSwitch 1 2) ∧
    (sampleSwitch 1 2).mem = (sampleContext 2).store ByteMemory.zero ((sampleSwitch 1 2).regs .rsi) ∧
    ¬ MatchesContext (sampleSwitch 1 2) (sampleContext 2) := by
  refine ⟨separate_sampleSwitch 1 2, rfl, fun hmatches => ?_⟩
  have hrbp := congrArg Context.rbp
    ((load_saved (separate_sampleSwitch 1 2)).symm.trans hmatches.saved)
  exact absurd hrbp (by decide)

namespace Switching

variable {slot : Option ProcPtr → Word} {s : Switching} {events : List Event} {t : Option ProcPtr}
  {o : Owed}

theorem load_context_of_waits (h : Waits slot m t o) :
    Context.load m (load m (slot t)) = (Context.ofRegs o.regs o.rip).swapped := by
  have hstack := h.stack
  rw [Context.words_swapped_ofRegs, ← List.append_nil (Context.words _)] at hstack
  rw [h.context]
  exact Context.load_eq hstack

/-- While a thread waits, its context shows `rbp` and `rbx` exchanged, whatever other threads do. -/
theorem load_context (hstart : s.owed t = none) (hrun : Lawful slot t s events)
    (howed : (s.run slot events).owed t = some o) :
    Context.load (s.run slot events).kernel.mem (load (s.run slot events).kernel.mem (slot t)) =
      (Context.ofRegs o.regs o.rip).swapped :=
  load_context_of_waits ((parked_of_none hstart).run hrun o howed)

end Switching

end SimpleOs
