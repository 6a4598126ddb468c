import SimpleOs.Lib.ByteMemory

/-!
# Straight-line x86-64 code

Enough of the machine for the assembly a kernel keeps outside C: the general registers, a memory of
bytes, and the moves and stack operations of hand-written entry paths. A call runs a given function on
the machine and is logged in the state in which its first instruction executes.

`Frame` executes the same code on a list of words in place of the stack. It is a sound view of the
machine (`Matches.step`, `Matches.run`, `Matches.call`), so code is run on frames and no address
arithmetic is left in the proofs.
-/

namespace X86

inductive Reg where
  | rax | rbx | rcx | rdx | rsi | rdi | rbp | rsp
  | r8 | r9 | r10 | r11 | r12 | r13 | r14 | r15
deriving Repr, DecidableEq

abbrev Word := BitVec 64

structure Machine where
  regs : Reg → Word
  mem : ByteMemory

def load (m : ByteMemory) (a : Word) : Word := BitVec.ofNat 64 (m.read a.toNat 8)

def store (m : ByteMemory) (a v : Word) : ByteMemory := m.write a.toNat 8 v.toNat

/-- Operands are in AT&T order: source first. -/
inductive Instr where
  | push (src : Reg)
  | pop (dst : Reg)
  | mov (src dst : Reg)
  | pushImm (value : Word)
  | movLoad (offset : Nat) (base dst : Reg)
  | movStore (src base : Reg)
  | lea (offset : Nat) (base dst : Reg)
  | addImm (value : Nat) (dst : Reg)
  | subImm (value : Nat) (dst : Reg)
  | call (next : Word)
deriving Repr, DecidableEq

namespace Machine

def set (s : Machine) (r : Reg) (v : Word) : Machine :=
  { s with regs := Function.update s.regs r v }

def pushWord (s : Machine) (v : Word) : Machine :=
  { regs := Function.update s.regs .rsp (s.regs .rsp - 8#64)
    mem := store s.mem (s.regs .rsp - 8#64) v }

/-- `call` is only the push of the return address; control then passes to the callee. -/
def step (s : Machine) : Instr → Machine
  | .push src => s.pushWord (s.regs src)
  | .pop dst => (s.set .rsp (s.regs .rsp + 8#64)).set dst (load s.mem (s.regs .rsp))
  | .mov src dst => s.set dst (s.regs src)
  | .pushImm value => s.pushWord value
  | .movLoad offset base dst => s.set dst (load s.mem (s.regs base + BitVec.ofNat 64 offset))
  | .movStore src base => { s with mem := store s.mem (s.regs base) (s.regs src) }
  | .lea offset base dst => s.set dst (s.regs base + BitVec.ofNat 64 offset)
  | .addImm value dst => s.set dst (s.regs dst + BitVec.ofNat 64 value)
  | .subImm value dst => s.set dst (s.regs dst - BitVec.ofNat 64 value)
  | .call next => s.pushWord next

/-- Run code without calls. -/
def exec (code : List Instr) (s : Machine) : Machine := code.foldl step s

/-- The address that `ret` goes to, and the state there. -/
def ret (s : Machine) : Word × Machine :=
  (load s.mem (s.regs .rsp), s.set .rsp (s.regs .rsp + 8#64))

/-- Run code in which every call goes to `callee`; the states in which it was entered are returned
with the final state. -/
def run (callee : Machine → Machine) : List Instr → Machine → List Machine × Machine
  | [], s => ([], s)
  | .call next :: code, s =>
      let result := run callee code (callee (s.step (.call next)))
      (s.step (.call next) :: result.1, result.2)
  | i :: code, s => run callee code (s.step i)

end Machine

def arguments (s : Machine) : List Word :=
  [s.regs .rdi, s.regs .rsi, s.regs .rdx, s.regs .rcx, s.regs .r8, s.regs .r9]

/-- One call from the state `s` follows the System V convention: the callee-saved registers are kept,
the return address is popped, and the `frame` bytes above it, which are the caller's, are kept. -/
structure Conforms (callee : Machine → Machine) (frame : Nat) (s : Machine) : Prop where
  saved : ∀ r ∈ [Reg.rbx, .rbp, .r12, .r13, .r14, .r15], (callee s).regs r = s.regs r
  rsp : (callee s).regs .rsp = s.regs .rsp + 8#64
  stack : ∀ i < frame, (callee s).mem (((s.regs .rsp + 8#64).toNat + i) % 2 ^ 64) =
    s.mem (((s.regs .rsp + 8#64).toNat + i) % 2 ^ 64)

variable {m m' : ByteMemory} {a b v sp : Word} {vs : List Word}

theorem load_store_self : load (store m a v) a = v := by
  unfold load store
  rw [ByteMemory.read_write_self (by decide), Nat.mod_eq_of_lt (v.isLt.trans_le (by decide))]
  simp

theorem load_store_of_apart (hab : 8 ≤ (a - b).toNat) (hba : 8 ≤ (b - a).toNat) :
    load (store m b v) a = load m a := by
  unfold load store
  rw [ByteMemory.read_write_of_apart]
  intro i hi j hj heq
  rw [BitVec.toNat_sub] at hab hba
  have ha := a.isLt
  have hb := b.isLt
  omega

def Stack (m : ByteMemory) : Word → List Word → Prop
  | _, [] => True
  | sp, v :: vs => load m sp = v ∧ Stack m (sp + 8#64) vs

theorem stack_store_below (k : Nat) (hk : k + vs.length ≤ 2 ^ 60)
    (h : Stack m (sp + BitVec.ofNat 64 (8 * k)) vs) :
    Stack (store m (sp - 8#64) v) (sp + BitVec.ofNat 64 (8 * k)) vs := by
  induction vs generalizing k with
  | nil => trivial
  | cons w vs ih =>
      rw [List.length_cons] at hk
      have hnext : sp + BitVec.ofNat 64 (8 * k) + 8#64 = sp + BitVec.ofNat 64 (8 * (k + 1)) := by
        apply BitVec.eq_of_toNat_eq
        simp only [BitVec.toNat_add, BitVec.toNat_ofNat]
        omega
      obtain ⟨hhead, htail⟩ := h
      rw [hnext] at htail
      refine ⟨?_, hnext ▸ ih (k + 1) (by omega) htail⟩
      rw [← hhead]
      have hsp := sp.isLt
      apply load_store_of_apart <;>
        · simp only [BitVec.toNat_sub, BitVec.toNat_add, BitVec.toNat_ofNat]
          omega

theorem Stack.push (hlen : vs.length ≤ 2 ^ 60) (h : Stack m sp vs) (v : Word) :
    Stack (store m (sp - 8#64) v) (sp - 8#64) (v :: vs) := by
  refine ⟨load_store_self, ?_⟩
  have hbelow := stack_store_below (v := v) 0 (by omega) (show Stack m (sp + 0#64) vs by simpa using h)
  rw [BitVec.sub_add_cancel]
  simpa using hbelow

theorem Stack.get {k : Nat} (h : Stack m sp vs) (hk : vs[k]? = some v) :
    load m (sp + BitVec.ofNat 64 (8 * k)) = v := by
  induction vs generalizing sp k with
  | nil => simp at hk
  | cons w vs ih =>
      cases k with
      | zero =>
          rw [List.getElem?_cons_zero, Option.some_inj] at hk
          rw [← hk, ← h.1]
          simp
      | succ k =>
          have hnext : sp + BitVec.ofNat 64 (8 * (k + 1)) = sp + 8#64 + BitVec.ofNat 64 (8 * k) := by
            apply BitVec.eq_of_toNat_eq
            simp only [BitVec.toNat_add, BitVec.toNat_ofNat]
            omega
          rw [hnext]
          exact ih h.2 hk

theorem Stack.congr (h : Stack m sp vs)
    (hsame : ∀ i < 8 * vs.length, m' ((sp.toNat + i) % 2 ^ 64) = m ((sp.toNat + i) % 2 ^ 64)) :
    Stack m' sp vs := by
  induction vs generalizing sp with
  | nil => trivial
  | cons w vs ih =>
      rw [List.length_cons] at hsame
      obtain ⟨hhead, htail⟩ := h
      refine ⟨?_, ih htail fun i hi => ?_⟩
      · have hword : m'.read sp.toNat 8 = m.read sp.toNat 8 :=
          ByteMemory.read_congr fun i hi => hsame i (by omega)
        rw [← hhead, load, load, hword]
      · have hbyte := hsame (8 + i) (by omega)
        have haddr : (((sp + 8#64).toNat + i) % 2 ^ 64) = (sp.toNat + (8 + i)) % 2 ^ 64 := by
          simp only [BitVec.toNat_add, BitVec.toNat_ofNat]
          omega
        rw [haddr]
        exact hbyte

theorem Stack.tail (h : Stack m sp vs) (k : Nat) :
    Stack m (sp + BitVec.ofNat 64 (8 * k)) (vs.drop k) := by
  induction k generalizing sp vs with
  | zero => simpa using h
  | succ k ih =>
      cases vs with
      | nil => trivial
      | cons v vs =>
          have hnext : sp + BitVec.ofNat 64 (8 * (k + 1)) =
              sp + 8#64 + BitVec.ofNat 64 (8 * k) := by
            apply BitVec.eq_of_toNat_eq
            simp only [BitVec.toNat_add, BitVec.toNat_ofNat]
            omega
          rw [hnext, List.drop_succ_cons]
          exact ih h.2

structure Frame where
  regs : Reg → Word
  stack : List Word

namespace Frame

def set (f : Frame) (r : Reg) (v : Word) : Frame :=
  { f with regs := Function.update f.regs r v }

/-- `none` where the code leaves the words of the frame or moves `rsp` by hand. -/
def step (f : Frame) : Instr → Option Frame
  | .push src => if src = .rsp then none else some { f with stack := f.regs src :: f.stack }
  | .pop dst =>
      match f.stack with
      | [] => none
      | v :: vs => if dst = .rsp then none else some ⟨Function.update f.regs dst v, vs⟩
  | .mov src dst => if src = .rsp ∨ dst = .rsp then none else some (f.set dst (f.regs src))
  | .pushImm value => some { f with stack := value :: f.stack }
  | .movLoad offset base dst =>
      if base = .rsp ∧ dst ≠ .rsp ∧ offset % 8 = 0 then (f.stack[offset / 8]?).map (f.set dst)
      else none
  | .addImm value dst =>
      if dst = .rsp ∧ value % 8 = 0 ∧ value / 8 ≤ f.stack.length then
        some { f with stack := f.stack.drop (value / 8) }
      else none
  | .movStore _ _ => none
  | .lea _ _ _ => none
  | .subImm _ _ => none
  | .call _ => none

def run : List Instr → Frame → Option Frame
  | [], f => some f
  | i :: code, f => (f.step i).bind (run code)

end Frame

/-- The machine holds the frame, its stack standing below `base`. -/
structure Matches (base : Word) (s : Machine) (f : Frame) : Prop where
  regs : ∀ r, r ≠ .rsp → s.regs r = f.regs r
  stack : Stack s.mem (s.regs .rsp) f.stack
  rsp : s.regs .rsp = base - BitVec.ofNat 64 (8 * f.stack.length)

variable {base : Word} {s : Machine} {f f' : Frame} {i : Instr} {code : List Instr}

theorem Matches.pushWord (h : Matches base s f) (hlen : f.stack.length ≤ 2 ^ 60) (v : Word) :
    Matches base (s.pushWord v) { f with stack := v :: f.stack } := by
  refine ⟨fun r hr => ?_, ?_, ?_⟩
  · rw [← h.regs r hr]
    exact Function.update_of_ne hr _ _
  · simp only [Machine.pushWord, Function.update_self]
    exact h.stack.push hlen v
  · simp only [Machine.pushWord, Function.update_self, h.rsp, List.length_cons]
    apply BitVec.eq_of_toNat_eq
    simp only [BitVec.toNat_sub, BitVec.toNat_ofNat]
    omega

theorem Matches.set (h : Matches base s f) {r : Reg} (hr : r ≠ .rsp) (v : Word) :
    Matches base (s.set r v) (f.set r v) := by
  have hrsp : (s.set r v).regs .rsp = s.regs .rsp := Function.update_of_ne hr.symm _ _
  refine ⟨fun q hq => ?_, ?_, ?_⟩
  · by_cases hqr : q = r
    · simp [Machine.set, Frame.set, hqr]
    · simpa [Machine.set, Frame.set, hqr] using h.regs q hq
  · rw [hrsp]
    exact h.stack
  · rw [hrsp]
    exact h.rsp

theorem Matches.drop (h : Matches base s f) {k : Nat} (hk : k ≤ f.stack.length) :
    Matches base (s.set .rsp (s.regs .rsp + BitVec.ofNat 64 (8 * k)))
      { f with stack := f.stack.drop k } := by
  refine ⟨fun r hr => ?_, ?_, ?_⟩
  · rw [← h.regs r hr]
    exact Function.update_of_ne hr _ _
  · simp only [Machine.set, Function.update_self]
    exact h.stack.tail k
  · simp only [Machine.set, Function.update_self, h.rsp, List.length_drop]
    apply BitVec.eq_of_toNat_eq
    simp only [BitVec.toNat_sub, BitVec.toNat_add, BitVec.toNat_ofNat]
    omega

theorem Matches.step (h : Matches base s f) (hlen : f.stack.length ≤ 2 ^ 60)
    (hstep : f.step i = some f') : Matches base (s.step i) f' := by
  cases i with
  | push src =>
      simp only [Frame.step, Option.ite_none_left_eq_some, Option.some_inj] at hstep
      obtain ⟨hsrc, rfl⟩ := hstep
      rw [Machine.step, h.regs src hsrc]
      exact h.pushWord hlen _
  | pop dst =>
      obtain ⟨regs, stack⟩ := f
      cases stack with
      | nil => simp [Frame.step] at hstep
      | cons v vs =>
          simp only [Frame.step, Option.ite_none_left_eq_some, Option.some_inj] at hstep
          obtain ⟨hdst, rfl⟩ := hstep
          have hpop := (h.drop (k := 1) (by simp)).set hdst v
          rw [← h.stack.1] at hpop
          exact h.stack.1 ▸ hpop
  | mov src dst =>
      simp only [Frame.step, Option.ite_none_left_eq_some, Option.some_inj, not_or] at hstep
      obtain ⟨⟨hsrc, hdst⟩, rfl⟩ := hstep
      rw [Machine.step, h.regs src hsrc]
      exact h.set hdst _
  | pushImm value =>
      obtain rfl := Option.some_inj.mp hstep
      exact h.pushWord hlen value
  | movLoad offset base' dst =>
      simp only [Frame.step, Option.ite_none_right_eq_some, Option.map_eq_some_iff] at hstep
      obtain ⟨⟨rfl, hdst, hoffset⟩, v, hv, rfl⟩ := hstep
      have hload := h.stack.get hv
      rw [show 8 * (offset / 8) = offset by omega] at hload
      rw [Machine.step, hload]
      exact h.set hdst v
  | addImm value dst =>
      simp only [Frame.step, Option.ite_none_right_eq_some, Option.some_inj] at hstep
      obtain ⟨⟨rfl, hvalue, hk⟩, rfl⟩ := hstep
      have hdrop := h.drop hk
      rwa [show 8 * (value / 8) = value by omega] at hdrop
  | movStore src base' => cases hstep
  | lea offset base' dst => cases hstep
  | subImm value dst => cases hstep
  | call next => cases hstep

theorem Frame.length_step_le (hstep : f.step i = some f') :
    f'.stack.length ≤ f.stack.length + 1 := by
  obtain ⟨regs, stack⟩ := f
  cases i with
  | push src =>
      simp only [Frame.step, Option.ite_none_left_eq_some, Option.some_inj] at hstep
      simp [← hstep.2]
  | pop dst =>
      cases stack with
      | nil => simp [Frame.step] at hstep
      | cons v vs =>
          simp only [Frame.step, Option.ite_none_left_eq_some, Option.some_inj] at hstep
          simp only [← hstep.2, List.length_cons]
          omega
  | mov src dst =>
      simp only [Frame.step, Option.ite_none_left_eq_some, Option.some_inj] at hstep
      simp [← hstep.2, Frame.set]
  | pushImm value => simp [← Option.some_inj.mp hstep]
  | movLoad offset base' dst =>
      simp only [Frame.step, Option.ite_none_right_eq_some, Option.map_eq_some_iff] at hstep
      obtain ⟨-, v, -, rfl⟩ := hstep
      simp [Frame.set]
  | addImm value dst =>
      simp only [Frame.step, Option.ite_none_right_eq_some, Option.some_inj] at hstep
      simp only [← hstep.2, List.length_drop]
      omega
  | movStore src base' => cases hstep
  | lea offset base' dst => cases hstep
  | subImm value dst => cases hstep
  | call next => cases hstep

/-- Code that runs on a frame runs on the machine. -/
theorem Matches.run (h : Matches base s f) (hlen : f.stack.length + code.length ≤ 2 ^ 60)
    (hrun : f.run code = some f') (callee : Machine → Machine) (rest : List Instr) :
    ∃ s', Machine.run callee (code ++ rest) s = Machine.run callee rest s' ∧
      Matches base s' f' := by
  induction code generalizing s f with
  | nil =>
      rw [Frame.run, Option.some_inj] at hrun
      exact ⟨s, rfl, hrun ▸ h⟩
  | cons i code ih =>
      rw [Frame.run, Option.bind_eq_some_iff] at hrun
      obtain ⟨f₁, hstep, hrun⟩ := hrun
      rw [List.length_cons] at hlen
      have hgrow := Frame.length_step_le hstep
      have hnext : Machine.run callee (i :: code ++ rest) s =
          Machine.run callee (code ++ rest) (s.step i) := by
        cases i with
        | call next => simp [Frame.step] at hstep
        | _ => rfl
      obtain ⟨s', hs', hmatch⟩ := ih (h.step (by omega) hstep) (by omega) hrun
      exact ⟨s', hnext.trans hs', hmatch⟩

theorem Matches.call (h : Matches base s f) (hlen : f.stack.length ≤ 2 ^ 60)
    {callee : Machine → Machine} {next : Word}
    (hconv : Conforms callee (8 * f.stack.length) (s.step (.call next))) :
    Matches base (callee (s.step (.call next))) ⟨(callee (s.step (.call next))).regs, f.stack⟩ := by
  have hrsp : (s.step (.call next)).regs .rsp + 8#64 = s.regs .rsp := by
    simp only [Machine.step, Machine.pushWord, Function.update_self, BitVec.sub_add_cancel]
  have hback : (callee (s.step (.call next))).regs .rsp = s.regs .rsp := by
    rw [hconv.rsp, hrsp]
  have hpushed := (h.pushWord hlen next).stack.2
  have hkept := hconv.stack
  refine ⟨fun r _ => rfl, ?_, ?_⟩
  · rw [hback]
    rw [hrsp] at hkept
    exact Stack.congr (hrsp ▸ hpushed) hkept
  · rw [hback]
    exact h.rsp

end X86
