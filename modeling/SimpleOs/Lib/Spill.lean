import SimpleOs.Lib.X86

/-!
# Registers saved on the stack

A row of pushes puts the values of the registers below the words that are on the stack already, and
writes nothing else. A row of pops takes registers from the words on top of the stack, and writes
nothing at all. So code that saves registers and code that restores them need only agree on the list.
Words can also be put in place from the lowest address on, as the fields of a structure are.
-/

namespace X86

open Machine (exec)
open ByteMemory (bytes)

variable {s : Machine} {m : ByteMemory} {a sp : Word} {rs : List Reg} {r : Reg} {v : Word}
  {vs ws : List Word} {f : Reg → Word} {x : Nat}

theorem exec_append (code rest : List Instr) (s : Machine) :
    exec (code ++ rest) s = exec rest (exec code s) :=
  List.foldl_append

theorem run_append_of_exec {callee : Machine → Machine} {code : List Instr}
    (hcalls : ∀ i ∈ code, ∀ next, i ≠ .call next) (rest : List Instr) (s : Machine) :
    Machine.run callee (code ++ rest) s = Machine.run callee rest (exec code s) := by
  induction code generalizing s with
  | nil => rfl
  | cons i code ih =>
      obtain ⟨hfirst, hrest⟩ := List.forall_mem_cons.mp hcalls
      rw [List.cons_append]
      cases i with
      | call next => exact absurd rfl (hfirst next)
      | _ => exact ih hrest _

/-- Code without calls, run to its end. -/
theorem run_eq_exec {callee : Machine → Machine} {code : List Instr}
    (hcalls : ∀ i ∈ code, ∀ next, i ≠ .call next) (s : Machine) :
    Machine.run callee code s = ([], exec code s) := by
  calc Machine.run callee code s
      = Machine.run callee (code ++ []) s := by rw [List.append_nil]
    _ = ([], exec code s) := run_append_of_exec hcalls [] s

theorem store_ofNat (m : ByteMemory) (a w : Nat) :
    store m (BitVec.ofNat 64 a) (BitVec.ofNat 64 w) = m.write a 8 w := by
  apply ByteMemory.write_congr
  · rw [BitVec.toNat_ofNat, Nat.mod_mod]
  · rw [BitVec.toNat_ofNat]
    exact Nat.mod_mod w (2 ^ 64)

theorem Stack.congr_bytes {m' : ByteMemory} {n : Nat} (h : Stack m sp vs) (hn : 8 * vs.length = n)
    (hsame : ∀ y ∈ ByteMemory.bytes sp.toNat n, m' y = m y) : Stack m' sp vs :=
  h.congr fun i hi => hsame _ ⟨i, hn ▸ hi, rfl⟩

theorem load_congr_bytes {m' : ByteMemory}
    (hsame : ∀ y ∈ ByteMemory.bytes sp.toNat 8, m' y = m y) : load m' sp = load m sp := by
  have hword : m'.read sp.toNat 8 = m.read sp.toNat 8 :=
    ByteMemory.read_congr fun i hi => hsame _ ⟨i, hi, rfl⟩
  rw [load, load, hword]

/-- Words stored one above the other; the first one ends up at `a`. -/
def storeWords (m : ByteMemory) (a : Word) : List Word → ByteMemory
  | [] => m
  | v :: vs => storeWords (store m a v) (a + 8#64) vs

theorem storeWords_apply_of_notMem (hx : x ∉ bytes a.toNat (8 * vs.length)) :
    storeWords m a vs x = m x := by
  induction vs generalizing m a with
  | nil => rfl
  | cons v vs ih =>
      rw [List.length_cons] at hx
      have hfirst : x ∉ bytes a.toNat 8 := by
        rintro ⟨i, hi, rfl⟩
        exact hx ⟨i, by omega, rfl⟩
      have hrest : x ∉ bytes (a + 8#64).toNat (8 * vs.length) := by
        rintro ⟨i, hi, rfl⟩
        apply hx
        refine ⟨8 + i, by omega, ?_⟩
        simp only [BitVec.toNat_add, BitVec.toNat_ofNat]
        omega
      exact (ih hrest).trans (ByteMemory.write_apply_of_notMem hfirst)

theorem stack_storeWords (vs : List Word) (hlen : vs.length ≤ 2 ^ 60) :
    Stack (storeWords m a vs) a vs := by
  induction vs generalizing m a with
  | nil => trivial
  | cons v vs ih =>
      rw [List.length_cons] at hlen
      refine ⟨?_, ih (by omega)⟩
      -- the words above do not wrap around to the first one
      have hkept : ∀ y ∈ bytes a.toNat 8,
          storeWords (store m a v) (a + 8#64) vs y = store m a v y := by
        rintro _ ⟨i, hi, rfl⟩
        apply storeWords_apply_of_notMem
        rintro ⟨j, hj, heq⟩
        simp only [BitVec.toNat_add, BitVec.toNat_ofNat] at heq
        omega
      exact (load_congr_bytes hkept).trans load_store_self

theorem regs_pushWord (hr : r ≠ .rsp) : (s.pushWord v).regs r = s.regs r :=
  Function.update_of_ne hr _ _

theorem rsp_pushWord : (s.pushWord v).regs .rsp = s.regs .rsp - 8#64 := by
  simp only [Machine.pushWord, Function.update_self]

theorem stack_pushWord (h : Stack s.mem (s.regs .rsp) vs) (hlen : vs.length ≤ 2 ^ 60) (v : Word) :
    Stack (s.pushWord v).mem ((s.pushWord v).regs .rsp) (v :: vs) := by
  rw [rsp_pushWord]
  exact h.push hlen v

theorem sub_ofNat_succ (sp : Word) (n : Nat) :
    sp - 8#64 - BitVec.ofNat 64 (8 * n) = sp - BitVec.ofNat 64 (8 * (n + 1)) := by
  rw [BitVec.sub_sub, Nat.mul_succ, Nat.add_comm, BitVec.ofNat_add]

theorem add_ofNat_succ (sp : Word) (n : Nat) :
    sp + 8#64 + BitVec.ofNat 64 (8 * n) = sp + BitVec.ofNat 64 (8 * (n + 1)) := by
  rw [BitVec.add_assoc, Nat.mul_succ, Nat.add_comm (8 * n), BitVec.ofNat_add]

/-- Words pushed one after the other; the last one ends up on top. -/
def pushWords (m : ByteMemory) (sp : Word) : List Word → ByteMemory
  | [] => m
  | v :: vs => pushWords (store m (sp - 8#64) v) (sp - 8#64) vs

theorem pushWords_ofNat {a w : Nat} (ha : 8 ≤ a) :
    pushWords m (BitVec.ofNat 64 a) (BitVec.ofNat 64 w :: vs) =
      pushWords (m.write (a - 8) 8 w) (BitVec.ofNat 64 (a - 8)) vs := by
  have haddr : BitVec.ofNat 64 a - 8#64 = BitVec.ofNat 64 (a - 8) := by
    apply BitVec.eq_of_toNat_eq
    simp only [BitVec.toNat_sub, BitVec.toNat_ofNat]
    omega
  rw [pushWords, haddr, store_ofNat]

theorem stack_pushWords (vs : List Word) (hlen : vs.length + ws.length ≤ 2 ^ 60) (h : Stack m sp ws) :
    Stack (pushWords m sp vs) (sp - BitVec.ofNat 64 (8 * vs.length)) (vs.reverse ++ ws) := by
  induction vs generalizing m sp ws with
  | nil => exact (BitVec.sub_zero sp).symm ▸ h
  | cons v vs ih =>
      rw [List.length_cons] at hlen
      have hpushed := h.push (by omega) v
      have htail := ih (by rw [List.length_cons]; omega) hpushed
      rw [sub_ofNat_succ] at htail
      rw [List.length_cons, List.reverse_cons, List.append_assoc]
      exact htail

/-- Only the words below the stack pointer are written. -/
theorem pushWords_apply_of_notMem
    (hx : x ∉ bytes (sp - BitVec.ofNat 64 (8 * vs.length)).toNat (8 * vs.length)) :
    pushWords m sp vs x = m x := by
  induction vs generalizing m sp with
  | nil => rfl
  | cons v vs ih =>
      rw [List.length_cons] at hx
      have hlow : x ∉ bytes (sp - 8#64 - BitVec.ofNat 64 (8 * vs.length)).toNat (8 * vs.length) := by
        rintro ⟨i, hi, rfl⟩
        exact hx ⟨i, by omega, by rw [sub_ofNat_succ]⟩
      have htop : x ∉ bytes (sp - 8#64).toNat 8 := by
        rintro ⟨i, hi, rfl⟩
        apply hx
        refine ⟨8 * vs.length + i, by omega, ?_⟩
        simp only [BitVec.toNat_sub, BitVec.toNat_ofNat]
        omega
      exact (ih hlow).trans (ByteMemory.write_apply_of_notMem htop)

section Push

variable (hrs : Reg.rsp ∉ rs)

include hrs

theorem regs_exec_push (hr : r ≠ .rsp) : (exec (rs.map .push) s).regs r = s.regs r := by
  induction rs generalizing s with
  | nil => rfl
  | cons q rs ih =>
      obtain ⟨-, hrest⟩ := List.ne_and_not_mem_of_not_mem_cons hrs
      calc (exec ((q :: rs).map .push) s).regs r
          = (s.pushWord (s.regs q)).regs r := ih hrest
        _ = s.regs r := regs_pushWord hr

theorem rsp_exec_push :
    (exec (rs.map .push) s).regs .rsp = s.regs .rsp - BitVec.ofNat 64 (8 * rs.length) := by
  induction rs generalizing s with
  | nil => exact (BitVec.sub_zero _).symm
  | cons q rs ih =>
      obtain ⟨-, hrest⟩ := List.ne_and_not_mem_of_not_mem_cons hrs
      calc (exec ((q :: rs).map .push) s).regs .rsp
          = (s.pushWord (s.regs q)).regs .rsp - BitVec.ofNat 64 (8 * rs.length) := ih hrest
        _ = s.regs .rsp - BitVec.ofNat 64 (8 * (q :: rs).length) := by
            rw [rsp_pushWord, sub_ofNat_succ, List.length_cons]

theorem mem_exec_push :
    (exec (rs.map .push) s).mem = pushWords s.mem (s.regs .rsp) (rs.map s.regs) := by
  induction rs generalizing s with
  | nil => rfl
  | cons q rs ih =>
      obtain ⟨-, hrest⟩ := List.ne_and_not_mem_of_not_mem_cons hrs
      have hsame : rs.map (s.pushWord (s.regs q)).regs = rs.map s.regs := by
        apply List.map_congr_left
        intro r hr
        apply regs_pushWord
        rintro rfl
        exact hrest hr
      calc (exec ((q :: rs).map .push) s).mem
          = pushWords (s.pushWord (s.regs q)).mem ((s.pushWord (s.regs q)).regs .rsp)
              (rs.map (s.pushWord (s.regs q)).regs) := ih hrest
        _ = pushWords s.mem (s.regs .rsp) ((q :: rs).map s.regs) := by
            rw [hsame, rsp_pushWord]
            rfl

theorem stack_exec_push (hlen : rs.length + vs.length ≤ 2 ^ 60)
    (h : Stack s.mem (s.regs .rsp) vs) :
    Stack (exec (rs.map .push) s).mem ((exec (rs.map .push) s).regs .rsp)
      (rs.reverse.map s.regs ++ vs) := by
  have hstack := stack_pushWords (rs.map s.regs) (by rwa [List.length_map]) h
  rw [List.length_map, ← List.map_reverse] at hstack
  rwa [mem_exec_push hrs, rsp_exec_push hrs]

theorem mem_exec_push_of_notMem (hx : x ∉ bytes
    (s.regs .rsp - BitVec.ofNat 64 (8 * rs.length)).toNat (8 * rs.length)) :
    (exec (rs.map .push) s).mem x = s.mem x := by
  rw [mem_exec_push hrs]
  apply pushWords_apply_of_notMem
  rwa [List.length_map]

end Push

section Pop

variable (hrs : Reg.rsp ∉ rs)

include hrs

theorem mem_exec_pop : (exec (rs.map .pop) s).mem = s.mem := by
  induction rs generalizing s with
  | nil => rfl
  | cons q rs ih => exact ih (List.ne_and_not_mem_of_not_mem_cons hrs).2

theorem rsp_exec_pop :
    (exec (rs.map .pop) s).regs .rsp = s.regs .rsp + BitVec.ofNat 64 (8 * rs.length) := by
  induction rs generalizing s with
  | nil => exact (BitVec.add_zero _).symm
  | cons q rs ih =>
      obtain ⟨hq, hrest⟩ := List.ne_and_not_mem_of_not_mem_cons hrs
      calc (exec ((q :: rs).map .pop) s).regs .rsp
          = (s.step (.pop q)).regs .rsp + BitVec.ofNat 64 (8 * rs.length) := ih hrest
        _ = s.regs .rsp + 8#64 + BitVec.ofNat 64 (8 * rs.length) := by
            simp [Machine.step, Machine.set, hq]
        _ = s.regs .rsp + BitVec.ofNat 64 (8 * (q :: rs).length) := by
            rw [add_ofNat_succ, List.length_cons]

theorem regs_exec_pop (h : Stack s.mem (s.regs .rsp) (rs.map f ++ vs)) (hr : r ≠ .rsp) :
    (exec (rs.map .pop) s).regs r = if r ∈ rs then f r else s.regs r := by
  induction rs generalizing s with
  | nil => exact (if_neg List.not_mem_nil).symm
  | cons q rs ih =>
      obtain ⟨hq, hrest⟩ := List.ne_and_not_mem_of_not_mem_cons hrs
      obtain ⟨hhead, htail⟩ := h
      have hrsp : (s.step (.pop q)).regs .rsp = s.regs .rsp + 8#64 := by
        simp [Machine.step, Machine.set, hq]
      have hnext : (exec ((q :: rs).map .pop) s).regs r =
          if r ∈ rs then f r else (s.step (.pop q)).regs r :=
        ih hrest (by rw [hrsp]; exact htail)
      rw [hnext]
      by_cases hmem : r ∈ rs
      · rw [if_pos hmem, if_pos (List.mem_cons_of_mem q hmem)]
      · rw [if_neg hmem]
        by_cases hrq : r = q
        · rw [hrq, if_pos List.mem_cons_self]
          simp [Machine.step, Machine.set, hhead]
        · rw [if_neg (List.not_mem_cons_of_ne_of_not_mem hrq hmem)]
          simp [Machine.step, Machine.set, hrq, hr]

theorem stack_exec_pop (h : Stack s.mem (s.regs .rsp) (rs.map f ++ vs)) :
    Stack (exec (rs.map .pop) s).mem ((exec (rs.map .pop) s).regs .rsp) vs := by
  rw [mem_exec_pop hrs, rsp_exec_pop hrs]
  have htail := h.tail rs.length
  rwa [List.drop_left' (List.length_map f)] at htail

end Pop

theorem mem_ret : s.ret.2.mem = s.mem := rfl

theorem rsp_ret : s.ret.2.regs .rsp = s.regs .rsp + 8#64 := by
  simp only [Machine.ret, Machine.set, Function.update_self]

theorem regs_ret (hr : r ≠ .rsp) : s.ret.2.regs r = s.regs r := Function.update_of_ne hr ..

theorem ret_fst (h : Stack s.mem (s.regs .rsp) (v :: vs)) : s.ret.1 = v := h.1

end X86
