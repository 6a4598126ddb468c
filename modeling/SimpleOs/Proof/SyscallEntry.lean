import SimpleOs.Cpu.Syscall

/-!
# What the dispatcher is called with

The entry path overwrites `rdi` with the call number before it saves the arguments, so the first
argument the dispatcher gets is the call number. Everything else arrives, and what the user expects
back is restored.
-/

namespace SimpleOs

open X86

variable {s : Machine} {dispatch : Machine → Machine} {next : Word}

def entryFrame (s : Machine) : List Word :=
  [s.regs .r8, s.regs .r10, s.regs .rdx, s.regs .rsi, s.regs .rax, s.regs .r11, s.regs .rcx,
   s.regs .r15, s.regs .r14, s.regs .r13, s.regs .r12, s.regs .rbx, s.regs .rbp]

def entrySave : List Instr := (syscallEntry 0).take 21

def entryRestore : List Instr := (syscallEntry 0).drop 22

theorem syscallEntry_eq (next : Word) :
    syscallEntry next = entrySave ++ .call next :: entryRestore := rfl

def entryRegs (s : Machine) : Reg → Word :=
  fun r =>
    match r with
    | .rdi => s.regs .rax
    | .rsi => s.regs .rax
    | .rdx => s.regs .rsi
    | .rcx => s.regs .rdx
    | .r8 => s.regs .r10
    | .r9 => s.regs .r8
    | r => s.regs r

theorem run_entrySave (s : Machine) :
    Frame.run entrySave ⟨s.regs, []⟩ = some ⟨entryRegs s, entryFrame s⟩ := by
  obtain ⟨regs, hrun, hregs⟩ : ∃ regs,
      Frame.run entrySave ⟨s.regs, []⟩ = some ⟨regs, entryFrame s⟩ ∧ regs = entryRegs s := by
    refine ⟨_, rfl, ?_⟩
    funext r
    cases r <;> rfl
  rw [hrun, hregs]

def exitRegs (s : Machine) (regs : Reg → Word) : Reg → Word :=
  fun r => if r ∈ [Reg.rbp, .rbx, .r12, .r13, .r14, .r15, .rcx, .r11] then s.regs r else regs r

theorem run_entryRestore (s : Machine) (regs : Reg → Word) :
    Frame.run entryRestore ⟨regs, entryFrame s⟩ = some ⟨exitRegs s regs, []⟩ := by
  obtain ⟨regs', hrun, hregs⟩ : ∃ regs',
      Frame.run entryRestore ⟨regs, entryFrame s⟩ = some ⟨regs', []⟩ ∧
        regs' = exitRegs s regs := by
    refine ⟨_, rfl, ?_⟩
    funext r
    cases r <;> rfl
  rw [hrun, hregs]

/-- At the call, thirteen words are on the stack of the user. -/
theorem run_syscallEntry_eq (s : Machine) (dispatch : Machine → Machine) (next : Word) :
    ∃ s₁, Machine.run dispatch (syscallEntry next) s =
        Machine.run dispatch (.call next :: entryRestore) s₁ ∧
      Matches (s.regs .rsp) s₁ ⟨entryRegs s, entryFrame s⟩ := by
  have hstart : Matches (s.regs .rsp) s ⟨s.regs, []⟩ := ⟨fun _ _ => rfl, trivial, by simp⟩
  rw [syscallEntry_eq]
  exact hstart.run (by simp [entrySave, syscallEntry]) (run_entrySave s) dispatch
    (.call next :: entryRestore)

/-- What the entry path does for every dispatcher that follows the calling convention when it is
called: it is called once, with the call number also as first argument, and the user gets back its
result and the registers it expects. -/
theorem run_syscallEntry (s : Machine) (dispatch : Machine → Machine) (next : Word)
    (hconv : ∀ entry ∈ (Machine.run dispatch (syscallEntry next) s).1, Conforms dispatch 104 entry) :
    ∃ entry, (Machine.run dispatch (syscallEntry next) s).1 = [entry] ∧
      arguments entry =
        [s.regs .rax, s.regs .rax, s.regs .rsi, s.regs .rdx, s.regs .r10, s.regs .r8] ∧
      (Machine.run dispatch (syscallEntry next) s).2.regs .rax = (dispatch entry).regs .rax ∧
      ∀ r ∈ [Reg.rcx, .r11, .rsp, .rbx, .rbp, .r12, .r13, .r14, .r15],
        (Machine.run dispatch (syscallEntry next) s).2.regs r = s.regs r := by
  obtain ⟨s₁, hs₁, hmatch₁⟩ := run_syscallEntry_eq s dispatch next
  have hentry : (Machine.run dispatch (syscallEntry next) s).1 =
      s₁.step (.call next) ::
        (Machine.run dispatch entryRestore (dispatch (s₁.step (.call next)))).1 := by
    rw [hs₁]
    rfl
  have hconv₁ := hconv (s₁.step (.call next)) (by rw [hentry]; exact List.mem_cons_self ..)
  have hmatch₂ := hmatch₁.call (by simp [entryFrame]) hconv₁
  obtain ⟨s₃, hs₃, hmatch₃⟩ := hmatch₂.run
    (by simp [entryFrame, entryRestore, syscallEntry]) (run_entryRestore s _) dispatch []
  rw [List.append_nil] at hs₃
  rw [hs₃] at hentry
  have hfinal : (Machine.run dispatch (syscallEntry next) s).2 = s₃ := by
    rw [hs₁]
    change (Machine.run dispatch entryRestore (dispatch (s₁.step (.call next)))).2 = s₃
    rw [hs₃]
    rfl
  refine ⟨s₁.step (.call next), hentry, ?_, ?_, ?_⟩
  · have hkeep : ∀ r, r ≠ .rsp → (s₁.step (.call next)).regs r = entryRegs s r := by
      intro r hr
      exact (Function.update_of_ne hr _ _).trans (hmatch₁.regs r hr)
    simp only [arguments, hkeep _ (show Reg.rdi ≠ .rsp by decide),
      hkeep _ (show Reg.rsi ≠ .rsp by decide), hkeep _ (show Reg.rdx ≠ .rsp by decide),
      hkeep _ (show Reg.rcx ≠ .rsp by decide), hkeep _ (show Reg.r8 ≠ .rsp by decide),
      hkeep _ (show Reg.r9 ≠ .rsp by decide)]
    rfl
  · rw [hfinal, hmatch₃.regs .rax (by decide)]
    rfl
  · intro r hr
    rw [hfinal]
    by_cases hrsp : r = .rsp
    · rw [hrsp, hmatch₃.rsp]
      simp
    · rw [hmatch₃.regs r hrsp]
      refine if_pos ?_
      simp only [List.mem_cons, List.not_mem_nil, or_false] at hr ⊢
      tauto

/-- The dispatcher is called once, with the number and the five arguments as they were on entry, and
at `sysretq` `rax` is its result and the other registers the user relies on are as they were. -/
def PassesArguments (dispatch : Machine → Machine) (next : Word) (s : Machine) : Prop :=
  ∃ entry, (Machine.run dispatch (syscallEntry next) s).1 = [entry] ∧
    arguments entry =
      [s.regs .rax, s.regs .rdi, s.regs .rsi, s.regs .rdx, s.regs .r10, s.regs .r8] ∧
    (Machine.run dispatch (syscallEntry next) s).2.regs .rax = (dispatch entry).regs .rax ∧
    ∀ r ∈ [Reg.rcx, .r11, .rsp, .rbx, .rbp, .r12, .r13, .r14, .r15],
      (Machine.run dispatch (syscallEntry next) s).2.regs r = s.regs r

/-- **Argument passing.** The entry path passes the arguments on exactly when the first argument
happens to equal the call number. -/
theorem passesArguments_iff (s : Machine) (dispatch : Machine → Machine) (next : Word)
    (hconv : ∀ entry ∈ (Machine.run dispatch (syscallEntry next) s).1,
      Conforms dispatch 104 entry) :
    PassesArguments dispatch next s ↔ s.regs .rdi = s.regs .rax := by
  obtain ⟨entry, hentry, hargs, hresult, hkept⟩ := run_syscallEntry s dispatch next hconv
  constructor
  · rintro ⟨entry', hentry', hargs', -⟩
    have hsame : entry = entry' := List.singleton_inj.mp (hentry.symm.trans hentry')
    rw [← hsame, hargs] at hargs'
    have hsecond := congrArg (·[1]?) hargs'
    exact (Option.some_inj.mp hsecond).symm
  · intro hrdi
    exact ⟨entry, hentry, by rw [hargs, hrdi], hresult, hkept⟩

def dispatchCall (s : Machine) : Machine :=
  match syscallDispatch (s.regs .rdi) (s.regs .rsi) (s.regs .rdx) (s.regs .rcx) (s.regs .r8)
      (s.regs .r9) with
  | some result => (s.set .rsp (s.regs .rsp + 8#64)).set .rax result
  | none => s.set .rsp (s.regs .rsp + 8#64)

theorem conforms_dispatchCall (frame : Nat) (s : Machine) : Conforms dispatchCall frame s := by
  unfold dispatchCall
  refine ⟨fun r hr => ?_, ?_, fun i hi => ?_⟩
  · have hrax : r ≠ .rax := by
      rintro rfl
      simp at hr
    have hrsp : r ≠ .rsp := by
      rintro rfl
      simp at hr
    split <;> simp [Machine.set, hrax, hrsp]
  · split <;> simp [Machine.set]
  · split <;> rfl

/-- A user that sleeps for as many milliseconds as the number of the call, with every other register
different. -/
def evenEntry : Machine where
  regs
    | .rax | .rdi => 4
    | .rbx => 10 | .rcx => 11 | .rdx => 12 | .rsi => 13 | .rbp => 14 | .rsp => 0x8000
    | .r8 => 15 | .r9 => 16 | .r10 => 17 | .r11 => 18 | .r12 => 19 | .r13 => 20 | .r14 => 21 | .r15 => 22
  mem := ByteMemory.zero

theorem passesArguments_evenEntry : PassesArguments dispatchCall 0 evenEntry :=
  (passesArguments_iff evenEntry dispatchCall 0 fun entry _ => conforms_dispatchCall 104 entry).mpr rfl

/-- A user about to sleep for 100 milliseconds: the dispatcher is told 4, the call number. -/
def sleepEntry : Machine :=
  ⟨Function.update (Function.update (fun _ => 0) .rax 4) .rdi 100, ByteMemory.zero⟩

theorem not_passesArguments_sleep :
    (∀ entry, Conforms dispatchCall 104 entry) ∧ ¬ PassesArguments dispatchCall 0 sleepEntry := by
  refine ⟨conforms_dispatchCall 104, ?_⟩
  rintro ⟨entry, hentry, hargs, -⟩
  obtain ⟨entry', hentry', hargs', -⟩ := run_syscallEntry sleepEntry dispatchCall 0
    fun entry _ => conforms_dispatchCall 104 entry
  have hsame : entry = entry' := List.singleton_inj.mp (hentry.symm.trans hentry')
  rw [← hsame, hargs] at hargs'
  exact absurd hargs' (by decide)

end SimpleOs
