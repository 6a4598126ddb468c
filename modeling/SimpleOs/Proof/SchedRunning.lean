import SimpleOs.Proof.SchedFrame

/-!
# At most one process runs

A process is made to run in one place only, at the end of `schedule`, which makes it the current process
in the same breath and has taken the processor from the process that was current before. Everything else
writes other states, so that whoever runs is the current process. This needs nothing of the lists: they
may be damaged by adding and removing whatever one likes, and the processes in them destroyed.
-/

namespace SimpleOs.Kernel

variable {k k' k₁ : Kernel} {p q : ProcPtr} {fuel : Nat}

def Runs (k : Kernel) (p : ProcPtr) : Prop := (k.processes p).state = .running

/-- Who runs is the current process. -/
def RunsCurrent (k : Kernel) : Prop := ∀ p, k.Runs p → k.currentProcess = some p

/-- A step that makes no process run and leaves the current process what it is. -/
structure StartsNobody (k k' : Kernel) : Prop where
  current : k'.currentProcess = k.currentProcess
  runs : ∀ p, k'.Runs p → k.Runs p

theorem StartsNobody.refl (k : Kernel) : StartsNobody k k := ⟨rfl, fun _ h => h⟩

theorem StartsNobody.trans (h : StartsNobody k k') (h' : StartsNobody k' k₁) : StartsNobody k k₁ :=
  ⟨h'.current.trans h.current, fun p hp => h.runs p (h'.runs p hp)⟩

theorem StartsNobody.runsCurrent (h : StartsNobody k k') (hk : k.RunsCurrent) : k'.RunsCurrent :=
  fun p hp => h.current.trans (hk p (h.runs p hp))

theorem SameClock.startsNobody (h : SameClock k k') (hruns : NoneBecome .running k k') :
    StartsNobody k k' := ⟨h.current, hruns⟩

theorem startsNobody_schedulerAdd (hadd : k.schedulerAdd p = some k') : StartsNobody k k' :=
  (sameClock_schedulerAdd hadd).startsNobody (noneBecome_schedulerAdd (by simp) hadd).1

theorem startsNobody_blockProcess (k : Kernel) (p : ProcPtr) : StartsNobody k (k.blockProcess p) :=
  (sameClock_blockProcess k p).startsNobody (noneBecome_blockProcess (by simp) k p)

theorem startsNobody_wakeSleepers (hwake : k.wakeSleepers fuel = some k') : StartsNobody k k' :=
  (sameClock_wakeSleepers hwake).startsNobody (noneBecome_wakeSleepers (by simp) hwake)

theorem startsNobody_expireSlice (k : Kernel) : StartsNobody k k.expireSlice.1 :=
  (sameClock_expireSlice k).startsNobody (noneBecome_expireSlice k)

theorem startsNobody_create (k : Kernel) (name : List (BitVec 8)) (entry : Nat) (priority : Int) :
    StartsNobody k (k.processCreateKernelThread name entry priority).2 :=
  (sameClock_create k name entry priority).startsNobody (noneBecome_create (by simp) k name entry _)

theorem startsNobody_destroy (k : Kernel) (p : ProcPtr) : StartsNobody k (k.processDestroy p) := by
  refine ⟨?_, noneBecome_destroy (by simp) k p⟩
  unfold processDestroy
  simp only
  split <;> rfl

theorem startsNobody_exit (k : Kernel) (code : Int) : StartsNobody k (k.processExit code) := by
  refine ⟨?_, noneBecome_exit (by simp) k code⟩
  unfold processExit
  cases hcurrent : k.currentProcess with
  | none => exact hcurrent
  | some c => exact hcurrent

/-- With the current process back in its queue nobody runs. -/
theorem RunsCurrent.requeueCurrent (h : k.RunsCurrent) (hrun : k.requeueCurrent = some k') :
    ∀ p, ¬ k'.Runs p := by
  intro p hp
  unfold Kernel.requeueCurrent at hrun
  split at hrun
  · rename_i hnone
    obtain rfl := Option.some_inj.mp hrun
    cases hnone.symm.trans (h p hp)
  · rename_i c hc
    split at hrun
    · obtain ⟨hnone, hself⟩ := noneBecome_schedulerAdd (s := .running) (by simp) hrun
      have hready : NoneBecome .running k (k.setState c .ready) := noneBecome_setState k c (by simp)
      obtain rfl := Option.some_inj.mp (hc.symm.trans (h p (hready p (hnone p hp))))
      rw [show (k'.processes c).state = .running from hp] at hself
      simp at hself
    · rename_i hstopped
      obtain rfl := Option.some_inj.mp hrun
      obtain rfl := Option.some_inj.mp (hc.symm.trans (h p hp))
      exact hstopped hp

theorem runsCurrent_switchTo (hnobody : ∀ p, ¬ k.Runs p) (next : ProcPtr) :
    (k.switchTo next).RunsCurrent := by
  have hcurrent : (k.switchTo next).currentProcess = some next := by
    unfold switchTo
    simp only
    split <;> rfl
  intro p hp
  rw [hcurrent]
  by_contra hne
  have hother : p ≠ next := fun heq => hne (congrArg some heq.symm)
  rw [Runs, processes_switchTo] at hp
  refine hnobody p (noneBecome_schedulerRemove k next p ?_)
  simpa [Runs, setState, modify, hother] using hp

theorem RunsCurrent.schedule (h : k.RunsCurrent) (hrun : k.schedule = some k') :
    k'.RunsCurrent := by
  obtain rfl | ⟨next, k₁, -, -, hrequeue, rfl⟩ := schedule_cases hrun
  · exact h
  · exact runsCurrent_switchTo (h.requeueCurrent hrequeue) next

theorem runsCurrent_schedulerInit (k : Kernel) (idleEntry : Nat) :
    (k.schedulerInit idleEntry).RunsCurrent := by
  unfold schedulerInit
  simp only
  generalize hk₀ : processInit _ = k₀
  have hnobody : ∀ p, ¬ k₀.Runs p := by
    intro p
    rw [← hk₀]
    simp [Runs, processInit]
  have hcreate := startsNobody_create k₀ [105, 100, 108, 101] idleEntry schedPriorityIdle
  rcases hresult : k₀.processCreateKernelThread [105, 100, 108, 101] idleEntry schedPriorityIdle
    with ⟨idle, k₁⟩
  rw [hresult] at hcreate
  have hnobody₁ : ∀ p, ¬ k₁.Runs p := fun p hp => hnobody p (hcreate.runs p hp)
  intro p hp
  cases idle with
  | none => exact absurd hp (hnobody₁ p)
  | some d =>
      have hready : NoneBecome .running { k₁ with idleProc := some d }
          (setState { k₁ with idleProc := some d } d .ready) := noneBecome_setState _ d (by simp)
      exact absurd (hready p hp) (hnobody₁ p)

/-- A call of `scheduler.c` or `process.c`, with whatever process as its argument; `none` is null. -/
inductive ProcCall where
  | create (name : List (BitVec 8)) (entry : Nat) (priority : Int)
  | destroy (proc : Option ProcPtr)
  | exit (code : Int)
  | add (proc : Option ProcPtr)
  | remove (proc : Option ProcPtr)
  | block (proc : Option ProcPtr)
  | unblock (proc : Option ProcPtr)
  | yield
  | sleep (ticks : X86.Word)
  | start
  | tick
  | schedule
deriving Repr, DecidableEq

/-- A function that returns at once when its argument is null. -/
def unlessNull (k : Kernel) (f : ProcPtr → Option Kernel) : Option ProcPtr → Option Kernel
  | none => some k
  | some p => f p

/-- `none` when the call does not return, or not within `fuel` turns of the wake loop. -/
def procStep (k : Kernel) (fuel : Nat) : ProcCall → Option Kernel
  | .create name entry priority => some (k.processCreateKernelThread name entry priority).2
  | .destroy proc => k.unlessNull (fun p => some (k.processDestroy p)) proc
  | .exit code => some (k.processExit code)
  | .add proc => k.unlessNull k.schedulerAdd proc
  | .remove proc => k.unlessNull (fun p => some (k.schedulerRemove p)) proc
  | .block proc => k.schedulerBlock proc
  | .unblock proc => k.unlessNull k.schedulerUnblock proc
  | .yield => k.schedulerYield
  | .sleep ticks => k.schedulerSleep ticks
  | .start => k.schedulerStart
  | .tick => k.schedulerTick fuel
  | .schedule => k.schedule

theorem RunsCurrent.unlessNull {f : ProcPtr → Option Kernel} {proc : Option ProcPtr}
    (h : k.RunsCurrent) (hf : ∀ p k', f p = some k' → k'.RunsCurrent)
    (hrun : k.unlessNull f proc = some k') : k'.RunsCurrent := by
  cases proc with
  | none => exact Option.some_inj.mp hrun ▸ h
  | some p => exact hf p k' hrun

theorem RunsCurrent.schedulerBlock (h : k.RunsCurrent) {proc : Option ProcPtr}
    (hrun : k.schedulerBlock proc = some k') : k'.RunsCurrent := by
  unfold Kernel.schedulerBlock at hrun
  split at hrun
  · exact Option.some_inj.mp hrun ▸ h
  · rename_i p _
    have hblock := (startsNobody_blockProcess k p).runsCurrent h
    simp only at hrun
    split at hrun
    · exact hblock.schedule hrun
    · exact Option.some_inj.mp hrun ▸ hblock

theorem RunsCurrent.schedulerUnblock (h : k.RunsCurrent) (hrun : k.schedulerUnblock p = some k') :
    k'.RunsCurrent := by
  unfold Kernel.schedulerUnblock at hrun
  split at hrun
  · exact Option.some_inj.mp hrun ▸ h
  · exact (startsNobody_schedulerAdd hrun).runsCurrent h

theorem RunsCurrent.schedulerSleep (h : k.RunsCurrent) {ticks : X86.Word}
    (hrun : k.schedulerSleep ticks = some k') : k'.RunsCurrent := by
  unfold Kernel.schedulerSleep at hrun
  split at hrun
  · exact Option.some_inj.mp hrun ▸ h
  · obtain ⟨k₁, hfall, hrest⟩ := Option.bind_eq_some_iff.mp hrun
    have hfallen := (sameClock_fallAsleep hfall).startsNobody
      (noneBecome_fallAsleep (by simp) hfall)
    exact (hfallen.runsCurrent h).schedule hrest

theorem RunsCurrent.schedulerTick (h : k.RunsCurrent) (hrun : k.schedulerTick fuel = some k') :
    k'.RunsCurrent := by
  obtain ⟨k₁, hwake, hrest⟩ := Option.bind_eq_some_iff.mp hrun
  have hticked : RunsCurrent { k with currentTick := k.currentTick + 1 } := h
  have hexpired := (startsNobody_expireSlice k₁).runsCurrent
    ((startsNobody_wakeSleepers hwake).runsCurrent hticked)
  split at hrest
  · exact hexpired.schedule hrest
  · exact Option.some_inj.mp hrest ▸ hexpired

theorem RunsCurrent.step (h : k.RunsCurrent) {call : ProcCall}
    (hstep : k.procStep fuel call = some k') : k'.RunsCurrent := by
  cases call with
  | create name entry priority =>
      obtain rfl := Option.some_inj.mp hstep
      exact (startsNobody_create k name entry priority).runsCurrent h
  | destroy proc =>
      refine h.unlessNull (fun p k' hrun => ?_) hstep
      obtain rfl := Option.some_inj.mp hrun
      exact (startsNobody_destroy k p).runsCurrent h
  | exit code =>
      obtain rfl := Option.some_inj.mp hstep
      exact (startsNobody_exit k code).runsCurrent h
  | add proc =>
      exact h.unlessNull (fun p k' hrun => (startsNobody_schedulerAdd hrun).runsCurrent h) hstep
  | remove proc =>
      refine h.unlessNull (fun p k' hrun => ?_) hstep
      obtain rfl := Option.some_inj.mp hrun
      exact ((sameClock_schedulerRemove k p).startsNobody
        (noneBecome_schedulerRemove k p)).runsCurrent h
  | block proc => exact h.schedulerBlock hstep
  | unblock proc => exact h.unlessNull (fun p k' hrun => h.schedulerUnblock hrun) hstep
  | yield =>
      have hyield := (sameClock_yieldSlice k).startsNobody (noneBecome_yieldSlice k)
      exact (hyield.runsCurrent h).schedule hstep
  | sleep ticks => exact h.schedulerSleep hstep
  | start =>
      have hstarted : RunsCurrent { k with schedulerRunning := true } := h
      exact hstarted.schedule hstep
  | tick => exact h.schedulerTick hstep
  | schedule => exact h.schedule hstep

/-- The states that calls which return lead to. -/
def ProcRun : Kernel → Kernel → Prop :=
  Relation.ReflTransGen fun k k' => ∃ call fuel, k.procStep fuel call = some k'

/-- **At most one process runs**, and it is the current process: in every state that calls in any order
and with any arguments lead to after `scheduler_init`. -/
theorem one_runs_of_run (k₀ : Kernel) (idleEntry : Nat)
    (hrun : ProcRun (k₀.schedulerInit idleEntry) k) :
    (∀ p q, k.Runs p → k.Runs q → p = q) ∧ ∀ p, k.Runs p → k.currentProcess = some p := by
  have h : k.RunsCurrent := by
    induction hrun with
    | refl => exact runsCurrent_schedulerInit k₀ idleEntry
    | tail _ hstep ih =>
        obtain ⟨call, fuel, hstep⟩ := hstep
        exact ih.step hstep
  exact ⟨fun p q hp hq => Option.some_inj.mp ((h p hp).symm.trans (h q hq)), h⟩

def procReplay (k : Kernel) : List ProcCall → Option Kernel
  | [] => some k
  | call :: calls => (k.procStep 65 call).bind fun k => procReplay k calls

theorem procRun_of_replay {calls : List ProcCall} (h : k.procReplay calls = some k') :
    ProcRun k k' := by
  induction calls generalizing k with
  | nil =>
      obtain rfl := Option.some_inj.mp h
      exact .refl
  | cons call calls ih =>
      obtain ⟨k₁, hstep, hrest⟩ := Option.bind_eq_some_iff.mp h
      exact .head ⟨call, 65, hstep⟩ (ih hrest)

/-- The current process is added, removed and destroyed while it runs, and another takes over. -/
def carelessCalls : List ProcCall :=
  [.create [65] 0 16, .create [66] 0 20, .add (some 1), .add (some 2), .schedule, .add (some 1),
    .add (some 1), .remove (some 2), .destroy (some 1), .block (some 1), .yield, .tick]

theorem one_runs_carelessCalls : ∃ k, sampleBoot.procReplay carelessCalls = some k ∧
    ∀ p q, k.Runs p → k.Runs q → p = q := by
  obtain ⟨k, hk⟩ := Option.isSome_iff_exists.mp
    (by decide +kernel : (sampleBoot.procReplay carelessCalls).isSome = true)
  have hrun := procRun_of_replay hk
  exact ⟨k, hk, (one_runs_of_run (loaded ByteMemory.zero Pmm.allConventional 0 0 0) 0 hrun).1⟩

end SimpleOs.Kernel
