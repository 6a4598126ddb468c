import SimpleOs.Proof.SchedRunning

/-!
# A process that stops without giving the processor away

The tick gives the processor to another process when the slice of the current process has run out, and
it looks at the slice only while the current process runs. `process_exit` takes the state of running
from the current process and then halts, so nothing but ticks happens from there on, and none of them
hands over, whoever waits in the queues.
-/

namespace SimpleOs.Kernel

variable {k k' : Kernel} {c : ProcPtr} {fuel : Nat}

/-- Another process has become the current one. -/
def HandsOver (k k' : Kernel) : Prop := ∃ p, k'.currentProcess = some p ∧ k.currentProcess ≠ some p

/-- The current process does not run, and somebody waits in a ready queue. -/
structure Abandoned (k : Kernel) (c : ProcPtr) : Prop where
  current : k.currentProcess = some c
  stopped : ¬ k.Runs c
  waiting : ∃ i, k.readyQueues i ≠ none

/-- The states that ticks alone lead to. -/
def Ticks : Kernel → Kernel → Prop :=
  Relation.ReflTransGen fun k k' => ∃ fuel, k.schedulerTick fuel = some k'

theorem startsNobody_tick (hcurrent : k.currentProcess = some c) (hstopped : ¬ k.Runs c)
    (htick : k.schedulerTick fuel = some k') : StartsNobody k k' := by
  obtain ⟨k₁, hwake, hrest⟩ := Option.bind_eq_some_iff.mp htick
  have hwoken := startsNobody_wakeSleepers hwake
  have hcurrent₁ : k₁.currentProcess = some c := hwoken.current.trans hcurrent
  have hstopped₁ : ¬ (k₁.processes c).state = .running := fun hruns => hstopped (hwoken.runs c hruns)
  have hexpire : k₁.expireSlice = (k₁, false) := by
    rw [expireSlice, hcurrent₁]
    simp only [if_neg hstopped₁]
  rw [hexpire] at hrest
  obtain rfl := Option.some_inj.mp hrest
  exact ⟨hwoken.current, hwoken.runs⟩

/-- **A process that stopped keeps the processor.** Whenever the current process has stopped running
and others are ready, after any number of ticks it is still the current process, and the next tick
makes no other process current. -/
theorem never_hands_over (h : k.Abandoned c) (hticks : Ticks k k') :
    k'.currentProcess = some c ∧ ¬ k'.Runs c ∧
      ∀ fuel k₁, k'.schedulerTick fuel = some k₁ → ¬ HandsOver k' k₁ := by
  have hstays : StartsNobody k k' := by
    induction hticks with
    | refl => exact .refl k
    | tail _ htick ih =>
        obtain ⟨fuel, htick⟩ := htick
        exact ih.trans (startsNobody_tick (ih.current.trans h.current)
          (fun hruns => h.stopped (ih.runs c hruns)) htick)
  have hcurrent : k'.currentProcess = some c := hstays.current.trans h.current
  have hstopped : ¬ k'.Runs c := fun hruns => h.stopped (hstays.runs c hruns)
  refine ⟨hcurrent, hstopped, fun fuel k₁ htick => ?_⟩
  rintro ⟨p, hp, hother⟩
  exact hother ((startsNobody_tick hcurrent hstopped htick).current.symm.trans hp)

/-- Process 1 exits while process 2 waits. -/
def exitCalls : List ProcCall :=
  [.create [65] 0 16, .create [66] 0 20, .add (some 1), .add (some 2), .start, .exit 0]

theorem exists_exitCalls : ∃ k k', ProcRun sampleBoot k ∧ k.Abandoned 1 ∧
    (k.processes 1).state = .zombie ∧ k.schedulerTick 65 = some k' := by
  have heval : ((sampleBoot.procReplay exitCalls).map fun k =>
      (k.currentProcess, (k.processes 1).state, k.readyQueues 20)) =
        some (some 1, .zombie, some 2) := by decide +kernel
  have htick : ((sampleBoot.procReplay exitCalls).bind fun k => k.schedulerTick 65).isSome = true := by
    decide +kernel
  obtain ⟨k, hk, hstate⟩ := Option.map_eq_some_iff.mp heval
  obtain ⟨hcurrent, hrest⟩ := Prod.mk.inj hstate
  obtain ⟨hzombie, hwaiting⟩ := Prod.mk.inj hrest
  rw [hk, Option.bind_some] at htick
  obtain ⟨k', hk'⟩ := Option.isSome_iff_exists.mp htick
  have hstopped : ¬ k.Runs 1 := by simp [Runs, hzombie]
  exact ⟨k, k', procRun_of_replay hk, ⟨hcurrent, hstopped, 20, by simp [hwaiting]⟩, hzombie, hk'⟩

theorem never_hands_over_exitCalls : ∃ k k', ProcRun sampleBoot k ∧
    k.schedulerTick 65 = some k' ∧ ¬ HandsOver k k' := by
  obtain ⟨k, k', hrun, habandoned, -, htick⟩ := exists_exitCalls
  exact ⟨k, k', hrun, htick, (never_hands_over habandoned .refl).2.2 65 k' htick⟩

/-- After `process_exit` the tick leaves the processor to the zombie. -/
theorem not_handsOver_zombie :
    ¬ ∀ k k' c fuel, ProcRun sampleBoot k → k.Abandoned c → (k.processes c).state = .zombie →
      k.schedulerTick fuel = some k' → HandsOver k k' := by
  intro h
  obtain ⟨k, k', hrun, habandoned, hzombie, htick⟩ := exists_exitCalls
  obtain ⟨p, hp, hother⟩ := h k k' 1 65 hrun habandoned hzombie htick
  exact hother ((startsNobody_tick habandoned.current habandoned.stopped htick).current.symm.trans hp)

end SimpleOs.Kernel
