import SimpleOs.Proof.SchedSleep

/-!
# How long a sleep lasts

`scheduler_sleep` adds the ticks to the clock, and a tick wakes who is due by the new clock. Both are
words and are compared as words, so a sleep lasts as many ticks as were asked for, and at least one, as
long as the clock does not pass the end of its range before the sleep is over. If it does, the sleeper
is due at once; only a sleep that begins at the very last tick of the range comes out right again.
-/

namespace SimpleOs.Kernel

open X86 (Word)

variable {k k' k₀ k₁ k₂ : Kernel} {p : ProcPtr} {asleep asleep' : List ProcPtr} {call : SchedCall}
  {fuel m : Nat} {ticks wake now : Word}

def ticksOf : SchedCall → Nat
  | .tick => 1
  | _ => 0

theorem tick_prelude {again : Bool} (hprelude : k.prelude fuel call = some (k₁, again)) :
    k₁.currentTick = k.currentTick + BitVec.ofNat 64 (ticksOf call) := by
  have hzero : k.currentTick = k.currentTick + BitVec.ofNat 64 0 := (BitVec.add_zero _).symm
  cases preludes hprelude with
  | @unborn name entry priority _ hcreate =>
      have hcreated := sameClock_create k name entry priority
      rw [hcreate] at hcreated
      exact hcreated.tick.trans hzero
  | @spawned name entry priority _ _ _ hcreate hadd =>
      have hcreated := sameClock_create k name entry priority
      rw [hcreate] at hcreated
      exact (hcreated.trans (sameClock_schedulerAdd hadd)).tick.trans hzero
  | started => exact hzero
  | @ticked k₂ hwake => exact ((sameClock_wakeSleepers hwake).trans (sameClock_expireSlice k₂)).tick
  | yielded => exact (sameClock_yieldSlice k).tick.trans hzero
  | nobody => exact hzero
  | blocked => exact (sameClock_blockProcess k _).tick.trans hzero
  | awake => exact hzero
  | unblocked _ hadd => exact (sameClock_schedulerAdd hadd).tick.trans hzero
  | sleepless => exact hzero
  | asleep _ hfall => exact (sameClock_fallAsleep hfall).tick.trans hzero

theorem tick_step (hstep : k.step fuel call = some k') :
    k'.currentTick = k.currentTick + BitVec.ofNat 64 (ticksOf call) := by
  exact step_elim (P := fun k₂ => k₂.currentTick = k.currentTick + BitVec.ofNat 64 (ticksOf call))
    hstep (fun k₁ again hprelude => tick_prelude hprelude)
    fun k₁ _ hclock hrun => (clock_schedule hrun).2.trans hclock

theorem wakeTime_fallAsleep (hsleep : k.fallAsleep p ticks = some k') :
    (k'.processes p).wakeTime = k.currentTick + ticks := by
  have hinsert := keeps_insertSleeper offTurns_wakeTime.offLinks hsleep p
  rw [hinsert, keeps_blockProcess offTurns_wakeTime.toOffLists _ p p]
  simp [modify]

/-- No call but its own `scheduler_sleep` changes the wake time of a process that exists. -/
theorem wakeTime_step (hused : (k.processes p).state ≠ .unused)
    (hother : ∀ ticks, call = .sleep ticks → k.currentProcess ≠ some p)
    (hstep : k.step fuel call = some k') :
    (k'.processes p).wakeTime = (k.processes p).wakeTime := by
  refine step_elim (P := fun k₂ => (k₂.processes p).wakeTime = (k.processes p).wakeTime) hstep ?_
    fun k₁ _ hkeeps hrun => (keeps_schedule offTurns_wakeTime hrun p).trans hkeeps
  intro k₁ again hprelude
  exact prelude_keeps offTurns_wakeTime hused
    (fun ticks heq hcurrent => absurd hcurrent (hother ticks heq)) hprelude

/-- `p` sleeps until the tick `wake`, and the clock says `now`. -/
structure Dozing (k : Kernel) (asleep : List ProcPtr) (p : ProcPtr) (wake now : Word) : Prop where
  queue : ∃ l, k.SleepQueue asleep l
  occupied : k.Occupied
  mem : p ∈ asleep
  wakeTime : (k.processes p).wakeTime = wake
  tick : k.currentTick = now

theorem SleepQueue.blocked {l : List ProcPtr} (h : k.SleepQueue asleep l) (hp : p ∈ asleep) :
    (k.processes p).state = .blocked :=
  h.1.linked.forall_sleep h.1.sleep p (h.2.1.symm.subset hp)

theorem Dozing.blocked (h : k.Dozing asleep p wake now) : (k.processes p).state = .blocked := by
  obtain ⟨l, hl⟩ := h.queue
  exact hl.blocked h.mem

theorem Dozing.not_current (h : k.Dozing asleep p wake now) : k.currentProcess ≠ some p := by
  obtain ⟨l, hl⟩ := h.queue
  exact fun hcurrent => hl.notMem_current h.occupied hcurrent (hl.2.1.symm.subset h.mem)

/-- The next tick makes the process ready if and only if it is due then. -/
theorem Dozing.wake_iff (h : k.Dozing asleep p wake now)
    (hwake : wakeSleepers { k with currentTick := k.currentTick + 1 } fuel = some k₂) :
    (k₂.processes p).state = .ready ↔ wake ≤ now + 1 := by
  obtain ⟨l, hl⟩ := h.queue
  have hmem : p ∈ l := hl.2.1.symm.subset h.mem
  obtain ⟨-, hqueue, -, -, hready⟩ := hl.wake h.occupied hwake
  rw [← h.wakeTime, ← h.tick]
  refine ⟨fun hstate => ?_, hready p hmem⟩
  by_contra hlate
  have hstays : p ∈ l.filter fun p => !decide ((k.processes p).wakeTime ≤ k.currentTick + 1) :=
    List.mem_filter.mpr ⟨hmem, by simpa using hlate⟩
  have hblocked : (k₂.processes p).state = .blocked :=
    hqueue.1.linked.forall_sleep hqueue.1.sleep p hstays
  cases hblocked.symm.trans hstate

theorem Dozing.exists_tick (h : k.Dozing asleep p wake now) :
    ∃ fuel k₂ k', wakeSleepers { k with currentTick := k.currentTick + 1 } fuel = some k₂ ∧
      k.schedulerTick fuel = some k' := by
  obtain ⟨l, hl⟩ := h.queue
  have hsafe : k.Safe .tick := hl.safe h.occupied trivial
  obtain ⟨fuel, k', htick⟩ := exists_step hl.1.linked hsafe
  obtain ⟨k₂, hwake, -⟩ := Option.bind_eq_some_iff.mp htick
  exact ⟨fuel, k₂, k', hwake, htick⟩

/-- A call that is no tick, or a tick by which the process is not due, lets it sleep on. -/
theorem Dozing.step (h : k.Dozing asleep p wake now) (hcall : k.Considerate asleep call)
    (hdue : call = .tick → ¬ wake ≤ now + 1) (hstep : k.step fuel call = some k') :
    k'.Dozing (k.asleepAfter fuel asleep call) p wake (now + BitVec.ofNat 64 (ticksOf call)) := by
  obtain ⟨l, hl⟩ := h.queue
  obtain ⟨hqueue, hoccupied⟩ := hl.step h.occupied hcall hstep
  refine ⟨hqueue, hoccupied, ?_, ?_, ?_⟩
  · cases call with
    | tick =>
        obtain ⟨k₂, hwake, -⟩ := Option.bind_eq_some_iff.mp hstep
        obtain ⟨hwoken, -⟩ := hl.wake h.occupied hwake
        have hlate := hdue rfl
        rw [← h.wakeTime, ← h.tick] at hlate
        have hnotWoken : p ∉ wokenSleepers { k with currentTick := k.currentTick + 1 } fuel := by
          rw [hwoken, List.mem_filter]
          exact fun hmem => hlate (of_decide_eq_true hmem.2)
        exact List.mem_filter.mpr ⟨h.mem, decide_eq_true hnotWoken⟩
    | sleep ticks => exact List.mem_append_left _ h.mem
    | spawn name entry priority => exact h.mem
    | start => exact h.mem
    | yield => exact h.mem
    | block proc => exact h.mem
    | unblock q => exact h.mem
  · rw [← h.wakeTime]
    exact wakeTime_step (by rw [h.blocked]; simp) (fun _ _ => h.not_current) hstep
  · rw [tick_step hstep, h.tick]

/-- The states that considerate calls from `k₀` on lead to, with the number of ticks on the way and the
processes asleep there. -/
inductive DozeRun (k₀ : Kernel) (asleep₀ : List ProcPtr) : Nat → List ProcPtr → Kernel → Prop
  | refl : DozeRun k₀ asleep₀ 0 asleep₀ k₀
  | step {n : Nat} {asleep : List ProcPtr} {k k' : Kernel} {call : SchedCall} {fuel : Nat}
      (hrun : DozeRun k₀ asleep₀ n asleep k) (hcall : k.Considerate asleep call)
      (hstep : k.step fuel call = some k') :
      DozeRun k₀ asleep₀ (n + ticksOf call) (k.asleepAfter fuel asleep call) k'

theorem DozeRun.sleepQueue (hboot : k₀.Booted) (hidle : k₀.idleProc ≠ none)
    (hrun : DozeRun k₀ [] m asleep k) : (∃ l, k.SleepQueue asleep l) ∧ k.Occupied := by
  induction hrun with
  | refl =>
      obtain ⟨hqueue, hoccupied⟩ := sleepQueue_boot hboot hidle
      exact ⟨⟨[], hqueue⟩, hoccupied⟩
  | step _ hcall hstep ih =>
      obtain ⟨⟨l, hl⟩, hoccupied⟩ := ih
      exact hl.step hoccupied hcall hstep

/-- Until `n` ticks have passed the process sleeps on while it is not due. -/
theorem DozeRun.dozing {n : Nat} (h : k₁.Dozing asleep p wake now)
    (hlate : ∀ j, j + 1 < n → ¬ wake ≤ now + BitVec.ofNat 64 (j + 1))
    (hrun : DozeRun k₁ asleep m asleep' k') (hm : m < n) :
    k'.Dozing asleep' p wake (now + BitVec.ofNat 64 m) := by
  induction hrun with
  | refl => exact (BitVec.add_zero now).symm ▸ h
  | @step j _ _ _ call _ _ hcall hstep ih =>
      have hsum : now + BitVec.ofNat 64 (j + ticksOf call) =
          now + BitVec.ofNat 64 j + BitVec.ofNat 64 (ticksOf call) := by
        rw [BitVec.ofNat_add, BitVec.add_assoc]
      rw [hsum]
      refine (ih (by omega)).step hcall (fun htick => ?_) hstep
      subst htick
      have hone := hlate j hm
      rwa [BitVec.ofNat_add, ← BitVec.add_assoc] at hone

/-- From now on, whatever considerate calls are made, `p` is blocked until `n` ticks have passed, and
of these ticks, which all return, exactly the last one makes it ready. -/
def SleepsFor (k : Kernel) (asleep : List ProcPtr) (p : ProcPtr) (n : Nat) : Prop :=
  ∀ j asleep' k', DozeRun k asleep j asleep' k' → j < n →
    (k'.processes p).state = .blocked ∧ (∃ fuel k'', k'.schedulerTick fuel = some k'') ∧
      ∀ fuel k₂, wakeSleepers { k' with currentTick := k'.currentTick + 1 } fuel = some k₂ →
        ((k₂.processes p).state = .ready ↔ j + 1 = n)

/-- The clock stays in its range until the sleep is over, or begins anew at the next tick. -/
def InClock (now ticks : Word) : Prop :=
  now.toNat + max ticks.toNat 1 < 2 ^ 64 ∨ now.toNat = 2 ^ 64 - 1 ∧ 1 ≤ ticks.toNat

instance (now ticks : Word) : Decidable (InClock now ticks) := inferInstanceAs (Decidable (_ ∨ _))

theorem due_iff (h : InClock now ticks) {j : Nat} (hj : j < max ticks.toNat 1) :
    now + ticks ≤ now + BitVec.ofNat 64 (j + 1) ↔ j + 1 = max ticks.toNat 1 := by
  have hnow := now.isLt
  have hticks := ticks.isLt
  rw [BitVec.le_def, BitVec.toNat_add, BitVec.toNat_add, BitVec.toNat_ofNat]
  rw [InClock] at h
  omega

theorem inClock_of_due (h : now + ticks ≤ now + 1 ↔ 1 = max ticks.toNat 1) : InClock now ticks := by
  have hnow := now.isLt
  have hticks := ticks.isLt
  have hone : (1 : Word).toNat = 1 := rfl
  rw [BitVec.le_def, BitVec.toNat_add, BitVec.toNat_add, hone] at h
  rw [InClock]
  omega

theorem dozing_sleep {l : List ProcPtr} (h : k.SleepQueue asleep l) (hoccupied : k.Occupied)
    (hp : k.currentProcess = some p) (hidle : k.idleProc ≠ some p)
    (hsleep : k.step fuel (.sleep ticks) = some k₁) :
    k₁.Dozing (asleep ++ [p]) p (k.currentTick + ticks) k.currentTick := by
  have hcall : k.Considerate asleep (.sleep ticks) := fun heq => hidle (heq.symm.trans hp)
  obtain ⟨hqueue, hoccupied₁⟩ := h.step hoccupied hcall hsleep
  rw [asleepAfter_sleep, hp, Option.toList_some] at hqueue
  refine ⟨hqueue, hoccupied₁, by simp, ?_, (tick_step hsleep).trans (BitVec.add_zero _)⟩
  rw [step, schedulerSleep, hp] at hsleep
  obtain ⟨k₂, hfall, hrest⟩ := Option.bind_eq_some_iff.mp hsleep
  rw [keeps_schedule offTurns_wakeTime hrest p, wakeTime_fallAsleep hfall]

/-- The first tick tells whether the sum has left the range. -/
theorem SleepsFor.inClock (hdozing : k₁.Dozing asleep p (now + ticks) now)
    (h : SleepsFor k₁ asleep p (max ticks.toNat 1)) : InClock now ticks := by
  obtain ⟨fuel, k₂, -, hwake, -⟩ := hdozing.exists_tick
  obtain ⟨-, -, hfirst⟩ := h 0 _ _ .refl (by omega)
  exact inClock_of_due ((hdozing.wake_iff hwake).symm.trans (hfirst fuel k₂ hwake))

/-- **A sleep lasts what was asked** if and only if it ends in the range of the clock, or begins at the
last tick of it and is not 0: in every state that considerate calls lead to, for the current process. -/
theorem sleeps_exactly_iff (hboot : k₀.Booted) (hexists : k₀.idleProc ≠ none)
    (hrun : DozeRun k₀ [] m asleep k) (hp : k.currentProcess = some p)
    (hidle : k.idleProc ≠ some p) (hsleep : k.step fuel (.sleep ticks) = some k₁) :
    SleepsFor k₁ (asleep ++ [p]) p (max ticks.toNat 1) ↔ InClock k.currentTick ticks := by
  obtain ⟨⟨l, hl⟩, hoccupied⟩ := hrun.sleepQueue hboot hexists
  have hdozing := dozing_sleep hl hoccupied hp hidle hsleep
  constructor
  · exact fun hsleeps => hsleeps.inClock hdozing
  · intro hclock j asleep' k' hrest hj
    have hlate : ∀ i, i + 1 < max ticks.toNat 1 →
        ¬ k.currentTick + ticks ≤ k.currentTick + BitVec.ofNat 64 (i + 1) := by
      intro i hi hdue
      have hlast := (due_iff hclock (by omega)).mp hdue
      omega
    have hdozing' := DozeRun.dozing hdozing hlate hrest hj
    obtain ⟨fuel, -, k'', -, htick⟩ := hdozing'.exists_tick
    refine ⟨hdozing'.blocked, ⟨fuel, k'', htick⟩, fun fuel k₂ hwake => ?_⟩
    rw [hdozing'.wake_iff hwake, ← due_iff hclock hj, BitVec.ofNat_add, ← BitVec.add_assoc]
    rfl

theorem SleepRun.dozeRun (hboot : k₀.Booted) (hexists : k₀.idleProc ≠ none)
    (hrun : SleepRun IssuesAwake k₀ asleep k) : ∃ m, DozeRun k₀ [] m asleep k := by
  induction hrun with
  | refl => exact ⟨0, .refl⟩
  | step hrun hcall hstep ih =>
      obtain ⟨m, hdoze⟩ := ih
      obtain ⟨⟨l, hl⟩, hoccupied⟩ := hrun.sleepQueue hboot hexists
      exact ⟨_, .step hdoze (hl.considerate hoccupied hcall) hstep⟩

/-- Process 1 runs, and the clock says 1. -/
def firstTick : List SchedCall := [.spawn [65] 0 16, .start, .tick]

/-- A sleep of process 1 after the first tick. -/
theorem exists_firstTick (ticks : Word) : ∃ m k fuel k₁, DozeRun sampleBoot [] m [] k ∧
    k.currentProcess = some 1 ∧ k.idleProc ≠ some 1 ∧ k.currentTick = 1 ∧
      k.step fuel (.sleep ticks) = some k₁ := by
  have heval : ((sampleBoot.sleepReplay IssuesAwake [] firstTick).map fun r =>
      (r.1, r.2.currentProcess, r.2.idleProc, r.2.currentTick)) =
        some ([], some 1, some 0, 1) := by decide +kernel
  obtain ⟨⟨asleep, k⟩, hreplay, hstate⟩ := Option.map_eq_some_iff.mp heval
  simp only [Prod.mk.injEq] at hstate
  obtain ⟨rfl, hcurrent, hidle, htick⟩ := hstate
  have hrun : SleepRun IssuesAwake sampleBoot [] k := SleepRun.replay .refl hreplay
  have hexists : sampleBoot.idleProc ≠ none := by decide +kernel
  obtain ⟨m, hdoze⟩ := hrun.dozeRun booted_sampleBoot hexists
  obtain ⟨⟨l, hl⟩, hoccupied⟩ := hrun.sleepQueue booted_sampleBoot hexists
  have hcall : k.Considerate [] (.sleep ticks) := by simp [Considerate, hcurrent, hidle]
  obtain ⟨fuel, k₁, hstep⟩ := exists_step hl.1.linked (hl.safe hoccupied hcall)
  exact ⟨m, k, fuel, k₁, hdoze, hcurrent, by simp [hidle], htick, hstep⟩

theorem sleeps_exactly_five : ∃ (k k₁ : Kernel) (fuel : Nat), k.currentTick = 1 ∧
    k.step fuel (.sleep 5) = some k₁ ∧ SleepsFor k₁ [1] 1 5 := by
  obtain ⟨m, k, fuel, k₁, hdoze, hcurrent, hidle, htick, hstep⟩ := exists_firstTick 5
  have hclock : InClock k.currentTick 5 := by
    rw [htick]
    decide
  exact ⟨k, k₁, fuel, htick, hstep, (sleeps_exactly_iff booted_sampleBoot (by decide +kernel) hdoze
    hcurrent hidle hstep).mpr hclock⟩

/-- A sleep as long as can be, begun after the first tick, does not last. -/
theorem not_sleeps_longest : ¬ ∀ k₀ m asleep k p ticks fuel k₁, k₀.Booted → k₀.idleProc ≠ none →
    DozeRun k₀ [] m asleep k → k.currentProcess = some p → k.idleProc ≠ some p →
    k.step fuel (.sleep ticks) = some k₁ → SleepsFor k₁ (asleep ++ [p]) p (max ticks.toNat 1) := by
  intro h
  have hexists : sampleBoot.idleProc ≠ none := by decide +kernel
  obtain ⟨m, k, fuel, k₁, hdoze, hcurrent, hidle, htick, hstep⟩ :=
    exists_firstTick 0xFFFFFFFFFFFFFFFF
  obtain ⟨⟨l, hl⟩, hoccupied⟩ := hdoze.sleepQueue booted_sampleBoot hexists
  have hsleeps := h sampleBoot m [] k 1 _ fuel k₁ booted_sampleBoot hexists hdoze hcurrent hidle hstep
  have hclock := hsleeps.inClock (dozing_sleep hl hoccupied hcurrent hidle hstep)
  rw [htick] at hclock
  exact absurd hclock (by simp [InClock])

end SimpleOs.Kernel
