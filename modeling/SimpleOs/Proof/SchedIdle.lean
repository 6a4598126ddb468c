import SimpleOs.Proof.ProcLife
import SimpleOs.Proof.SchedRunning

/-!
# The idle process and the queues

`scheduler_init` leaves the idle process out of the queues on purpose, and `schedule` falls back on it
when no bit is set. But what makes a process ready treats the idle process like any other: `schedule`
when it takes the processor from it, `scheduler_unblock`, and `scheduler_sleep` together with the tick
that wakes it. A run that keeps clear of these three never queues it: then no link leads to it at all
(`OffQueues`), whatever else is done to the lists.
-/

namespace SimpleOs.Kernel

variable {k k' k₁ : Kernel} {p d next : ProcPtr} {o : Option ProcPtr} {fuel : Nat}

/-- No queue starts with `d`, and no process is followed by it. -/
structure OffQueues (k : Kernel) (d : ProcPtr) : Prop where
  ready : ∀ i, k.readyQueues i ≠ some d
  sleep : k.sleepQueue ≠ some d
  next : ∀ q, (k.processes q).next ≠ some d

theorem OffQueues.not_reaches (h : k.OffQueues d) (i : Fin 32) :
    ¬ k.Reaches (k.readyQueues i) d := by
  intro hd
  cases hd with
  | head hp => exact h.ready i hp
  | next _ hq => exact h.next _ hq

theorem OffQueues.modify (h : k.OffQueues d) {f : Process → Process}
    (hf : (f (k.processes p)).next ≠ some d) : (k.modify p f).OffQueues d := by
  refine ⟨h.ready, h.sleep, fun q => ?_⟩
  by_cases hqp : q = p
  · subst hqp
    simpa [Kernel.modify] using hf
  · simpa [Kernel.modify, hqp] using h.next q

theorem OffQueues.setNext (h : k.OffQueues d) (p : ProcPtr) (ho : o ≠ some d) :
    (k.setNext p o).OffQueues d := h.modify ho

theorem OffQueues.setPrev (h : k.OffQueues d) (p : ProcPtr) (o : Option ProcPtr) :
    (k.setPrev p o).OffQueues d := h.modify (h.next p)

theorem OffQueues.setState (h : k.OffQueues d) (p : ProcPtr) (s : ProcState) :
    (k.setState p s).OffQueues d := h.modify (h.next p)

theorem OffQueues.setTimeSlice (h : k.OffQueues d) (p : ProcPtr) (v : X86.Word) :
    (k.setTimeSlice p v).OffQueues d := h.modify (h.next p)

theorem OffQueues.chargeTick (h : k.OffQueues d) (p : ProcPtr) : (k.chargeTick p).OffQueues d :=
  h.modify (h.next p)

theorem OffQueues.setReadyQueue (h : k.OffQueues d) (i : Fin 32) (ho : o ≠ some d) :
    (k.setReadyQueue i o).OffQueues d := by
  refine ⟨fun j => ?_, h.sleep, h.next⟩
  simp only [Kernel.setReadyQueue, Function.update_apply]
  split
  · exact ho
  · exact h.ready j

theorem OffQueues.setSleepQueue (h : k.OffQueues d) (ho : o ≠ some d) :
    OffQueues { k with sleepQueue := o } d := ⟨h.ready, ho, h.next⟩

theorem OffQueues.clearLinks (h : k.OffQueues d) (p : ProcPtr) :
    ((k.setNext p none).setPrev p none).OffQueues d :=
  (h.setNext p (by simp)).setPrev p none

theorem OffQueues.unlinkProcess (h : k.OffQueues d) (p : ProcPtr) :
    (k.unlinkProcess p).OffQueues d := by
  have hnext : (k.processes p).next ≠ some d := h.next p
  unfold Kernel.unlinkProcess
  simp only
  apply OffQueues.clearLinks
  cases (k.processes p).prev with
  | none =>
      have h₁ := h.setReadyQueue (k.queueOf p) hnext
      simp only
      split
      · exact h₁.setPrev _ _
      · exact h₁
  | some prev =>
      have h₁ := h.setNext prev hnext
      simp only
      split
      · exact h₁.setPrev _ _
      · exact h₁

theorem OffQueues.schedulerRemove (h : k.OffQueues d) (p : ProcPtr) :
    (k.schedulerRemove p).OffQueues d := by
  have hunlink := h.unlinkProcess p
  unfold Kernel.schedulerRemove
  simp only
  split
  · exact ⟨hunlink.ready, hunlink.sleep, hunlink.next⟩
  · exact hunlink

theorem OffQueues.blockProcess (h : k.OffQueues d) (p : ProcPtr) :
    (k.blockProcess p).OffQueues d := (h.setState p .blocked).schedulerRemove p

theorem OffQueues.schedulerAdd (h : k.OffQueues d) (hp : p ≠ d)
    (hadd : k.schedulerAdd p = some k') : k'.OffQueues d := by
  have hother : some p ≠ some d := fun heq => hp (Option.some_inj.mp heq)
  unfold Kernel.schedulerAdd at hadd
  split at hadd
  · exact Option.some_inj.mp hadd ▸ h
  · obtain ⟨k₁, hlinked, rfl⟩ := Option.map_eq_some_iff.mp hadd
    have hclear := h.clearLinks p
    have h₁ : k₁.OffQueues d := by
      split at hlinked
      · obtain rfl := Option.some_inj.mp hlinked
        have hfirst := hclear.setReadyQueue (k.queueOf p) hother
        exact ⟨hfirst.ready, hfirst.sleep, hfirst.next⟩
      · obtain ⟨tail, -, rfl⟩ := Option.map_eq_some_iff.mp hlinked
        exact (hclear.setNext tail hother).setPrev p (some tail)
    exact (h₁.setState p .ready).setTimeSlice p _

theorem OffQueues.popSleeper (h : k.OffQueues d) (p : ProcPtr) : (k.popSleeper p).OffQueues d := by
  have h₁ := h.setSleepQueue (h.next p)
  unfold Kernel.popSleeper
  simp only
  apply OffQueues.clearLinks
  cases hnext : (k.processes p).next with
  | none => rwa [hnext] at h₁
  | some q =>
      rw [hnext] at h₁
      exact h₁.setPrev q none

theorem OffQueues.wakeSleepers (h : k.OffQueues d) (hwake : k.wakeSleepers fuel = some k') :
    k'.OffQueues d := by
  induction fuel generalizing k with
  | zero => cases hwake
  | succ fuel ih =>
      rw [Kernel.wakeSleepers] at hwake
      split at hwake
      · exact Option.some_inj.mp hwake ▸ h
      · rename_i q hq
        split at hwake
        · obtain ⟨k₁, hadd, hrest⟩ := Option.bind_eq_some_iff.mp hwake
          have hne : q ≠ d := fun heq => h.sleep (heq ▸ hq)
          exact ih ((h.popSleeper q).schedulerAdd hne hadd) hrest
        · exact Option.some_inj.mp hwake ▸ h

theorem OffQueues.insertSleeper (h : k.OffQueues d) (hp : p ≠ d)
    (hinsert : k.insertSleeper p = some k') : k'.OffQueues d := by
  have hself : some p ≠ some d := fun heq => hp (Option.some_inj.mp heq)
  unfold Kernel.insertSleeper at hinsert
  split at hinsert
  · obtain rfl := Option.some_inj.mp hinsert
    exact (h.clearLinks p).setSleepQueue hself
  · rename_i head hhead
    have hhead' : some head ≠ some d := fun heq => h.sleep (hhead.trans heq)
    split at hinsert
    · obtain rfl := Option.some_inj.mp hinsert
      exact (((h.setNext p hhead').setPrev p none).setPrev head (some p)).setSleepQueue hself
    · obtain ⟨pos, -, rfl⟩ := Option.map_eq_some_iff.mp hinsert
      have h₁ := (h.setNext p (h.next pos)).setPrev p (some pos)
      refine OffQueues.setNext ?_ pos hself
      split
      · exact h₁.setPrev _ _
      · exact h₁

theorem OffQueues.fallAsleep (h : k.OffQueues d) (hp : p ≠ d) {ticks : X86.Word}
    (hsleep : k.fallAsleep p ticks = some k') : k'.OffQueues d := by
  have hwake : (k.modify p fun proc =>
      { proc with wakeTime := k.currentTick + ticks }).OffQueues d := h.modify (h.next p)
  exact (hwake.blockProcess p).insertSleeper hp hsleep

theorem OffQueues.expireSlice (h : k.OffQueues d) : k.expireSlice.1.OffQueues d := by
  unfold Kernel.expireSlice
  cases k.currentProcess with
  | none => exact h
  | some c =>
      simp only
      split
      · exact h.chargeTick c
      · exact h

theorem OffQueues.yieldSlice (h : k.OffQueues d) : k.yieldSlice.OffQueues d := by
  unfold Kernel.yieldSlice
  cases k.currentProcess with
  | none => exact h
  | some c => exact h.setTimeSlice c 0

theorem OffQueues.create (h : k.OffQueues d) (name : List (BitVec 8)) (entry : Nat)
    (priority : Int) : (k.processCreateKernelThread name entry priority).2.OffQueues d := by
  obtain ⟨p, start, -, -, heq⟩ | heq := k.create_cases name entry priority
  · rw [heq]
    refine ⟨h.ready, h.sleep, fun q => ?_⟩
    by_cases hqp : q = p
    · simp [spawned, hqp]
    · rw [processes_spawned hqp]
      exact h.next q
  · rw [heq]
    exact h

theorem OffQueues.destroy (h : k.OffQueues d) (p : ProcPtr) : (k.processDestroy p).OffQueues d := by
  obtain ⟨hready, hsleep, -, -⟩ := roots_destroy k p
  refine ⟨fun i => hready ▸ h.ready i, hsleep ▸ h.sleep, fun q => ?_⟩
  have hnext : ((k.processDestroy p).processes q).next = (k.processes q).next := by
    unfold processDestroy
    simp only
    split
    · rfl
    · by_cases hqp : q = p <;> simp [hqp]
  rw [hnext]
  exact h.next q

/-- The idle process is not the running process, or `schedule` would not replace it. -/
def IdleStays (k : Kernel) : Prop :=
  ∀ d, k.idleProc = some d → k.currentProcess = some d → k.Runs d →
    k.findNextProcess = none ∨ k.findNextProcess = some d

theorem OffQueues.schedule (h : k.OffQueues d) (hidle : k.idleProc = some d) (hstays : k.IdleStays)
    (hrun : k.schedule = some k') : k'.OffQueues d := by
  obtain rfl | ⟨next, k₁, hnext, hother, hrequeue, rfl⟩ := schedule_cases hrun
  · exact h
  · have h₁ : k₁.OffQueues d := by
      unfold Kernel.requeueCurrent at hrequeue
      split at hrequeue
      · exact Option.some_inj.mp hrequeue ▸ h
      · rename_i c hc
        split at hrequeue
        · rename_i hruns
          have hne : c ≠ d := by
            rintro rfl
            obtain hnone | hself := hstays c hidle hc hruns
            · cases hnone.symm.trans hnext
            · exact hother (hc.trans (hself.symm.trans hnext))
          exact (h.setState c .ready).schedulerAdd hne hrequeue
        · exact Option.some_inj.mp hrequeue ▸ h
    have h₂ := (h₁.schedulerRemove next).setState next .running
    unfold Kernel.switchTo
    simp only
    split <;> exact ⟨h₂.ready, h₂.sleep, h₂.next⟩

/-- The idle process exists, and no link leads to it. -/
structure Special (k : Kernel) (d : ProcPtr) : Prop where
  idle : k.idleProc = some d
  live : k.Live d
  off : k.OffQueues d

theorem Special.step (h : k.Special d) (hidle : k'.idleProc = k.idleProc)
    (hlive : NoneBecome .unused k k') (hoff : k'.OffQueues d) : k'.Special d :=
  ⟨hidle.trans h.idle, fun hdead => h.live (hlive d hdead), hoff⟩

theorem Special.schedulerAdd (h : k.Special d) (hp : p ≠ d) (hadd : k.schedulerAdd p = some k') :
    k'.Special d :=
  h.step (sameClock_schedulerAdd hadd).idle (noneBecome_schedulerAdd (by simp) hadd).1
    (h.off.schedulerAdd hp hadd)

theorem noneBecome_schedule {s : ProcState} (hready : .ready ≠ s) (hrunning : .running ≠ s)
    (hrun : k.schedule = some k') : NoneBecome s k k' := by
  obtain rfl | ⟨next, k₁, -, -, hrequeue, rfl⟩ := schedule_cases hrun
  · exact .refl s _
  · have hswitch : NoneBecome s k₁ (k₁.switchTo next) := by
      intro q hq
      rw [processes_switchTo] at hq
      exact noneBecome_schedulerRemove k₁ next q (noneBecome_setState _ next hrunning q hq)
    exact (noneBecome_requeueCurrent hready hrequeue).trans hswitch

theorem Special.schedule (h : k.Special d) (hstays : k.IdleStays) (hrun : k.schedule = some k') :
    k'.Special d :=
  h.step (clock_schedule hrun).1 (noneBecome_schedule (by simp) (by simp) hrun)
    (h.off.schedule h.idle hstays hrun)

theorem Special.create (h : k.Special d) (name : List (BitVec 8)) (entry : Nat) (priority : Int) :
    (k.processCreateKernelThread name entry priority).2.Special d :=
  h.step (sameClock_create k name entry priority).idle (noneBecome_create (by simp) k name entry _)
    (h.off.create name entry priority)

/-- The call does not unblock the idle process and does not put it to sleep. -/
def LeavesIdle (k : Kernel) : SchedCall → Prop
  | .unblock p => k.idleProc = some p → (k.processes p).state ≠ .blocked
  | .sleep _ => ∀ d, k.idleProc = some d → k.currentProcess ≠ some d
  | _ => True

/-- Nothing makes the idle process ready: it is not added, and not preempted, unblocked or woken. -/
def SparesIdle (k : Kernel) : LifeCall → Prop
  | .create .. => True
  | .add p => k.idleProc ≠ some p
  | .destroy p => k.idleProc ≠ some p
  | .sched call => k.LeavesIdle call ∧
      ∀ fuel k₁, k.prelude fuel call = some (k₁, true) → k₁.IdleStays

theorem Special.prelude (h : k.Special d) {call : SchedCall} {again : Bool}
    (hcall : k.LeavesIdle call) (hprelude : k.prelude fuel call = some (k₁, again)) :
    k₁.Special d := by
  cases preludes hprelude with
  | @unborn name entry priority _ hcreate =>
      have hcreated := h.create name entry priority
      rwa [hcreate] at hcreated
  | @spawned name entry priority p _ _ hcreate hadd =>
      have hcreated := h.create name entry priority
      rw [hcreate] at hcreated
      obtain ⟨start, hdead, -, -⟩ := eq_spawned_of_create hcreate
      have hne : p ≠ d := by
        rintro rfl
        exact hdead h.live
      exact hcreated.schedulerAdd hne hadd
  | started => exact ⟨h.idle, h.live, ⟨h.off.ready, h.off.sleep, h.off.next⟩⟩
  | @ticked k₂ hwake =>
      have hticked : Special { k with currentTick := k.currentTick + 1 } d :=
        ⟨h.idle, h.live, ⟨h.off.ready, h.off.sleep, h.off.next⟩⟩
      have hwoken := hticked.step (sameClock_wakeSleepers hwake).idle
        (noneBecome_wakeSleepers (by simp) hwake) (hticked.off.wakeSleepers hwake)
      exact hwoken.step (sameClock_expireSlice k₂).idle (noneBecome_expireSlice k₂)
        hwoken.off.expireSlice
  | yielded => exact h.step (sameClock_yieldSlice k).idle (noneBecome_yieldSlice k) h.off.yieldSlice
  | nobody => exact h
  | @blocked _ p _ =>
      exact h.step (sameClock_blockProcess k p).idle (noneBecome_blockProcess (by simp) k p)
        (h.off.blockProcess p)
  | awake => exact h
  | @unblocked p _ hstate hadd =>
      have hne : p ≠ d := by
        rintro rfl
        exact hcall h.idle hstate
      exact h.schedulerAdd hne hadd
  | sleepless => exact h
  | @asleep _ p _ hcurrent hfall =>
      have hne : p ≠ d := by
        rintro rfl
        exact hcall p h.idle hcurrent
      exact h.step (sameClock_fallAsleep hfall).idle (noneBecome_fallAsleep (by simp) hfall)
        (h.off.fallAsleep hne hfall)

theorem Special.lifeStep (h : k.Special d) {call : LifeCall} (hcall : k.SparesIdle call)
    (hstep : k.lifeStep fuel call = some k') : k'.Special d := by
  cases call with
  | create name entry priority =>
      obtain rfl := Option.some_inj.mp hstep
      exact h.create name entry priority
  | add p =>
      have hne : p ≠ d := by
        rintro rfl
        exact hcall h.idle
      exact h.schedulerAdd hne hstep
  | destroy p =>
      obtain rfl := Option.some_inj.mp hstep
      have hne : d ≠ p := by
        rintro rfl
        exact hcall h.idle
      exact ⟨(roots_destroy k p).2.2.2.trans h.idle, live_destroy.mpr ⟨h.live, hne⟩,
        h.off.destroy p⟩
  | sched call =>
      exact step_elim hstep (fun k₁ again hprelude => h.prelude hcall.1 hprelude)
        fun k₁ hprelude h₁ hrun => h₁.schedule (hcall.2 fuel k₁ hprelude) hrun

theorem special_boot (hk : k.Booted) (hidle : k.idleProc = some d) : k.Special d := by
  obtain ⟨-, ⟨hnone, -⟩ | ⟨p, hp, hview⟩⟩ := boot_cases hk
  · cases hnone.symm.trans hidle
  · obtain rfl := Option.some_inj.mp (hp.symm.trans hidle)
    have hstate : (k.processes p).state = .ready := by
      rw [show (k.processes p).state = k.view.state p from rfl, hview]
      simp [View.retype]
    refine ⟨hidle, by simp [Live, hstate], fun i => ?_, ?_, fun q => ?_⟩
    · rw [show k.readyQueues i = k.view.ready i from rfl, hview]
      simp [View.retype, noProcess]
    · rw [show k.sleepQueue = k.view.sleep from rfl, hview]
      simp [View.retype, noProcess]
    · rw [show (k.processes q).next = k.view.links.next q from rfl, hview]
      simp [View.retype, noProcess]

/-- **The idle process is never queued** in a run in which `schedule` never takes the processor from it,
nobody unblocks it and it does not sleep: it is in no ready queue in any state that is reached. -/
theorem idle_never_queued (hboot : k.Booted) (hidle : k.idleProc = some d)
    (hrun : LifeRun SparesIdle k k') :
    k'.idleProc = some d ∧ ∀ i, ¬ k'.Reaches (k'.readyQueues i) d := by
  have h : k'.Special d := by
    induction hrun with
    | refl => exact special_boot hboot hidle
    | tail _ hstep ih =>
        obtain ⟨call, fuel, hcall, hstep⟩ := hstep
        exact ih.lifeStep hcall hstep
  exact ⟨h.idle, h.off.not_reaches⟩

instance (k : Kernel) : Decidable k.IdleStays :=
  decidable_of_iff (∀ d, k.idleProc = some d → k.currentProcess = some d →
    (k.processes d).state = .running → k.findNextProcess = none ∨ k.findNextProcess = some d) Iff.rfl

instance (k : Kernel) (call : SchedCall) : Decidable (k.LeavesIdle call) :=
  match call with
  | .unblock p => inferInstanceAs
      (Decidable (k.idleProc = some p → (k.processes p).state ≠ .blocked))
  | .sleep _ => inferInstanceAs
      (Decidable (∀ d, k.idleProc = some d → k.currentProcess ≠ some d))
  | .spawn .. | .start | .tick | .yield | .block _ => isTrue trivial

def idleStaysNow (k : Kernel) (call : SchedCall) : Bool :=
  match k.prelude 65 call with
  | some (k₁, true) => k₁.IdleStays
  | some (_, false) => true
  | none => false

def SparesIdleNow (k : Kernel) : LifeCall → Prop
  | .create .. => True
  | .add p => k.idleProc ≠ some p
  | .destroy p => k.idleProc ≠ some p
  | .sched call => k.LeavesIdle call ∧ k.idleStaysNow call = true

instance (k : Kernel) (call : LifeCall) : Decidable (k.SparesIdleNow call) :=
  match call with
  | .create .. => isTrue trivial
  | .add p | .destroy p => inferInstanceAs (Decidable (k.idleProc ≠ some p))
  | .sched call => inferInstanceAs (Decidable (k.LeavesIdle call ∧ k.idleStaysNow call = true))

theorem SparesIdleNow.sparesIdle {call : LifeCall} (h : k.SparesIdleNow call) :
    k.SparesIdle call := by
  cases call with
  | create name entry priority => trivial
  | add p => exact h
  | destroy p => exact h
  | sched call =>
      refine ⟨h.1, fun fuel k₁ hprelude => ?_⟩
      have hstays := h.2
      rw [idleStaysNow] at hstays
      cases hfuel : k.prelude 65 call with
      | none => simp [hfuel] at hstays
      | some r =>
          obtain rfl := prelude_unique hprelude hfuel
          simpa [hfuel] using hstays

theorem LifeRun.mono {ok ok' : Kernel → LifeCall → Prop} (h : ∀ k call, ok k call → ok' k call)
    (hrun : LifeRun ok k k') : LifeRun ok' k k' := by
  induction hrun with
  | refl => exact .refl
  | tail _ hstep ih =>
      obtain ⟨call, fuel, hcall, hstep⟩ := hstep
      exact ih.tail ⟨call, fuel, h _ call hcall, hstep⟩

/-- Process 1 sleeps, and the idle process keeps the processor for the rest of its slice. -/
def idleCalls : List LifeCall :=
  [.create [65] 0 16, .add 1, .sched .start, .sched .tick, .sched (.sleep 2), .sched .tick,
    .sched .tick]

theorem idle_never_queued_idleCalls : ∃ k',
    sampleBoot.lifeReplay SparesIdleNow idleCalls = some k' ∧
      ∀ i, ¬ k'.Reaches (k'.readyQueues i) 0 := by
  obtain ⟨k', hk'⟩ := Option.isSome_iff_exists.mp
    (by decide +kernel : (sampleBoot.lifeReplay SparesIdleNow idleCalls).isSome = true)
  have hidle : sampleBoot.idleProc = some 0 := by decide +kernel
  have hrun := (lifeRun_of_replay hk').mono fun k call h => h.sparesIdle
  exact ⟨k', hk', (idle_never_queued booted_sampleBoot hidle hrun).2⟩

/-- The processes that are added are those that were created, and none is destroyed. -/
def AddsCreated (k : Kernel) : LifeCall → Prop
  | .add p => k.idleProc ≠ some p ∧ k.Live p
  | .destroy _ => False
  | _ => True

instance (k : Kernel) (call : LifeCall) : Decidable (k.AddsCreated call) :=
  match call with
  | .add p => inferInstanceAs (Decidable (k.idleProc ≠ some p ∧ k.Live p))
  | .destroy _ => isFalse not_false
  | .create .. | .sched _ => isTrue trivial

/-- Process 1 wakes while the idle process runs, whose slice is over after ten ticks. -/
def idlePreempted : List LifeCall :=
  [.create [65] 0 16, .add 1, .sched .start, .sched (.sleep 1)] ++ List.replicate 10 (.sched .tick)

theorem not_idle_never_queued_preempted :
    ¬ ∀ k k' d, k.Booted → k.idleProc = some d → LifeRun AddsCreated k k' →
      ∀ i, ¬ k'.Reaches (k'.readyQueues i) d := by
  intro h
  have heval : ((sampleBoot.lifeReplay AddsCreated idlePreempted).map fun k =>
      k.readyQueues 31) = some (some 0) := by decide +kernel
  have hidle : sampleBoot.idleProc = some 0 := by decide +kernel
  obtain ⟨k', hreplay, hqueue⟩ := Option.map_eq_some_iff.mp heval
  exact h sampleBoot k' 0 booted_sampleBoot hidle (lifeRun_of_replay hreplay) 31 (.head hqueue)

end SimpleOs.Kernel
