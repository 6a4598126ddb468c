import SimpleOs.Cpu.Interrupt
import SimpleOs.Proof.SchedChoice

/-!
# Who can be interrupted

The timer interrupt that ends a slice switches threads before `pic_eoi` and `iretq`. They are left to the
thread it takes the processor from; the thread it gives the processor to has its own way on. If that is a
thread that was itself switched out by the timer, it sends the EOI and restores the flags. But there is
no such thread until the first switch by the timer, and that one goes to a thread that never ran or that
yielded: its code runs with interrupts disabled and IRQ 0 in service.
-/

namespace SimpleOs

open Cpu

namespace Kernel

variable {k k' k₁ : Kernel} {call : SchedCall} {fuel : Nat}

/-- The tick ends the slice of the running process, and there is another to go on with. -/
def Preempts (k : Kernel) : Prop :=
  ∃ c next, k.currentProcess = some c ∧ (k.processes c).state = .running ∧
    (k.processes c).timeSlice ≤ 1 ∧ k.findNextProcess = some next ∧ next ≠ c

/-- Properly linked, and nobody sleeps. -/
structure Awake (k : Kernel) : Prop where
  linked : k.view.Linked
  sleep : k.sleepQueue = none

theorem Awake.schedule (h : k.Awake) : ∃ k', k.schedule = some k' ∧ k'.Awake ∧
    k'.currentProcess = k.findNextProcess.or k.currentProcess := by
  have hsched : k.Schedulable := fun next _ _ hnext => by cases h.sleep.symm.trans hnext
  obtain ⟨k', hrun, hk'⟩ := exists_schedule h.linked
  refine ⟨k', hrun, ⟨Linked.schedule h.linked hsched hrun, ?_⟩, schedule_current h.linked hrun⟩
  obtain ⟨rfl, -⟩ | ⟨next, hswitch⟩ := hk'
  · exact h.sleep
  · obtain ⟨v, hv, hview⟩ := hswitch.requeued
    refine (congrArg View.sleep hview).trans ?_
    exact hv.sleep_eq.trans h.sleep

theorem Awake.congr (h : k.Awake) (hview : k'.view = k.view) : k'.Awake :=
  ⟨hview ▸ h.linked, (congrArg View.sleep hview).trans h.sleep⟩

theorem Awake.schedulerYield (h : k.Awake) : ∃ k', k.schedulerYield = some k' ∧ k'.Awake := by
  obtain ⟨k', hrun, hk', -⟩ := (h.congr (view_yieldSlice k)).schedule
  exact ⟨k', hrun, hk'⟩

theorem Awake.schedulerStart (h : k.Awake) : ∃ k', k.schedulerStart = some k' ∧ k'.Awake := by
  have hstarted : Awake { k with schedulerRunning := true } := ⟨h.linked, h.sleep⟩
  obtain ⟨k', hrun, hk', -⟩ := hstarted.schedule
  exact ⟨k', hrun, hk'⟩

theorem timeSlice_chargeTick (k : Kernel) (c : ProcPtr) :
    ((k.chargeTick c).processes c).timeSlice = 0 ↔ (k.processes c).timeSlice ≤ 1 := by
  simp only [chargeTick, modify, Function.update_self]
  split <;> bv_omega

/-- The tick switches exactly if it preempts. -/
theorem Awake.schedulerTick (h : k.Awake) : ∃ k', k.schedulerTick 65 = some k' ∧ k'.Awake ∧
    (k.Preempts → ∃ c next, k.currentProcess = some c ∧ k'.currentProcess = some next ∧ c ≠ next) ∧
    (¬ k.Preempts → k'.currentProcess = k.currentProcess) := by
  generalize hk₁ : { k with currentTick := k.currentTick + 1 } = k₁
  have h₁ : k₁.Awake := h.congr (by rw [← hk₁]; rfl)
  have hcurrent : k₁.currentProcess = k.currentProcess := by rw [← hk₁]
  have hprocesses : k₁.processes = k.processes := by rw [← hk₁]
  have hwake : k₁.wakeSleepers 65 = some k₁ := by
    rw [wakeSleepers, h₁.sleep]
  have hexpired := h₁.congr (view_expireSlice k₁)
  have hclock := sameClock_expireSlice k₁
  -- the queues, from which the next process is chosen, are those before the tick
  have hfind : k₁.expireSlice.1.findNextProcess = k.findNextProcess := by
    rw [← hk₁]
    unfold expireSlice
    cases k.currentProcess with
    | none => rfl
    | some c =>
        simp only
        split <;> rfl
  have hexpires : k₁.expireSlice.2 = true ↔ ∃ c, k.currentProcess = some c ∧
      (k.processes c).state = .running ∧ (k.processes c).timeSlice ≤ 1 := by
    unfold expireSlice
    rw [hcurrent, hprocesses]
    cases k.currentProcess with
    | none => simp
    | some c =>
        simp only
        split
        · rename_i hrunning
          rw [decide_eq_true_iff, timeSlice_chargeTick, hprocesses]
          simp [hrunning]
        · rename_i hrunning
          simp [hrunning]
  rw [Kernel.schedulerTick, hk₁, hwake, Option.bind_some]
  by_cases hagain : k₁.expireSlice.2 = true
  · obtain ⟨c, hc, hrunning, hslice⟩ := hexpires.mp hagain
    obtain ⟨k', hrun, hk', hcurrent'⟩ := hexpired.schedule
    rw [hfind, hclock.current, hcurrent] at hcurrent'
    rw [if_pos hagain]
    refine ⟨k', hrun, hk', ?_, fun hstays => ?_⟩
    · rintro ⟨c', next, hc', -, -, hnext, hne⟩
      refine ⟨c', next, hc', ?_, hne.symm⟩
      rw [hcurrent', hnext, Option.some_or]
    · cases hnext : k.findNextProcess with
      | none => rw [hcurrent', hnext, Option.none_or]
      | some next =>
          have heq : next = c := by
            by_contra hne
            exact hstays ⟨c, next, hc, hrunning, hslice, hnext, hne⟩
          rw [hcurrent', hnext, Option.some_or, heq, hc]
  · rw [if_neg hagain]
    refine ⟨_, rfl, hexpired, ?_, fun _ => hclock.current.trans hcurrent⟩
    rintro ⟨c, next, hc, hrunning, hslice, -⟩
    exact absurd (hexpires.mpr ⟨c, hc, hrunning, hslice⟩) hagain

end Kernel

namespace Cpu

variable {m m' : Cpu} {kernel : Kernel} {self : Suspension}

theorem contextSwitch_same (h : kernel.currentProcess = m.kernel.currentProcess) :
    m.contextSwitch kernel self = { m with kernel := kernel }.goOn self := by
  unfold contextSwitch
  rw [h]
  cases m.kernel.currentProcess with
  | none => rfl
  | some c => simp

theorem contextSwitch_other {c next : ProcPtr} (hc : m.kernel.currentProcess = some c)
    (hnext : kernel.currentProcess = some next) (hne : c ≠ next) :
    m.contextSwitch kernel self =
      { m with
        kernel := kernel
        suspended := Function.update m.suspended c self }.goOn (m.suspended next) := by
  unfold contextSwitch
  rw [hc, hnext]
  simp only [if_neg hne]

/-- No thread was switched out by the timer, and the running one can be interrupted. -/
structure Undisturbed (m : Cpu) : Prop where
  awake : m.kernel.Awake
  suspended : ∀ p, m.suspended p = .entry ∨ m.suspended p = .call
  preemptible : m.Preemptible

theorem goOn_of_own {s : Suspension} (hs : s = .entry ∨ s = .call) : m.goOn s = m := by
  obtain rfl | rfl := hs <;> rfl

theorem Undisturbed.contextSwitch (h : m.Undisturbed) (hk : kernel.Awake) :
    (m.contextSwitch kernel .call).Undisturbed := by
  by_cases hsame : kernel.currentProcess = m.kernel.currentProcess
  · rw [contextSwitch_same hsame]
    exact ⟨hk, h.suspended, h.preemptible⟩
  · cases hcurrent : m.kernel.currentProcess with
    | none =>
        cases hnext : kernel.currentProcess with
        | none => exact absurd (hnext.trans hcurrent.symm) hsame
        | some next =>
            have heq : m.contextSwitch kernel .call = { m with kernel := kernel } := by
              unfold Cpu.contextSwitch
              rw [hcurrent, hnext]
              exact goOn_of_own (h.suspended next)
            rw [heq]
            exact ⟨hk, h.suspended, h.preemptible⟩
    | some c =>
        cases hnext : kernel.currentProcess with
        | none =>
            have heq : m.contextSwitch kernel .call = { m with kernel := kernel } := by
              unfold Cpu.contextSwitch
              rw [hcurrent, hnext]
              rfl
            rw [heq]
            exact ⟨hk, h.suspended, h.preemptible⟩
        | some next =>
            have hne : c ≠ next := by
              rintro rfl
              exact hsame (hnext.trans hcurrent.symm)
            rw [contextSwitch_other hcurrent hnext hne, goOn_of_own (h.suspended next)]
            refine ⟨hk, fun p => ?_, h.preemptible⟩
            simp only [Function.update_apply]
            split
            · exact .inr rfl
            · exact h.suspended p

theorem Undisturbed.yield (h : m.Undisturbed) : ∃ m', m.yield = some m' ∧ m'.Undisturbed := by
  obtain ⟨k', hyield, hk'⟩ := h.awake.schedulerYield
  refine ⟨m.contextSwitch k' .call, ?_, h.contextSwitch hk'⟩
  rw [Cpu.yield, hyield]
  rfl

/-- A timer interrupt that does not switch returns to where it came from; one that does leaves the code
of the next thread with interrupts disabled. -/
theorem Undisturbed.timerInterrupt (h : m.Undisturbed) : ∃ m', m.timerInterrupt = some m' ∧
    (m.kernel.Preempts → ¬ m'.Preemptible) ∧ (¬ m.kernel.Preempts → m'.Undisturbed) := by
  obtain ⟨k', htick, hk', hswitch, hstay⟩ := h.awake.schedulerTick
  refine ⟨Cpu.contextSwitch { m with interruptFlag := false, inService := true } k'
    (.interrupt m.interruptFlag), ?_, fun hpreempts => ?_, fun hspares => ?_⟩
  · rw [Cpu.timerInterrupt, htick]
    rfl
  · obtain ⟨c, next, hc, hnext, hne⟩ := hswitch hpreempts
    rw [contextSwitch_other (m := { m with interruptFlag := false, inService := true }) hc hnext hne,
      goOn_of_own (h.suspended next)]
    simp [Preemptible]
  · rw [contextSwitch_same (m := { m with interruptFlag := false, inService := true }) (hstay hspares)]
    exact ⟨hk', h.suspended, h.preemptible.1, rfl⟩

theorem Undisturbed.step (h : m.Undisturbed) (event : Event) : ∃ m', m.step event = some m' ∧
    (event = .timer → m.kernel.Preempts → ¬ m'.Preemptible) ∧
    ((event = .timer → ¬ m.kernel.Preempts) → m'.Undisturbed) := by
  cases event with
  | timer =>
      obtain ⟨m', hm', hbad, hgood⟩ := h.timerInterrupt
      refine ⟨m', ?_, fun _ => hbad, fun hspares => hgood (hspares rfl)⟩
      rw [Cpu.step, if_pos ⟨h.preemptible.1, by simp [h.preemptible.2]⟩]
      exact hm'
  | yield =>
      obtain ⟨m', hm', hgood⟩ := h.yield
      exact ⟨m', hm', by simp, fun _ => hgood⟩

theorem run_cons (m : Cpu) (event : Event) (events : List Event) :
    m.run (event :: events) = (m.step event).bind fun m => m.run events := rfl

/-- Kernel threads have been created and added, and the scheduler was started. -/
def Started (m : Cpu) : Prop :=
  ∃ k₀ k, k₀.Booted ∧
    Kernel.Run (fun _ call => ∃ name entry priority, call = .spawn name entry priority) k₀ k ∧
    start k = some m

theorem awake_of_spawns {k₀ k : Kernel} (hboot : k₀.Booted)
    (hrun : Kernel.Run (fun _ call => ∃ name entry priority, call = .spawn name entry priority)
      k₀ k) : k.Awake := by
  induction hrun with
  | refl =>
      refine ⟨Kernel.linked_boot hboot, ?_⟩
      obtain ⟨-, ⟨-, hview⟩ | ⟨p, -, hview⟩⟩ := Kernel.boot_cases hboot
      · exact congrArg View.sleep hview
      · exact congrArg View.sleep hview
  | @tail k k' _ hstep ih =>
      obtain ⟨call, fuel, ⟨name, entry, priority, rfl⟩, hspawn⟩ := hstep
      obtain ⟨k', hspawn', -, heffect⟩ := Kernel.exists_spawn ih.linked name entry priority
      obtain rfl := Option.some_inj.mp (hspawn.symm.trans hspawn')
      have hspawned : Kernel.Effect k.view k.currentProcess k'.view
          (.spawn name entry priority) := heffect
      have hspares : k.SparesSleepers (.spawn name entry priority) := trivial
      refine ⟨Kernel.linked_of_effect ih.linked hspares hspawned, ?_⟩
      obtain hview | ⟨p, -, hv⟩ := heffect
      · exact (congrArg View.sleep hview).trans ih.sleep
      · exact hv.sleep_eq.trans ih.sleep

theorem Started.undisturbed (h : m.Started) : m.Undisturbed := by
  obtain ⟨k₀, k, hboot, hrun, hstart⟩ := h
  have hawake := awake_of_spawns hboot hrun
  have henabled : (enabled k).Undisturbed := ⟨hawake, fun _ => .inl rfl, rfl, rfl⟩
  obtain ⟨k', hk, hk'⟩ := hawake.schedulerStart
  rw [start, hk] at hstart
  obtain rfl := Option.some_inj.mp hstart
  exact henabled.contextSwitch hk'

/-- **Preemption.** In a run of timer interrupts and yields the code of the threads can always be
interrupted if and only if no timer interrupt of the run switches threads. -/
theorem preemptible_iff (h : m.Started) (events : List Event) :
    (∀ es m', es <+: events → m.run es = some m' → m'.Preemptible) ↔
      ∀ es m', es ++ [.timer] <+: events → m.run es = some m' → ¬ m'.kernel.Preempts := by
  replace h := h.undisturbed
  induction events generalizing m with
  | nil =>
      refine iff_of_true (fun es m' hes hrun => ?_) fun es m' hes => ?_
      · obtain rfl := List.prefix_nil.mp hes
        obtain rfl := Option.some_inj.mp hrun
        exact h.preemptible
      · simp at hes
  | cons event events ih =>
      obtain ⟨m₁, hstep, hbad, hgood⟩ := h.step event
      by_cases hpreempts : event = .timer ∧ m.kernel.Preempts
      · obtain ⟨rfl, hpreempts⟩ := hpreempts
        refine iff_of_false (fun hall => ?_) fun hall => ?_
        · refine hbad rfl hpreempts (hall [.timer] m₁ (by simp) ?_)
          rw [run_cons, hstep]
          rfl
        · exact hall [] m (by simp) rfl hpreempts
      · have hspares : event = .timer → ¬ m.kernel.Preempts := fun heq hp => hpreempts ⟨heq, hp⟩
        have hrun : ∀ es, m.run (event :: es) = m₁.run es := by
          intro es
          rw [run_cons, hstep]
          rfl
        have hrest := ih (hgood hspares)
        constructor
        · intro hall es m' hes hm'
          have hlater := hrest.mp fun es m' hes hm' =>
            hall (event :: es) m' (List.cons_prefix_cons.mpr ⟨rfl, hes⟩) ((hrun es).trans hm')
          cases es with
          | nil =>
              obtain ⟨heq, -⟩ := List.cons_prefix_cons.mp hes
              obtain rfl := Option.some_inj.mp hm'
              exact hspares heq.symm
          | cons e es =>
              obtain ⟨rfl, htail⟩ := List.cons_prefix_cons.mp hes
              exact hlater es m' htail ((hrun es).symm.trans hm')
        · intro hall es m' hes hm'
          have hlater := hrest.mpr fun es m' hes hm' =>
            hall (event :: es) m' (List.cons_prefix_cons.mpr ⟨rfl, hes⟩) ((hrun es).trans hm')
          cases es with
          | nil =>
              obtain rfl := Option.some_inj.mp hm'
              exact h.preemptible
          | cons e es =>
              obtain ⟨rfl, htail⟩ := List.cons_prefix_cons.mp hes
              exact hlater es m' htail ((hrun es).symm.trans hm')

def isSpawn : SchedCall → Bool
  | .spawn .. => true
  | _ => false

/-- Two threads of the lowest priority: their slices are six ticks. -/
def pairStarted : Option Cpu :=
  (Kernel.sampleBoot.replay (fun _ call => isSpawn call) [.spawn [65] 0 31, .spawn [66] 0 31]).bind
    start

theorem started_pairStarted (h : pairStarted = some m) : m.Started := by
  obtain ⟨k, hreplay, hstart⟩ := Option.bind_eq_some_iff.mp h
  refine ⟨_, k, Kernel.booted_sampleBoot, Kernel.run_of_replay (fun _ call hcall => ?_) hreplay,
    hstart⟩
  cases call with
  | spawn name entry priority => exact ⟨name, entry, priority, rfl⟩
  | _ => cases hcall

/-- One thread yields to the other, which is then interrupted in the middle of its slice. -/
theorem preemptible_pairStarted : ∃ m, pairStarted = some m ∧
    ∀ es m', es <+: [.yield, .timer] → m.run es = some m' → m'.Preemptible := by
  have heval : (pairStarted.bind fun m => (m.run [.yield]).map fun m' =>
      (m'.kernel.currentProcess, (m'.kernel.processes 2).timeSlice)) = some (some 2, 6) := by
    decide +kernel
  obtain ⟨m, hm, heval⟩ := Option.bind_eq_some_iff.mp heval
  refine ⟨m, hm, (preemptible_iff (started_pairStarted hm) [.yield, .timer]).mpr ?_⟩
  rintro es m' hes hrun ⟨c, next, hc, -, hslice, -⟩
  have hyield : es = [.yield] := by
    have hlength := hes.length_le
    match es, hes, hlength with
    | [], hes, _ => cases (List.cons_prefix_cons.mp hes).1
    | [e], hes, _ => rw [(List.cons_prefix_cons.mp hes).1]
    | _ :: _ :: _, _, hlength => simp at hlength
  rw [hyield] at hrun
  rw [hrun] at heval
  obtain ⟨hcurrent, hsix⟩ := Prod.mk.inj (Option.some_inj.mp heval)
  obtain rfl := Option.some_inj.mp (hc.symm.trans hcurrent)
  rw [hsix] at hslice
  exact absurd hslice (by decide)

/-- The sixth tick ends the slice of the first thread: the second starts with interrupts disabled. -/
theorem not_preemptible_pairStarted :
    ¬ ∀ (m : Cpu) (events : List Event) (m' : Cpu), m.Started → m.run events = some m' →
      m'.Preemptible := by
  intro h
  have heval : (pairStarted.bind fun m => (m.run (List.replicate 6 .timer)).map fun m' =>
      m'.interruptFlag) = some false := by decide +kernel
  obtain ⟨m, hm, heval⟩ := Option.bind_eq_some_iff.mp heval
  obtain ⟨m', hrun, hflag⟩ := Option.map_eq_some_iff.mp heval
  have hset := (h m _ m' (started_pairStarted hm) hrun).1
  cases hflag.symm.trans hset

end Cpu

end SimpleOs
