import SimpleOs.Proof.PmmPages
import SimpleOs.Proof.SchedCalls

/-!
# Runs of the scheduler

A call works on the queues first and may then call `schedule`; `prelude` is the first part. As long as
no call takes a sleeping process for one that is in a ready queue or in no list, the lists stay
properly linked and every call returns.
-/

namespace SimpleOs

/-- What the kernel can ask of the scheduler. A new process is created and added in one go. -/
inductive SchedCall where
  | spawn (name : List (BitVec 8)) (entry : Nat) (priority : Int)
  | start
  | tick
  | yield
  | block (proc : Option ProcPtr)
  | unblock (p : ProcPtr)
  | sleep (ticks : X86.Word)
deriving Repr, DecidableEq

namespace Kernel

/-- `none` when the call does not return, or not within `fuel` turns of the wake loop. -/
def step (k : Kernel) (fuel : Nat) : SchedCall → Option Kernel
  | .spawn name entry priority => k.spawn name entry priority
  | .start => k.schedulerStart
  | .tick => k.schedulerTick fuel
  | .yield => k.schedulerYield
  | .block proc => k.schedulerBlock proc
  | .unblock p => k.schedulerUnblock p
  | .sleep ticks => k.schedulerSleep ticks

/-- The state up to the call of `schedule`, and whether there is one. -/
def prelude (k : Kernel) (fuel : Nat) : SchedCall → Option (Kernel × Bool)
  | .spawn name entry priority => (k.spawn name entry priority).map (·, false)
  | .start => some ({ k with schedulerRunning := true }, true)
  | .tick => (wakeSleepers { k with currentTick := k.currentTick + 1 } fuel).map expireSlice
  | .yield => some (k.yieldSlice, true)
  | .block proc =>
      match proc.or k.currentProcess with
      | none => some (k, false)
      | some p => some (k.blockProcess p, k.currentProcess = some p)
  | .unblock p => (k.schedulerUnblock p).map (·, false)
  | .sleep ticks =>
      match k.currentProcess with
      | none => some (k, false)
      | some p => (k.fallAsleep p ticks).map (·, true)

variable {k k' k₁ : Kernel} {p : ProcPtr} {call : SchedCall} {fuel fuel' : Nat}

theorem step_eq_prelude (k : Kernel) (fuel : Nat) (call : SchedCall) :
    k.step fuel call = (k.prelude fuel call).bind fun r => if r.2 then r.1.schedule else some r.1 := by
  cases call with
  | spawn name entry priority =>
      rw [step, prelude]
      cases k.spawn name entry priority <;> rfl
  | start => rfl
  | tick =>
      rw [step, prelude, schedulerTick]
      cases wakeSleepers { k with currentTick := k.currentTick + 1 } fuel <;> rfl
  | yield => rfl
  | block proc =>
      rw [step, prelude, schedulerBlock]
      cases proc.or k.currentProcess with
      | none => rfl
      | some p =>
          simp only [(sameClock_blockProcess k p).current, Option.bind_some, decide_eq_true_eq]
  | unblock p =>
      rw [step, prelude]
      cases k.schedulerUnblock p <;> rfl
  | sleep ticks =>
      rw [step, prelude, schedulerSleep]
      cases k.currentProcess with
      | none => rfl
      | some p =>
          simp only
          cases k.fallAsleep p ticks <;> rfl

theorem prelude_unique {r r' : Kernel × Bool} (h : k.prelude fuel call = some r)
    (h' : k.prelude fuel' call = some r') : r = r' := by
  cases call with
  | tick =>
      simp only [prelude, Option.map_eq_some_iff] at h h'
      obtain ⟨k₁, hwake, rfl⟩ := h
      obtain ⟨k₂, hwake', rfl⟩ := h'
      rw [wakeSleepers_unique hwake hwake']
  | _ => exact Option.some_inj.mp (h.symm.trans h')

/-- What the first part of a call can come to. -/
inductive Preludes (k : Kernel) (fuel : Nat) : SchedCall → Kernel → Bool → Prop
  | unborn {name : List (BitVec 8)} {entry : Nat} {priority : Int} {k₁ : Kernel}
      (hcreate : k.processCreateKernelThread name entry priority = (none, k₁)) :
      Preludes k fuel (.spawn name entry priority) k₁ false
  | spawned {name : List (BitVec 8)} {entry : Nat} {priority : Int} {p : ProcPtr} {k₂ k₁ : Kernel}
      (hcreate : k.processCreateKernelThread name entry priority = (some p, k₂))
      (hadd : k₂.schedulerAdd p = some k₁) :
      Preludes k fuel (.spawn name entry priority) k₁ false
  | started : Preludes k fuel .start { k with schedulerRunning := true } true
  | ticked {k₂ : Kernel}
      (hwake : wakeSleepers { k with currentTick := k.currentTick + 1 } fuel = some k₂) :
      Preludes k fuel .tick k₂.expireSlice.1 k₂.expireSlice.2
  | yielded : Preludes k fuel .yield k.yieldSlice true
  | nobody {proc : Option ProcPtr} (hproc : proc.or k.currentProcess = none) :
      Preludes k fuel (.block proc) k false
  | blocked {proc : Option ProcPtr} {p : ProcPtr} (hproc : proc.or k.currentProcess = some p) :
      Preludes k fuel (.block proc) (k.blockProcess p) (k.currentProcess = some p)
  | awake {p : ProcPtr} (hstate : (k.processes p).state ≠ .blocked) :
      Preludes k fuel (.unblock p) k false
  | unblocked {p : ProcPtr} {k₁ : Kernel} (hstate : (k.processes p).state = .blocked)
      (hadd : k.schedulerAdd p = some k₁) : Preludes k fuel (.unblock p) k₁ false
  | sleepless {ticks : X86.Word} (hcurrent : k.currentProcess = none) :
      Preludes k fuel (.sleep ticks) k false
  | asleep {ticks : X86.Word} {p : ProcPtr} {k₁ : Kernel} (hcurrent : k.currentProcess = some p)
      (hfall : k.fallAsleep p ticks = some k₁) : Preludes k fuel (.sleep ticks) k₁ true

theorem preludes {again : Bool} (h : k.prelude fuel call = some (k₁, again)) :
    k.Preludes fuel call k₁ again := by
  cases call with
  | spawn name entry priority =>
      obtain ⟨k₂, hspawn, hk₂⟩ := Option.map_eq_some_iff.mp h
      obtain ⟨rfl, rfl⟩ := Prod.mk.inj hk₂
      unfold spawn at hspawn
      split at hspawn
      · rename_i hcreate
        obtain rfl := Option.some_inj.mp hspawn
        exact .unborn hcreate
      · rename_i hcreate
        exact .spawned hcreate hspawn
  | start =>
      obtain ⟨rfl, rfl⟩ := Prod.mk.inj (Option.some_inj.mp h)
      exact .started
  | tick =>
      obtain ⟨k₂, hwake, hk₂⟩ := Option.map_eq_some_iff.mp h
      obtain ⟨rfl, rfl⟩ := Prod.mk.inj hk₂
      exact .ticked hwake
  | yield =>
      obtain ⟨rfl, rfl⟩ := Prod.mk.inj (Option.some_inj.mp h)
      exact .yielded
  | block proc =>
      simp only [prelude] at h
      split at h
      · rename_i hproc
        obtain ⟨rfl, rfl⟩ := Prod.mk.inj (Option.some_inj.mp h)
        exact .nobody hproc
      · rename_i hproc
        obtain ⟨rfl, rfl⟩ := Prod.mk.inj (Option.some_inj.mp h)
        exact .blocked hproc
  | unblock p =>
      obtain ⟨k₂, hunblock, hk₂⟩ := Option.map_eq_some_iff.mp h
      obtain ⟨rfl, rfl⟩ := Prod.mk.inj hk₂
      unfold schedulerUnblock at hunblock
      split at hunblock
      · rename_i hstate
        obtain rfl := Option.some_inj.mp hunblock
        exact .awake hstate
      · rename_i hstate
        exact .unblocked (not_not.mp hstate) hunblock
  | sleep ticks =>
      simp only [prelude] at h
      split at h
      · rename_i hcurrent
        obtain ⟨rfl, rfl⟩ := Prod.mk.inj (Option.some_inj.mp h)
        exact .sleepless hcurrent
      · rename_i hcurrent
        obtain ⟨k₂, hfall, hk₂⟩ := Option.map_eq_some_iff.mp h
        obtain ⟨rfl, rfl⟩ := Prod.mk.inj hk₂
        exact .asleep hcurrent hfall

/-- What holds after the first part of a call, and is kept by `schedule` if that is called, holds after
the call. -/
theorem step_elim {P : Kernel → Prop} (hstep : k.step fuel call = some k')
    (hprelude : ∀ k₁ again, k.prelude fuel call = some (k₁, again) → P k₁)
    (hschedule : ∀ k₁, k.prelude fuel call = some (k₁, true) → P k₁ → k₁.schedule = some k' → P k') :
    P k' := by
  rw [step_eq_prelude] at hstep
  obtain ⟨⟨k₁, again⟩, hfirst, hrest⟩ := Option.bind_eq_some_iff.mp hstep
  cases again with
  | false =>
      obtain rfl := Option.some_inj.mp hrest
      exact hprelude k₁ false hfirst
  | true => exact hschedule k₁ hfirst (hprelude k₁ true hfirst) hrest

theorem schedule_cases (hrun : k.schedule = some k') :
    k' = k ∨ ∃ next k₁, k.findNextProcess = some next ∧ k.currentProcess ≠ some next ∧
      k.requeueCurrent = some k₁ ∧ k' = k₁.switchTo next := by
  unfold schedule at hrun
  split at hrun
  · exact .inl (Option.some_inj.mp hrun).symm
  · rename_i next hnext
    split at hrun
    · exact .inl (Option.some_inj.mp hrun).symm
    · rename_i hother
      obtain ⟨k₁, hrequeue, rfl⟩ := Option.map_eq_some_iff.mp hrun
      exact .inr ⟨next, k₁, hnext, hother, hrequeue, rfl⟩

/-- The effect of the first part of a call, made while `current` is the current process. -/
def Effect (v : View) (current : Option ProcPtr) (v' : View) : SchedCall → Prop
  | .spawn _ _ priority => v' = v ∨ ∃ p, v.state p = .unused ∧
      (v.retype p .ready (clampPriority priority)).Enqueued p v'
  | .start => v' = v
  | .tick => v.Woken v'
  | .yield => v' = v
  | .block proc => proc.or current = none ∧ v' = v ∨
      ∃ p, proc.or current = some p ∧ v' = (v.remove p).setState p .blocked
  | .unblock p => v.state p ≠ .blocked ∧ v' = v ∨ v.state p = .blocked ∧ v.Enqueued p v'
  | .sleep _ => current = none ∧ v' = v ∨
      ∃ p, current = some p ∧ ((v.remove p).setState p .blocked).PutToSleep p v'

/-- The first part of the call does not take a sleeping process for one that is in a ready queue or in
no list. -/
def SparesSleepers (k : Kernel) : SchedCall → Prop
  | .block proc => ∀ p, proc.or k.currentProcess = some p → k.view.Removable p .blocked
  | .unblock p => (k.processes p).state = .blocked → ¬ k.view.InSleep p
  | .sleep _ => ∀ p, k.currentProcess = some p → k.sleepQueue ≠ some p
  | _ => True

theorem view_chargeTick (k : Kernel) (p : ProcPtr) : (k.chargeTick p).view = k.view :=
  k.view_modify p (fun _ => rfl) (fun _ => rfl) (fun _ => rfl) fun _ => rfl

theorem view_expireSlice (k : Kernel) : k.expireSlice.1.view = k.view := by
  rw [expireSlice]
  cases k.currentProcess with
  | none => rfl
  | some c =>
      simp only
      split
      · exact view_chargeTick k c
      · rfl

theorem sameClock_expireSlice (k : Kernel) : SameClock k k.expireSlice.1 := by
  rw [expireSlice]
  cases hcurrent : k.currentProcess with
  | none => exact SameClock.refl k
  | some c =>
      simp only
      split
      · exact ⟨rfl, rfl, rfl⟩
      · exact SameClock.refl k

theorem view_yieldSlice (k : Kernel) : k.yieldSlice.view = k.view := by
  rw [yieldSlice]
  cases k.currentProcess with
  | none => rfl
  | some c => exact view_setTimeSlice k c 0

theorem exists_prelude (h : k.view.Linked) (hcall : k.SparesSleepers call) :
    ∃ fuel k₁ again, k.prelude fuel call = some (k₁, again) ∧
      k₁.currentProcess = k.currentProcess ∧ k₁.idleProc = k.idleProc ∧
      Effect k.view k.currentProcess k₁.view call := by
  cases call with
  | spawn name entry priority =>
      obtain ⟨k₁, hspawn, hsame, hv⟩ := exists_spawn h name entry priority
      exact ⟨0, k₁, false, by rw [prelude, hspawn]; rfl, hsame.current, hsame.idle, hv⟩
  | start => exact ⟨0, _, true, rfl, rfl, rfl, rfl⟩
  | tick =>
      obtain ⟨fuel, k₁, hwake, hv, hsame⟩ :=
        exists_wakeSleepers (k := { k with currentTick := k.currentTick + 1 }) h
      have hexpire := sameClock_expireSlice k₁
      refine ⟨fuel, k₁.expireSlice.1, k₁.expireSlice.2, by rw [prelude, hwake]; rfl, ?_, ?_, ?_⟩
      · rw [hexpire.current, hsame.current]
      · rw [hexpire.idle, hsame.idle]
      · change k.view.Woken k₁.expireSlice.1.view
        rw [view_expireSlice]
        exact hv
  | yield =>
      refine ⟨0, k.yieldSlice, true, rfl, ?_, ?_, view_yieldSlice k⟩
      · unfold yieldSlice
        cases hcurrent : k.currentProcess <;> simp [setTimeSlice, modify, hcurrent]
      · unfold yieldSlice
        cases k.currentProcess <;> rfl
  | block proc =>
      simp only [prelude]
      cases hproc : proc.or k.currentProcess with
      | none => exact ⟨0, k, false, rfl, rfl, rfl, .inl ⟨hproc, rfl⟩⟩
      | some p =>
          have hsame := sameClock_blockProcess k p
          exact ⟨0, _, _, rfl, hsame.current, hsame.idle,
            .inr ⟨p, hproc, view_blockProcess h.sound p⟩⟩
  | unblock p =>
      simp only [prelude, schedulerUnblock]
      split
      · rename_i hstate
        exact ⟨0, k, false, rfl, rfl, rfl, .inl ⟨hstate, rfl⟩⟩
      · rename_i hstate
        have hblocked : k.view.state p = .blocked := not_not.mp hstate
        have hp := h.unlinked_of_blocked hblocked (hcall hblocked)
        obtain ⟨k₁, hadd, hv, hsame⟩ := exists_schedulerAdd h hp (by
          rw [show (k.processes p).state = .blocked from hblocked]
          decide)
        exact ⟨0, k₁, false, by rw [hadd]; rfl, hsame.current, hsame.idle, .inr ⟨hblocked, hv⟩⟩
  | sleep ticks =>
      simp only [prelude]
      cases hcurrent : k.currentProcess with
      | none => exact ⟨0, k, false, rfl, hcurrent, rfl, .inl ⟨rfl, rfl⟩⟩
      | some p =>
          obtain ⟨k₁, hsleep, hv, hsame⟩ := exists_fallAsleep h (hcall p hcurrent) ticks
          exact ⟨0, k₁, true, by simp [hsleep], hsame.current.trans hcurrent, hsame.idle,
            .inr ⟨p, rfl, hv⟩⟩

theorem linked_of_effect {v : View} (h : k.view.Linked) (hcall : k.SparesSleepers call)
    (heffect : Effect k.view k.currentProcess v call) : v.Linked := by
  cases call with
  | spawn name entry priority =>
      obtain rfl | ⟨p, hstate, hv⟩ := heffect
      · exact h
      · have hp := h.unlinked_of_state (p := p) (by simp [hstate]) (by simp [hstate])
        exact (h.retype hp _ _).enqueued ⟨hp.isolated, hp.ready, hp.sleep⟩ hv
  | start => exact (show v = k.view from heffect) ▸ h
  | tick => exact h.woken heffect
  | yield => exact (show v = k.view from heffect) ▸ h
  | block proc =>
      obtain ⟨-, rfl⟩ | ⟨p, hproc, rfl⟩ := heffect
      · exact h
      · exact h.remove (hcall p hproc)
  | unblock p =>
      obtain ⟨-, rfl⟩ | ⟨hblocked, hv⟩ := heffect
      · exact h
      · exact h.enqueued (h.unlinked_of_blocked hblocked (hcall hblocked)) hv
  | sleep ticks =>
      obtain ⟨-, rfl⟩ | ⟨p, hcurrent, hv⟩ := heffect
      · exact h
      · have hp := hcall p hcurrent
        refine (h.remove fun hsleep => absurd hsleep hp).putToSleep
          ((h.unlinked_remove hp).setState p .blocked) ?_ hv
        simp [View.setState]

/-- A call that keeps apart the processes that sleep and those that do not. -/
structure Safe (k : Kernel) (call : SchedCall) : Prop where
  spares : k.SparesSleepers call
  schedulable : ∀ fuel k₁, k.prelude fuel call = some (k₁, true) → k₁.Schedulable

structure Prepared (k : Kernel) (call : SchedCall) (k₁ : Kernel) : Prop where
  linked : k₁.view.Linked
  current : k₁.currentProcess = k.currentProcess
  idle : k₁.idleProc = k.idleProc
  effect : Effect k.view k.currentProcess k₁.view call

theorem prepared_of_prelude {again : Bool} (h : k.view.Linked) (hcall : k.SparesSleepers call)
    (hprelude : k.prelude fuel call = some (k₁, again)) : Prepared k call k₁ := by
  obtain ⟨fuel₁, k₂, again₂, hprelude₂, hcurrent, hidle, heffect⟩ := exists_prelude h hcall
  obtain ⟨rfl, -⟩ := Prod.mk.inj (prelude_unique hprelude hprelude₂)
  exact ⟨linked_of_effect h hcall heffect, hcurrent, hidle, heffect⟩

theorem step_cases (h : k.view.Linked) (hcall : k.SparesSleepers call)
    (hstep : k.step fuel call = some k') :
    ∃ k₁ again, k.prelude fuel call = some (k₁, again) ∧ Prepared k call k₁ ∧
      (again = false ∧ k' = k₁ ∨ again = true ∧ k₁.schedule = some k') := by
  rw [step_eq_prelude] at hstep
  obtain ⟨⟨k₁, again⟩, hprelude, hrest⟩ := Option.bind_eq_some_iff.mp hstep
  refine ⟨k₁, again, hprelude, prepared_of_prelude h hcall hprelude, ?_⟩
  cases again with
  | false => exact .inl ⟨rfl, (Option.some_inj.mp hrest).symm⟩
  | true => exact .inr ⟨rfl, hrest⟩

theorem Linked.schedule (h : k.view.Linked) (hsched : k.Schedulable)
    (hrun : k.schedule = some k') : k'.view.Linked := by
  obtain ⟨rfl, -⟩ | ⟨next, hswitch⟩ := schedule_switches h hrun
  · exact h
  · exact hswitch.linked h hsched

theorem linked_step (h : k.view.Linked) (hcall : k.Safe call)
    (hstep : k.step fuel call = some k') : k'.view.Linked := by
  obtain ⟨k₁, again, hprelude, hprepared, ⟨-, rfl⟩ | ⟨rfl, hrun⟩⟩ := step_cases h hcall.spares hstep
  · exact hprepared.linked
  · exact Linked.schedule hprepared.linked (hcall.schedulable fuel k₁ hprelude) hrun

theorem exists_step (h : k.view.Linked) (hcall : k.Safe call) :
    ∃ fuel k', k.step fuel call = some k' := by
  obtain ⟨fuel, k₁, again, hprelude, -, -, heffect⟩ := exists_prelude h hcall.spares
  refine ⟨fuel, ?_⟩
  rw [step_eq_prelude, hprelude, Option.bind_some]
  cases again with
  | false => exact ⟨k₁, rfl⟩
  | true =>
      obtain ⟨k', hrun, -⟩ := exists_schedule (linked_of_effect h hcall.spares heffect)
      exact ⟨k', hrun⟩

def boot (mem : ByteMemory) (pmm : Pmm) (kernelPml4 : X86.Word) (tssRsp0 : Nat) (cr3 : X86.Word)
    (idleEntry : Nat) : Kernel :=
  (loaded mem pmm kernelPml4 tssRsp0 cr3).schedulerInit idleEntry

/-- A kernel as `scheduler_init` leaves it, whatever memory and the page allocator are like. -/
def Booted (k : Kernel) : Prop :=
  ∃ mem pmm kernelPml4 tssRsp0 cr3 idleEntry, k = boot mem pmm kernelPml4 tssRsp0 cr3 idleEntry

/-- The states reached by calls that return and satisfy `ok`. -/
def Run (ok : Kernel → SchedCall → Prop) : Kernel → Kernel → Prop :=
  Relation.ReflTransGen fun k k' => ∃ call fuel, ok k call ∧ k.step fuel call = some k'

def noProcess : View where
  links := ⟨fun _ => none, fun _ => none⟩
  state _ := .unused
  queue _ := clampPriority 0
  ready _ := none
  bits _ := false
  sleep := none

theorem linked_noProcess : noProcess.Linked := by
  refine ⟨⟨?_, fun _ => 0, ?_⟩, ?_, ?_, ?_, ?_⟩ <;> simp [noProcess]

theorem boot_cases (hk : k.Booted) : k.currentProcess = none ∧
    (k.idleProc = none ∧ k.view = noProcess ∨
      ∃ p, k.idleProc = some p ∧ k.view = noProcess.retype p .ready 31) := by
  obtain ⟨mem, pmm, kernelPml4, tssRsp0, cr3, idleEntry, rfl⟩ := hk
  unfold boot schedulerInit
  simp only
  generalize hk₀ : processInit _ = k₀
  have hview : k₀.view = noProcess := by
    rw [← hk₀]
    simp [view, processInit, loaded, noProcess, Process.zero]
    rfl
  have hcurrent : k₀.currentProcess = none := hk₀ ▸ rfl
  obtain ⟨k₁, hcreate, hview₁, hsame⟩ | ⟨p, k₁, hcreate, -, hview₁, hsame⟩ :=
    processCreateKernelThread_cases (hview ▸ linked_noProcess) [105, 100, 108, 101] idleEntry
      schedPriorityIdle
  · rw [hcreate]
    exact ⟨hsame.current.trans hcurrent, .inl ⟨rfl, hview₁.trans hview⟩⟩
  · rw [hcreate]
    refine ⟨hsame.current.trans hcurrent, .inr ⟨p, rfl, ?_⟩⟩
    refine (view_setState _ p .ready).trans ?_
    refine (congrArg (View.setState · p .ready) hview₁).trans ?_
    rw [hview]
    simp [View.setState, View.retype, noProcess]
    rfl

theorem linked_boot (hk : k.Booted) : k.view.Linked := by
  obtain ⟨-, ⟨-, hview⟩ | ⟨p, -, hview⟩⟩ := boot_cases hk
  · exact hview ▸ linked_noProcess
  · have hp := linked_noProcess.unlinked_of_state (p := p) (by simp [noProcess])
      (by simp [noProcess])
    exact hview ▸ linked_noProcess.retype hp _ _

theorem linked_run (h : k.view.Linked) (hrun : Run Safe k k') : k'.view.Linked := by
  induction hrun with
  | refl => exact h
  | tail _ hstep ih =>
      obtain ⟨call, fuel, hcall, hstep⟩ := hstep
      exact linked_step ih hcall hstep

/-- **The queues are lists.** In every run in which no call takes a sleeping process for one that is
not, the ready queues and the sleep queue are finite lists with inverse links and without a process in
common, and every further such call returns. -/
theorem lists_of_run (hboot : k.Booted) (hrun : Run Safe k k') :
    (∃ ready sleep, k'.view.Lists ready sleep) ∧
      ∀ call, k'.Safe call → ∃ fuel k'', k'.step fuel call = some k'' := by
  have h := linked_run (linked_boot hboot) hrun
  exact ⟨h.exists_lists, fun call hcall => exists_step h hcall⟩

/-- Make calls one after the other, with fuel for 64 sleepers; `none` as soon as one does not return or
fails the check. -/
def replay (check : Kernel → SchedCall → Bool) (k : Kernel) : List SchedCall → Option Kernel
  | [] => some k
  | call :: calls =>
      if check k call then (k.step 65 call).bind fun k => replay check k calls else none

theorem run_of_replay {ok : Kernel → SchedCall → Prop} {check : Kernel → SchedCall → Bool}
    (hcheck : ∀ k call, check k call = true → ok k call) {calls : List SchedCall}
    (h : k.replay check calls = some k') : Run ok k k' := by
  induction calls generalizing k with
  | nil =>
      obtain rfl := Option.some_inj.mp h
      exact Relation.ReflTransGen.refl
  | cons call calls ih =>
      rw [replay] at h
      split at h
      · rename_i hok
        obtain ⟨k₁, hstep, hrest⟩ := Option.bind_eq_some_iff.mp h
        exact Relation.ReflTransGen.head ⟨call, 65, hcheck k call hok, hstep⟩ (ih hrest)
      · cases h

def sparesNow (k : Kernel) : SchedCall → Bool
  | .block proc => proc.or k.currentProcess ≠ k.sleepQueue
  | .unblock p => (k.processes p).state ≠ .blocked || k.sleepQueue = none
  | .sleep _ => k.sleepQueue = none || k.currentProcess ≠ k.sleepQueue
  | _ => true

def safeNow (k : Kernel) (call : SchedCall) : Bool :=
  k.sparesNow call && match k.prelude 65 call with
    | some (k₁, true) => k₁.sleepQueue = none || k₁.findNextProcess ≠ k₁.sleepQueue
    | some (_, false) => true
    | none => false

theorem sparesSleepers_of_sparesNow (h : k.sparesNow call = true) : k.SparesSleepers call := by
  cases call with
  | block proc =>
      intro p hp hsleep
      have hne : proc.or k.currentProcess ≠ k.sleepQueue := by simpa [sparesNow] using h
      exact absurd (hp.trans hsleep.symm) hne
  | unblock p =>
      rintro hblocked ⟨l, hl, hmem⟩
      have hnone : k.sleepQueue = none := by simpa [sparesNow, hblocked] using h
      exact hl.ne_none hmem hnone
  | sleep ticks =>
      intro p hp hsleep
      simp [sparesNow, hp, hsleep] at h
  | _ => trivial

theorem safe_of_safeNow (k : Kernel) (call : SchedCall) (h : k.safeNow call = true) :
    k.Safe call := by
  rw [safeNow, Bool.and_eq_true] at h
  refine ⟨sparesSleepers_of_sparesNow h.1, fun fuel k₁ hprelude next hnext _ hsleep => ?_⟩
  have hcheck := h.2
  cases hfuel : k.prelude 65 call with
  | none => simp [hfuel] at hcheck
  | some r =>
      obtain rfl := prelude_unique hprelude hfuel
      simp [hfuel, hnext, hsleep] at hcheck

def sampleBoot : Kernel := boot ByteMemory.zero Pmm.allConventional 0 0 0 0

theorem booted_sampleBoot : sampleBoot.Booted := ⟨_, _, _, _, _, _, rfl⟩

def sleepyCalls : List SchedCall :=
  [.spawn [65] 0 16, .spawn [66] 0 20, .start, .sleep 3, .tick, .sleep 1, .tick, .tick]

theorem lists_sleepyCalls : ∃ k', sampleBoot.replay safeNow sleepyCalls = some k' ∧
    ∃ ready sleep, k'.view.Lists ready sleep := by
  obtain ⟨k', hk'⟩ := Option.isSome_iff_exists.mp
    (by decide +kernel : (sampleBoot.replay safeNow sleepyCalls).isSome = true)
  exact ⟨k', hk', (lists_of_run booted_sampleBoot (run_of_replay safe_of_safeNow hk')).1⟩

def Created (k : Kernel) : SchedCall → Bool
  | .block (some p) => (k.processes p).state ≠ .unused
  | .unblock p => (k.processes p).state ≠ .unused
  | _ => true

/-- Unblocking a process that sleeps puts it into its ready queue as well. -/
theorem not_lists_unblockedSleeper : ¬ ∀ k k', k.Booted → Run (fun k call => k.Created call) k k' →
    ∃ ready sleep, k'.view.Lists ready sleep := by
  intro h
  have heval : ((sampleBoot.replay Created [.spawn [65] 0 16, .start, .sleep 10, .unblock 1]).map
      fun k => (k.sleepQueue, k.readyQueues 16)) = some (some 1, some 1) := by decide +kernel
  obtain ⟨k', hreplay, hk'⟩ := Option.map_eq_some_iff.mp heval
  obtain ⟨hsleep, hready⟩ := Prod.mk.injEq .. ▸ hk'
  obtain ⟨ready, sleep, hlists⟩ :=
    h sampleBoot k' booted_sampleBoot (run_of_replay (fun _ _ hok => hok) hreplay)
  have hreadyList := hlists.readyList 16
  have hsleepList := hlists.sleepList
  rw [show k'.view.ready 16 = some 1 from hready] at hreadyList
  rw [show k'.view.sleep = some 1 from hsleep] at hsleepList
  exact hlists.sleepDisjoint 16 hreadyList.head_mem hsleepList.head_mem

end Kernel

end SimpleOs
