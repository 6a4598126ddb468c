import SimpleOs.Proof.SchedComplete

/-!
# Which process `schedule` chooses

`schedule` asks the bitmap before it puts the running process back, so the running process takes no
part in the choice: it loses the processor to any queued process, and to the idle process if there is
none. And an idle process that has once been preempted stands in the queue of its priority like any
other.
-/

namespace SimpleOs

namespace View

def Backed (v : View) : Prop := ∀ i, v.bits i = true → v.ready i ≠ none

variable {v v' : View} {p : ProcPtr} {s : ProcState}

theorem Backed.enqueued (h : v.Backed) (hv : v.Enqueued p v') : v'.Backed := by
  obtain ⟨-, rfl⟩ | ⟨tail, -, -, rfl⟩ := hv
  · intro i hi
    simp only [View.enqueueFirst, Function.update_apply] at hi ⊢
    by_cases heq : i = v.queue p
    · simp [heq]
    · rw [if_neg heq] at hi ⊢
      exact h i hi
  · exact h

theorem Backed.remove (h : v.Backed) (p : ProcPtr) (s : ProcState) :
    ((v.remove p).setState p s).Backed := by
  intro i hi
  simp only [View.remove, View.setState, Bool.and_eq_true, Bool.not_eq_true',
    Bool.and_eq_false_iff, decide_eq_false_iff_not] at hi ⊢
  obtain ⟨hbit, hother | hsome⟩ := hi
  · rw [readyWithout]
    split
    · rw [Function.update_of_ne hother]
      exact h i hbit
    · exact h i hbit
  · intro hnone
    simp [hnone] at hsome

theorem Backed.pop (h : v.Backed) (p : ProcPtr) : (v.pop p).Backed := h

theorem Backed.woken (h : v.Backed) (hv : v.Woken v') : v'.Backed := by
  induction hv with
  | refl v => exact h
  | wake hp hadd _ ih => exact ih ((h.pop _).enqueued hadd)

theorem Backed.requeued (h : v.Backed) {current : Option ProcPtr} (hv : v.Requeued current v') :
    v'.Backed := by
  obtain ⟨c, -, -, hv⟩ | ⟨-, rfl⟩ := hv
  · exact h.enqueued hv
  · exact h

end View

namespace Kernel

variable {k k' k₁ k₂ : Kernel} {p q : ProcPtr} {call : SchedCall} {fuel : Nat} {i : Fin 32}

theorem backed_of_effect {v : View} {current : Option ProcPtr} (h : k.view.Backed)
    (heffect : Effect k.view current v call) : v.Backed := by
  cases call with
  | spawn name entry priority =>
      obtain rfl | ⟨p, -, hv⟩ := heffect
      · exact h
      · have hretype : (k.view.retype p .ready (clampPriority priority)).Backed := h
        exact hretype.enqueued hv
  | start => exact (show v = k.view from heffect) ▸ h
  | tick => exact h.woken heffect
  | yield => exact (show v = k.view from heffect) ▸ h
  | block proc =>
      obtain ⟨-, rfl⟩ | ⟨p, -, rfl⟩ := heffect
      · exact h
      · exact h.remove p _
  | unblock p =>
      obtain ⟨-, rfl⟩ | ⟨-, hv⟩ := heffect
      · exact h
      · exact h.enqueued hv
  | sleep ticks =>
      obtain ⟨-, rfl⟩ | ⟨p, -, rfl | ⟨pos, -, rfl⟩⟩ := heffect
      · exact h
      · exact h.remove p .blocked
      · exact h.remove p .blocked

theorem backed_step (hlinked : k.view.Linked) (h : k.view.Backed) (hspares : k.SparesSleepers call)
    (hstep : k.step fuel call = some k') : k'.view.Backed := by
  obtain ⟨k₁, again, -, hprepared, hrest⟩ := step_cases hlinked hspares hstep
  have h₁ : k₁.view.Backed := backed_of_effect h hprepared.effect
  obtain ⟨-, rfl⟩ | ⟨rfl, hrun⟩ := hrest
  · exact h₁
  · obtain ⟨rfl, -⟩ | ⟨next, hswitch⟩ := schedule_switches hprepared.linked hrun
    · exact h₁
    · obtain ⟨v, hv, hview⟩ := hswitch.requeued
      rw [hview]
      exact (h₁.requeued hv).remove next .running

theorem backed_boot (hk : k.Booted) : k.view.Backed := by
  obtain ⟨-, ⟨-, hview⟩ | ⟨p, -, hview⟩⟩ := boot_cases hk
  · rw [hview]
    intro i hi
    cases hi
  · rw [hview]
    intro i hi
    cases hi

theorem backed_run (hk : k.Booted) (hrun : Run Safe k k') : k'.view.Linked ∧ k'.view.Backed := by
  induction hrun with
  | refl => exact ⟨linked_boot hk, backed_boot hk⟩
  | tail _ hstep ih =>
      obtain ⟨call, fuel, hsafe, hstep⟩ := hstep
      exact ⟨linked_step ih.1 hsafe hstep, backed_step ih.1 ih.2 hsafe.spares hstep⟩

/-- Ready and in a ready queue, or running. -/
def Runnable (k : Kernel) (p : ProcPtr) : Prop :=
  (∃ i, k.view.InReady i p) ∨ k.currentProcess = some p ∧ (k.processes p).state = .running

/-- `k'` is what a priority scheduler may make of `k`: the current process is a runnable one that no
other runnable one outranks, and the idle process only if nobody else is runnable. -/
structure PicksHighest (k k' : Kernel) : Prop where
  highest : ∀ q, k.Runnable q →
    ∃ p, k'.currentProcess = some p ∧ k.Runnable p ∧ k.queueOf p ≤ k.queueOf q
  idleLast : ∀ p, k.idleProc = some p → k'.currentProcess = some p → ∀ q, k.Runnable q → q = p

def Marked (k : Kernel) : Prop :=
  ∀ i, k.readyQueues i ≠ none → k.readyBitmap.getLsbD i.val = true

/-- A state in which the order of the steps of `schedule` does not matter. -/
structure Fair (k : Kernel) : Prop where
  /-- The bitmap knows the most urgent queue. -/
  marked : ∀ i, k.readyQueues i ≠ none → ∃ j ≤ i, k.readyBitmap.getLsbD j.val = true
  /-- The running process does not outrank all who are queued, and if nobody is queued, it is the idle
  process or there is none. -/
  running : ∀ c, k.currentProcess = some c → (k.processes c).state = .running →
    (∃ i ≤ k.queueOf c, k.readyQueues i ≠ none) ∨
      (∀ i, k.readyQueues i = none) ∧ (k.idleProc = some c ∨ k.idleProc = none)
  /-- If the idle process is the first in the most urgent queue, it is the only one queued and nobody
  is running. -/
  idle : ∀ p, k.idleProc = some p → k.readyQueues (k.queueOf p) = some p →
    (∀ j < k.queueOf p, k.readyQueues j = none) →
    (k.processes p).next = none ∧ (∀ j ≠ k.queueOf p, k.readyQueues j = none) ∧
      ∀ c, k.currentProcess = some c → (k.processes c).state ≠ .running

theorem val_lowestBit {bitmap : BitVec 32} (h : bitmap ≠ 0) :
    (lowestBit bitmap).val = bitmap.ctz.toNat := by
  have hlt := BitVec.ctz_lt_iff_ne_zero.mpr h
  rw [BitVec.lt_def] at hlt
  exact Nat.mod_eq_of_lt hlt

theorem getLsbD_lowestBit {bitmap : BitVec 32} (h : bitmap ≠ 0) :
    bitmap.getLsbD (lowestBit bitmap).val = true := by
  rw [val_lowestBit h]
  exact BitVec.getLsbD_true_ctz_of_ne_zero h

theorem lowestBit_le {bitmap : BitVec 32} (hi : bitmap.getLsbD i.val = true) :
    lowestBit bitmap ≤ i := by
  have hne : bitmap ≠ 0 := by
    rintro rfl
    simp at hi
  by_contra hlt
  rw [not_le, Fin.lt_def, val_lowestBit hne] at hlt
  rw [BitVec.getLsbD_false_of_lt_ctz hlt] at hi
  cases hi

theorem findNextProcess_marked (hlinked : k.view.Linked) (hbacked : k.view.Backed)
    (hbit : k.readyBitmap ≠ 0) :
    ∃ next, k.findNextProcess = some next ∧ k.readyQueues (k.queueOf next) = some next ∧
      (k.processes next).state = .ready ∧ k.queueOf next = lowestBit k.readyBitmap := by
  rw [findNextProcess, if_neg hbit]
  cases hhead : k.readyQueues (lowestBit k.readyBitmap) with
  | none => exact absurd hhead (hbacked _ (getLsbD_lowestBit hbit))
  | some next =>
      obtain ⟨-, hstate, hqueue⟩ := hlinked.readyHead _ next hhead
      have hqueue' : k.queueOf next = lowestBit k.readyBitmap := hqueue
      exact ⟨next, rfl, hqueue' ▸ hhead, hstate, hqueue'⟩

theorem inReady_cases (hlinked : k.view.Linked) (h : k.view.InReady i p) :
    k.queueOf p = i ∧ k.readyQueues i ≠ none ∧ (k.processes p).state = .ready := by
  obtain ⟨l, hl, hmem⟩ := h
  obtain ⟨hstate, hqueue⟩ := hlinked.forall_ready hl p hmem
  exact ⟨hqueue, hl.ne_none hmem, hstate⟩

theorem runnable_head (hlinked : k.view.Linked) (hp : k.readyQueues i = some p) : k.Runnable p :=
  .inl ⟨i, hlinked.inReady_head hp⟩

theorem schedule_current (hlinked : k.view.Linked) (hrun : k.schedule = some k') :
    k'.currentProcess = k.findNextProcess.or k.currentProcess := by
  obtain ⟨rfl, hnone | hsame⟩ | ⟨next, hswitch⟩ := schedule_switches hlinked hrun
  · rw [hnone, Option.none_or]
  · rw [hsame, Option.or_self]
  · rw [hswitch.chosen, hswitch.current, Option.some_or]

theorem empty_of_bitmap_zero (hfair : k.Fair) (hzero : k.readyBitmap = 0) (i : Fin 32) :
    k.readyQueues i = none := by
  by_contra hne
  obtain ⟨j, -, hbit⟩ := hfair.marked i hne
  simp [hzero] at hbit

theorem Fair.picksHighest (hfair : k.Fair) (hlinked : k.view.Linked) (hbacked : k.view.Backed)
    (hrun : k.schedule = some k') : k.PicksHighest k' := by
  have hcurrent := schedule_current hlinked hrun
  by_cases hzero : k.readyBitmap = 0
  · have hempty := empty_of_bitmap_zero hfair hzero
    have hchosen : k.findNextProcess = k.idleProc := by rw [findNextProcess, if_pos hzero]
    rw [hchosen] at hcurrent
    -- with all queues empty only the current process can be runnable
    have honly : ∀ q, k.Runnable q → k.currentProcess = some q ∧
        (k.idleProc = some q ∨ k.idleProc = none) := by
      rintro q (⟨i, hq⟩ | ⟨hq, hstate⟩)
      · exact absurd (hempty i) (inReady_cases hlinked hq).2.1
      · obtain ⟨i, -, hne⟩ | ⟨-, hidle⟩ := hfair.running q hq hstate
        · exact absurd (hempty i) hne
        · exact ⟨hq, hidle⟩
    refine ⟨fun q hq => ?_, fun p hidle hp q hq => ?_⟩
    · obtain ⟨hqcurrent, hidle | hidle⟩ := honly q hq
      · exact ⟨q, by rw [hcurrent, hidle, Option.some_or], hq, le_rfl⟩
      · exact ⟨q, by rw [hcurrent, hidle, Option.none_or, hqcurrent], hq, le_rfl⟩
    · obtain ⟨-, hq | hq⟩ := honly q hq
      · exact Option.some_inj.mp (hq.symm.trans hidle)
      · rw [hidle] at hq
        cases hq
  · obtain ⟨next, hchosen, hhead, hready, hqueue⟩ := findNextProcess_marked hlinked hbacked hzero
    rw [hchosen, Option.some_or] at hcurrent
    -- the lowest marked queue is the lowest one that is not empty
    have hlowest : ∀ i, k.readyQueues i ≠ none → k.queueOf next ≤ i := by
      intro i hne
      obtain ⟨j, hle, hbit⟩ := hfair.marked i hne
      rw [hqueue]
      exact (lowestBit_le hbit).trans hle
    refine ⟨fun q hq => ⟨next, hcurrent, runnable_head hlinked hhead, ?_⟩, fun p hidle hp q hq => ?_⟩
    · obtain ⟨i, hq⟩ | ⟨hq, hstate⟩ := hq
      · obtain ⟨hqueueq, hne, -⟩ := inReady_cases hlinked hq
        rw [hqueueq]
        exact hlowest i hne
      · obtain ⟨i, hle, hne⟩ | ⟨hempty, -⟩ := hfair.running q hq hstate
        · exact (hlowest i hne).trans hle
        · rw [hempty] at hhead
          cases hhead
    · obtain rfl := Option.some_inj.mp (hp.symm.trans hcurrent)
      obtain ⟨hnext, hothers, hnobody⟩ := hfair.idle p hidle hhead fun j hj => by
        by_contra hne
        exact absurd (hlowest j hne) (not_le.mpr hj)
      obtain ⟨i, hq⟩ | ⟨hq, hstate⟩ := hq
      · obtain ⟨-, hne, -⟩ := inReady_cases hlinked hq
        have hi : i = k.queueOf p := by
          by_contra hne'
          exact hne (hothers i hne')
        obtain ⟨l, hl, hmem⟩ := hq
        rw [hi, show k.view.ready (k.queueOf p) = some p from hhead] at hl
        have hsingle : k.view.links.Traverses (some p) [p] := ⟨rfl, hnext⟩
        rwa [Links.traverses_unique hl hsingle, List.mem_singleton] at hmem
      · exact absurd hstate (hnobody q hq)

theorem PicksHighest.fair (h : k.PicksHighest k') (hlinked : k.view.Linked)
    (hbacked : k.view.Backed) (hmarked : k.Marked) (hrun : k.schedule = some k') : k.Fair := by
  have hcurrent := schedule_current hlinked hrun
  refine ⟨fun i hne => ⟨i, le_rfl, hmarked i hne⟩, fun c hc hstate => ?_,
    fun p hidle hhead hlower => ?_⟩
  · by_cases hzero : k.readyBitmap = 0
    · have hempty : ∀ i, k.readyQueues i = none := by
        intro i
        by_contra hne
        have hbit := hmarked i hne
        simp [hzero] at hbit
      rw [findNextProcess, if_pos hzero] at hcurrent
      refine .inr ⟨hempty, ?_⟩
      cases hidle : k.idleProc with
      | none => exact .inr rfl
      | some p =>
          rw [hidle, Option.some_or] at hcurrent
          exact .inl (congrArg some (h.idleLast p hidle hcurrent c (.inr ⟨hc, hstate⟩)).symm)
    · obtain ⟨next, hchosen, hhead, -, -⟩ := findNextProcess_marked hlinked hbacked hzero
      obtain ⟨p, hp, -, hle⟩ := h.highest c (.inr ⟨hc, hstate⟩)
      rw [hchosen, Option.some_or] at hcurrent
      obtain rfl := Option.some_inj.mp (hp.symm.trans hcurrent)
      exact .inl ⟨k.queueOf p, hle, by simp [hhead]⟩
  · have hbit := hmarked (k.queueOf p) (by simp [hhead])
    have hzero : k.readyBitmap ≠ 0 := by
      intro hzero
      simp [hzero] at hbit
    obtain ⟨next, hchosen, hhead', -, hqueue⟩ := findNextProcess_marked hlinked hbacked hzero
    -- the idle process is chosen, so nobody else is runnable
    have hsame : next = p := by
      have hle := lowestBit_le hbit
      rw [← hqueue] at hle
      have heq : k.queueOf next = k.queueOf p := by
        by_contra hne
        have hnone := hlower _ (lt_of_le_of_ne hle hne)
        rw [hhead'] at hnone
        cases hnone
      rw [heq] at hhead'
      exact Option.some_inj.mp (hhead'.symm.trans hhead)
    rw [hchosen, hsame, Option.some_or] at hcurrent
    have honly := h.idleLast p hidle hcurrent
    refine ⟨?_, fun j hj => ?_, fun c hc hstate => ?_⟩
    · cases hnext : (k.processes p).next with
      | none => rfl
      | some b =>
          have hb := honly b (.inl ⟨_, (hlinked.inReady_head hhead).next hnext⟩)
          rw [hb] at hnext
          exact absurd hnext hlinked.sound.irrefl
    · cases hother : k.readyQueues j with
      | none => rfl
      | some b =>
          have hb := honly b (runnable_head hlinked hother)
          rw [hb] at hother
          exact absurd (hlinked.readyHead j p hother).2.2.symm hj
    · have hcp := honly c (.inr ⟨hc, hstate⟩)
      rw [hcp, (inReady_cases hlinked (hlinked.inReady_head hhead)).2.2] at hstate
      cases hstate

/-- **Priority scheduling.** Wherever a run calls `schedule`: in a fair state the most urgent runnable
process becomes the current one, and if every queue that is not empty is marked, in no other state. -/
theorem picksHighest_iff_fair (hboot : k.Booted) (hrun : Run Safe k k')
    (hcall : k'.SparesSleepers call) (hprelude : k'.prelude fuel call = some (k₁, true))
    (hschedule : k₁.schedule = some k₂) :
    (k₁.Fair → k₁.PicksHighest k₂) ∧ (k₁.Marked → (k₁.PicksHighest k₂ ↔ k₁.Fair)) := by
  obtain ⟨hlinked, hbacked⟩ := backed_run hboot hrun
  obtain ⟨fuel', k₃, again, hprelude', -, -, heffect⟩ := exists_prelude hlinked hcall
  obtain ⟨rfl, rfl⟩ := Prod.mk.injEq .. ▸ prelude_unique hprelude hprelude'
  have hlinked₁ := linked_of_effect hlinked hcall heffect
  have hbacked₁ := backed_of_effect hbacked heffect
  exact ⟨fun hfair => hfair.picksHighest hlinked₁ hbacked₁ hschedule, fun hmarked =>
    ⟨fun hpicks => hpicks.fair hlinked₁ hbacked₁ hmarked hschedule,
      fun hfair => hfair.picksHighest hlinked₁ hbacked₁ hschedule⟩⟩

def outranked : Kernel :=
  (sampleBoot.replay safeNow [.spawn [65] 0 16, .start, .spawn [66] 0 10]).getD sampleBoot

theorem fair_outranked : outranked.yieldSlice.Fair :=
  ⟨by decide +kernel, by decide +kernel, by decide +kernel⟩

theorem picksHighest_outranked :
    ∃ k₂, outranked.schedulerYield = some k₂ ∧ outranked.yieldSlice.PicksHighest k₂ := by
  have hsome : (sampleBoot.replay safeNow
      [.spawn [65] 0 16, .start, .spawn [66] 0 10]).isSome = true := by decide +kernel
  obtain ⟨k₀, hreplay⟩ := Option.isSome_iff_exists.mp hsome
  obtain rfl : outranked = k₀ := by rw [outranked, hreplay, Option.getD_some]
  obtain ⟨k₂, hk₂⟩ := Option.isSome_iff_exists.mp
    (by decide +kernel : outranked.yieldSlice.schedule.isSome = true)
  have hrun := run_of_replay safe_of_safeNow hreplay
  have hspares : outranked.SparesSleepers .yield := trivial
  have hprelude : outranked.prelude 0 .yield = some (outranked.yieldSlice, true) := rfl
  exact ⟨k₂, hk₂,
    (picksHighest_iff_fair booted_sampleBoot hrun hspares hprelude hk₂).1 fair_outranked⟩

/-- The only process yields, and the idle process gets the processor. -/
theorem not_picksHighest_alone : ¬ ∀ k k' k₁ k₂ fuel call, k.Booted →
    Run (fun k call => k.Created call) k k' → k'.prelude fuel call = some (k₁, true) →
    k₁.schedule = some k₂ → k₁.PicksHighest k₂ := by
  intro h
  have heval : ((sampleBoot.replay Created [.spawn [65] 0 16, .start]).map fun k =>
      (k.yieldSlice.currentProcess, (k.yieldSlice.processes 1).state, k.yieldSlice.idleProc,
        k.yieldSlice.schedule.map Kernel.currentProcess)) =
      some (some 1, .running, some 0, some (some 0)) := by decide +kernel
  obtain ⟨k', hreplay, hk'⟩ := Option.map_eq_some_iff.mp heval
  simp only [Prod.mk.injEq] at hk'
  obtain ⟨hcurrent, hstate, hidle, hschedule⟩ := hk'
  obtain ⟨k₂, hk₂, hcurrent₂⟩ := Option.map_eq_some_iff.mp hschedule
  have hpicks := h sampleBoot k' k'.yieldSlice k₂ 0 .yield booted_sampleBoot
    (run_of_replay (fun _ _ hok => hok) hreplay) rfl hk₂
  have hone := hpicks.idleLast 0 hidle hcurrent₂ 1 (.inr ⟨hcurrent, hstate⟩)
  cases hone

end Kernel

end SimpleOs
