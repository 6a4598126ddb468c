import SimpleOs.Proof.SchedOps

/-!
# The calls of the scheduler

`SchedCall` is what the kernel can ask of the scheduler. A call works on the queues first and may then
call `schedule`; `prelude` is the first part, and `Effect` what it does to the view.
-/

namespace SimpleOs.Kernel

variable {k k' k₁ : Kernel} {p q : ProcPtr} {s : ProcState} {i : Fin 32}

theorem wakeSleepers_wake (hp : k.sleepQueue = some p)
    (hdue : (k.processes p).wakeTime ≤ k.currentTick) (fuel : Nat) :
    k.wakeSleepers (fuel + 1) =
      ((k.popSleeper p).schedulerAdd p).bind fun k => k.wakeSleepers fuel := by
  rw [wakeSleepers, hp]
  simp only [if_pos hdue]

theorem wakeSleepers_unique {fuel fuel' : Nat} (h : k.wakeSleepers fuel = some k')
    (h' : k.wakeSleepers fuel' = some k₁) : k' = k₁ := by
  induction fuel generalizing k fuel' with
  | zero => simp [wakeSleepers] at h
  | succ fuel ih =>
      cases fuel' with
      | zero => simp [wakeSleepers] at h'
      | succ fuel' =>
          rw [wakeSleepers] at h h'
          cases hp : k.sleepQueue with
          | none =>
              simp only [hp] at h h'
              exact Option.some_inj.mp (h.symm.trans h')
          | some p =>
              simp only [hp] at h h'
              split at h
              · rename_i hdue
                rw [if_pos hdue] at h'
                cases hadd : (k.popSleeper p).schedulerAdd p with
                | none => simp [hadd] at h
                | some k₂ =>
                    simp only [hadd, Option.bind_some] at h h'
                    exact ih h h'
              · rename_i hdue
                rw [if_neg hdue] at h'
                exact Option.some_inj.mp (h.symm.trans h')

theorem view_popSleeper (h : k.view.Linked) (hp : k.sleepQueue = some p) :
    (k.popSleeper p).view = k.view.pop p := by
  have hprev : (k.processes p).prev = none := (h.sleepHead p hp).1
  have hprevView : k.view.links.prev p = none := hprev
  have hnextView : k.view.links.next p = (k.processes p).next := rfl
  rw [View.pop, h.sound.unlink_eq, hnextView, hprevView]
  simp only [popSleeper]
  cases hnext : (k.processes p).next with
  | none =>
      rw [view_setPrev, view_setNext]
      rfl
  | some q =>
      rw [view_setPrev, view_setNext, view_setPrev]
      rfl

theorem sameClock_popSleeper (k : Kernel) (p : ProcPtr) : SameClock k (k.popSleeper p) := by
  unfold popSleeper
  simp only
  split <;> exact ⟨rfl, rfl, rfl⟩

/-- The wake loop ends: each process it wakes is no longer blocked. -/
theorem exists_wakeSleepers (h : k.view.Linked) :
    ∃ fuel k', k.wakeSleepers fuel = some k' ∧ k.view.Woken k'.view ∧ SameClock k k' := by
  induction hn : k.view.blockedCount using Nat.strong_induction_on generalizing k with
  | _ n ih =>
      cases hp : k.sleepQueue with
      | none => exact ⟨1, k, by simp [wakeSleepers, hp], .refl _, SameClock.refl k⟩
      | some p =>
          by_cases hdue : (k.processes p).wakeTime ≤ k.currentTick
          · have hblocked : k.view.state p = .blocked := (h.sleepHead p hp).2
            have hpop := view_popSleeper h hp
            have hstate : (k.popSleeper p).view.state p = .blocked := by
              rw [hpop]
              exact hblocked
            have hunused : ((k.popSleeper p).processes p).state ≠ .unused := by
              intro hcontra
              rw [show ((k.popSleeper p).processes p).state = .blocked from hstate] at hcontra
              cases hcontra
            have h₁ : (k.popSleeper p).view.Linked := hpop ▸ h.pop hp
            have hp₁ : (k.popSleeper p).view.Unlinked p := hpop ▸ h.unlinked_pop hp
            obtain ⟨k₁, hadd, hv, hsame⟩ := exists_schedulerAdd h₁ hp₁ hunused
            have hless : k₁.view.blockedCount < n := by
              have hlt := hv.blockedCount_lt hstate
              rw [hpop] at hlt
              exact hn ▸ hlt
            obtain ⟨fuel, k', hrun, hwoken, hsame'⟩ := ih _ hless (h₁.enqueued hp₁ hv) rfl
            refine ⟨fuel + 1, k', ?_, .wake hp (hpop ▸ hv) hwoken,
              (sameClock_popSleeper k p).trans (hsame.trans hsame')⟩
            rw [wakeSleepers_wake hp hdue, hadd]
            exact hrun
          · exact ⟨1, k, by simp [wakeSleepers, hp, hdue], .refl _, SameClock.refl k⟩

theorem exists_sleepPosition {l : List ProcPtr} {head : ProcPtr} {fuel : Nat}
    (hl : k.view.links.Traverses (some head) l) (hfuel : l.length ≤ fuel) (wakeTime : X86.Word) :
    ∃ pos ∈ l, k.sleepPosition wakeTime fuel head = some pos := by
  induction l generalizing head fuel with
  | nil => cases hl
  | cons a l ih =>
      obtain ⟨fuel, rfl⟩ : ∃ n, fuel = n + 1 := ⟨fuel - 1, by simp at hfuel; omega⟩
      obtain rfl : head = a := Option.some_inj.mp hl.1
      have htail : k.view.links.Traverses (k.processes head).next l := hl.2
      rw [sleepPosition]
      cases hnext : (k.processes head).next with
      | none => exact ⟨head, by simp, rfl⟩
      | some b =>
          simp only
          split
          · have hle : l.length ≤ fuel := by simpa using hfuel
            rw [hnext] at htail
            obtain ⟨pos, hmem, hrun⟩ := ih htail hle
            exact ⟨pos, List.mem_cons_of_mem _ hmem, hrun⟩
          · exact ⟨head, by simp, rfl⟩

theorem view_setSleepQueue (k : Kernel) (o : Option ProcPtr) :
    { k with sleepQueue := o }.view = { k.view with sleep := o } := rfl

/-- `p` goes in front of a sleep queue whose first process wakes later, or is empty; otherwise behind the
position that the walk finds. -/
theorem exists_insertSleeper (h : k.view.Linked) (hp : k.view.Unlinked p) :
    ∃ k', k.insertSleeper p = some k' ∧ SameClock k k' ∧
      ((∀ head, k.sleepQueue = some head →
          (k.processes p).wakeTime < (k.processes head).wakeTime) ∧
        k'.view = k.view.sleepFirst p ∨
      ∃ head pos, k.sleepQueue = some head ∧
        ¬ (k.processes p).wakeTime < (k.processes head).wakeTime ∧
        k.sleepPosition (k.processes p).wakeTime 64 head = some pos ∧ k.view.InSleep pos ∧
        k'.view = k.view.sleepAfter pos p) := by
  have hfirst := Links.insertFront_eq hp.isolated k.view.sleep
  rw [insertSleeper]
  cases hsleep : k.sleepQueue with
  | none =>
      refine ⟨_, rfl, ⟨rfl, rfl, rfl⟩, .inl ⟨by simp, ?_⟩⟩
      have hsleepView : k.view.sleep = none := hsleep
      have hnext : Function.update k.view.links.next p none = k.view.links.next := by
        rw [← hp.isolated.next, Function.update_eq_self]
      refine (view_setSleepQueue _ _).trans ?_
      rw [view_clearLinks hp.isolated, View.sleepFirst, hfirst, hsleepView, hnext]
      rfl
  | some head =>
      have hsleepView : k.view.sleep = some head := hsleep
      simp only
      split
      · rename_i hless
        refine ⟨_, rfl, ⟨rfl, rfl, rfl⟩, .inl ⟨?_, ?_⟩⟩
        · intro first hfirst
          obtain rfl := Option.some_inj.mp hfirst
          exact hless
        · refine (view_setSleepQueue _ _).trans ?_
          rw [view_setPrev, view_setPrev, view_setNext, View.sleepFirst, hfirst, hsleepView]
          rfl
      · rename_i hless
        obtain ⟨l, hl⟩ := h.sound.exists_traverses (some head)
        have hlength : l.length ≤ 64 := by
          simpa using (hl.nodup h.sound).length_le_card
        obtain ⟨pos, hmem, hrun⟩ := exists_sleepPosition hl hlength (k.processes p).wakeTime
        have hnextView : k.view.links.next pos = (k.processes pos).next := rfl
        rw [hrun]
        refine ⟨_, rfl, ?_, .inr ⟨head, pos, rfl, hless, hrun, ⟨l, hsleepView ▸ hl, hmem⟩, ?_⟩⟩
        · simp only
          split <;> exact ⟨rfl, rfl, rfl⟩
        · rw [view_setNext, View.sleepAfter, h.sound.insertAfter_eq hp.isolated, hnextView]
          cases hnext : (k.processes pos).next with
          | none =>
              simp only
              rw [view_setPrev, view_setNext]
              rfl
          | some q =>
              simp only
              rw [view_setPrev, view_setPrev, view_setNext]
              rfl

theorem view_blockProcess (hs : k.view.links.Sound) (p : ProcPtr) :
    (k.blockProcess p).view = (k.view.remove p).setState p .blocked := by
  have hstate := view_setState k p .blocked
  rw [blockProcess, view_schedulerRemove (hstate ▸ hs), hstate]
  rfl

theorem sameClock_blockProcess (k : Kernel) (p : ProcPtr) : SameClock k (k.blockProcess p) :=
  (sameClock_modify k p _).trans (sameClock_schedulerRemove _ p)

theorem view_setWakeTime (k : Kernel) (p : ProcPtr) (wakeTime : X86.Word) :
    (k.modify p fun proc => { proc with wakeTime := wakeTime }).view = k.view :=
  k.view_modify p (fun _ => rfl) (fun _ => rfl) (fun _ => rfl) fun _ => rfl

theorem exists_fallAsleep (h : k.view.Linked) (hp : k.sleepQueue ≠ some p) (ticks : X86.Word) :
    ∃ k', k.fallAsleep p ticks = some k' ∧
      ((k.view.remove p).setState p .blocked).PutToSleep p k'.view ∧ SameClock k k' := by
  rw [fallAsleep]
  generalize hk₁ : (k.modify p fun proc => { proc with wakeTime := k.currentTick + ticks }) = k₁
  have hview : k₁.view = k.view := hk₁ ▸ view_setWakeTime k p _
  have hblock : (k₁.blockProcess p).view = (k.view.remove p).setState p .blocked := by
    rw [view_blockProcess (hview ▸ h.sound), hview]
  have hlinked : (k₁.blockProcess p).view.Linked := by
    rw [hblock]
    exact h.remove fun hsleep => absurd hsleep hp
  have hunlinked : (k₁.blockProcess p).view.Unlinked p := by
    rw [hblock]
    exact (h.unlinked_remove hp).setState p .blocked
  obtain ⟨k', hrun, hsame, hv⟩ := exists_insertSleeper hlinked hunlinked
  rw [hblock] at hv
  have hput : ((k.view.remove p).setState p .blocked).PutToSleep p k'.view := by
    obtain ⟨-, hfirst⟩ | ⟨head, pos, -, -, -, hpos, hafter⟩ := hv
    · exact .inl hfirst
    · exact .inr ⟨pos, hpos, hafter⟩
  refine ⟨k', hrun, hput, SameClock.trans ?_ ((sameClock_blockProcess k₁ p).trans hsame)⟩
  exact hk₁ ▸ sameClock_modify k p _

/-- `scheduler_add(process_create_kernel_thread(name, entry, priority))`. -/
def spawn (k : Kernel) (name : List (BitVec 8)) (entry : Nat) (priority : Int) : Option Kernel :=
  match k.processCreateKernelThread name entry priority with
  | (none, k) => some k
  | (some p, k) => k.schedulerAdd p

theorem allocProcessSlot_state (hp : k.allocProcessSlot = some p) :
    (k.processes p).state = .unused := by
  simpa using List.find?_some hp

theorem processCreateKernelThread_cases (h : k.view.Linked) (name : List (BitVec 8)) (entry : Nat)
    (priority : Int) :
    (∃ k', k.processCreateKernelThread name entry priority = (none, k') ∧ k'.view = k.view ∧
      SameClock k k') ∨
    ∃ p k', k.processCreateKernelThread name entry priority = (some p, k') ∧
      k.view.state p = .unused ∧ k'.view = k.view.retype p .ready (clampPriority priority) ∧
      SameClock k k' := by
  rw [processCreateKernelThread]
  cases hslot : k.allocProcessSlot with
  | none => exact .inl ⟨k, rfl, rfl, SameClock.refl k⟩
  | some p =>
      simp only
      have hstate : k.view.state p = .unused := allocProcessSlot_state hslot
      have hp := h.unlinked_of_state (p := p) (by simp [hstate]) (by simp [hstate])
      have hnext : (k.processes p).next = none := hp.isolated.next
      have hprev : (k.processes p).prev = none := hp.isolated.prev
      rcases halloc : k.pmm.pmmAllocPages (kernelStackSize / pageSize) with ⟨_ | stack, pmm⟩
      · exact .inl ⟨_, rfl, rfl, ⟨rfl, rfl, rfl⟩⟩
      · refine .inr ⟨p, _, rfl, hstate, ?_, ⟨rfl, rfl, rfl⟩⟩
        simp only [view, View.retype, View.mk.injEq, Links.mk.injEq, and_true]
        refine ⟨⟨?_, ?_⟩, ?_, ?_⟩ <;>
        · funext q
          by_cases hq : q = p <;> simp [hq, queueOf, hnext, hprev]

theorem exists_spawn (h : k.view.Linked) (name : List (BitVec 8)) (entry : Nat) (priority : Int) :
    ∃ k', k.spawn name entry priority = some k' ∧ SameClock k k' ∧ (k'.view = k.view ∨
      ∃ p, k.view.state p = .unused ∧
        (k.view.retype p .ready (clampPriority priority)).Enqueued p k'.view) := by
  rw [spawn]
  obtain ⟨k₁, hcreate, hview, hsame⟩ | ⟨p, k₁, hcreate, hstate, hview, hsame⟩ :=
    processCreateKernelThread_cases h name entry priority
  · rw [hcreate]
    exact ⟨k₁, rfl, hsame, .inl hview⟩
  · rw [hcreate]
    have hp := h.unlinked_of_state (p := p) (by simp [hstate]) (by simp [hstate])
    have h₁ : k₁.view.Linked := hview ▸ h.retype hp _ _
    have hp₁ : k₁.view.Unlinked p := hview ▸ ⟨hp.isolated, hp.ready, hp.sleep⟩
    have hready : k₁.view.state p = .ready := by
      rw [hview]
      simp [View.retype]
    obtain ⟨k', hadd, hv, hsame'⟩ := exists_schedulerAdd h₁ hp₁ (by
      rw [show (k₁.processes p).state = .ready from hready]
      decide)
    exact ⟨k', hadd, hsame.trans hsame', .inr ⟨p, hstate, hview ▸ hv⟩⟩

end SimpleOs.Kernel
