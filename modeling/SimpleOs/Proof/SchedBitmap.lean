import SimpleOs.Proof.SchedChoice

/-!
# The bitmap as a summary of the ready queues

`scheduler_add` sets the bit of a queue it finds empty and `scheduler_remove` clears the bit of a queue
it leaves empty. What neither looks at: a process without predecessor that is not in its queue brings
its successor with it, and the queue gets a head while its bit stays as it was.
-/

namespace SimpleOs.Kernel

variable {k k' k₁ k₂ : Kernel} {p q : ProcPtr} {call : SchedCall} {fuel : Nat} {i : Fin 32}

def BitmapAgrees (k : Kernel) : Prop :=
  ∀ i : Fin 32, k.readyBitmap.getLsbD i.val = true ↔ k.readyQueues i ≠ none

/-- Removing `p` gives no head to an empty queue: if `p` starts a list of several processes, the queue
of its priority is not empty. -/
def RemovesHead (k : Kernel) (p : ProcPtr) : Prop :=
  (k.processes p).prev = none → (k.processes p).next ≠ none → k.readyQueues (k.queueOf p) ≠ none

structure SameQueues (k k' : Kernel) : Prop where
  queues : k'.readyQueues = k.readyQueues
  bitmap : k'.readyBitmap = k.readyBitmap

theorem SameQueues.refl (k : Kernel) : SameQueues k k := ⟨rfl, rfl⟩

theorem BitmapAgrees.congr (h : k.BitmapAgrees) (hsame : SameQueues k k') : k'.BitmapAgrees := by
  intro i
  rw [hsame.queues, hsame.bitmap]
  exact h i

theorem bitmapAgrees_modify (h : k.BitmapAgrees) (q : ProcPtr) (f : Process → Process) :
    (k.modify q f).BitmapAgrees := h

theorem BitmapAgrees.schedulerAdd (h : k.BitmapAgrees) (hadd : k.schedulerAdd p = some k') :
    k'.BitmapAgrees := by
  unfold Kernel.schedulerAdd at hadd
  split at hadd
  · obtain rfl := Option.some_inj.mp hadd
    exact h
  · obtain ⟨k₁, hlinked, rfl⟩ := Option.map_eq_some_iff.mp hadd
    split at hlinked
    · obtain rfl := Option.some_inj.mp hlinked
      intro j
      change ((k.readyBitmap ||| 1#32 <<< (k.queueOf p).val).getLsbD j.val = true) ↔
        Function.update k.readyQueues (k.queueOf p) (some p) j ≠ none
      rw [getLsbD_mark, Bool.or_eq_true, decide_eq_true_iff]
      by_cases hj : j = k.queueOf p
      · simp [hj]
      · rw [Function.update_of_ne hj, or_iff_left hj]
        exact h j
    · obtain ⟨tail, -, rfl⟩ := Option.map_eq_some_iff.mp hlinked
      -- only fields of the process and its new neighbour are written
      iterate 6 apply bitmapAgrees_modify
      exact h

theorem readyQueues_unlinkProcess (k : Kernel) (p : ProcPtr) : (k.unlinkProcess p).readyQueues =
    if (k.processes p).prev = none then
      Function.update k.readyQueues (k.queueOf p) (k.processes p).next
    else k.readyQueues := by
  unfold unlinkProcess
  cases hprev : (k.processes p).prev with
  | none =>
      simp only [if_true]
      split <;> rfl
  | some q =>
      simp only [reduceCtorEq, if_false]
      split <;> rfl

theorem readyBitmap_unlinkProcess (k : Kernel) (p : ProcPtr) :
    (k.unlinkProcess p).readyBitmap = k.readyBitmap := by
  unfold unlinkProcess
  cases (k.processes p).prev with
  | none =>
      simp only
      split <;> rfl
  | some q =>
      simp only
      split <;> rfl

theorem BitmapAgrees.schedulerRemove (h : k.BitmapAgrees) (hp : k.RemovesHead p) :
    (k.schedulerRemove p).BitmapAgrees := by
  intro j
  -- away from the queue of `p` nothing changes
  have hother : j ≠ k.queueOf p → (k.unlinkProcess p).readyQueues j = k.readyQueues j := by
    intro hj
    rw [readyQueues_unlinkProcess]
    split
    · exact Function.update_of_ne hj _ _
    · rfl
  unfold Kernel.schedulerRemove
  by_cases hempty : (k.unlinkProcess p).readyQueues (k.queueOf p) = none
  · simp only [hempty, if_true]
    change ((k.unlinkProcess p).readyBitmap &&& ~~~(1#32 <<< (k.queueOf p).val)).getLsbD j.val =
      true ↔ (k.unlinkProcess p).readyQueues j ≠ none
    rw [getLsbD_clear, readyBitmap_unlinkProcess, Bool.and_eq_true, Bool.not_eq_true',
      decide_eq_false_iff_not]
    by_cases hj : j = k.queueOf p
    · simp [hj, hempty]
    · rw [hother hj, and_iff_left hj]
      exact h j
  · simp only [hempty, if_false]
    rw [readyBitmap_unlinkProcess]
    by_cases hj : j = k.queueOf p
    · rw [hj]
      refine (h (k.queueOf p)).trans ⟨fun _ => hempty, fun _ => ?_⟩
      rw [readyQueues_unlinkProcess] at hempty
      split at hempty
      · rename_i hprev
        rw [Function.update_self] at hempty
        exact hp hprev hempty
      · exact hempty
    · rw [hother hj]
      exact h j

theorem sameQueues_popSleeper (k : Kernel) (p : ProcPtr) : SameQueues k (k.popSleeper p) := by
  unfold popSleeper
  cases (k.processes p).next <;> exact ⟨rfl, rfl⟩

theorem BitmapAgrees.wakeSleepers (h : k.BitmapAgrees) (hwake : k.wakeSleepers fuel = some k') :
    k'.BitmapAgrees := by
  induction fuel generalizing k with
  | zero => cases hwake
  | succ fuel ih =>
      rw [Kernel.wakeSleepers] at hwake
      split at hwake
      · obtain rfl := Option.some_inj.mp hwake
        exact h
      · rename_i q _
        split at hwake
        · obtain ⟨k₁, hadd, hrest⟩ := Option.bind_eq_some_iff.mp hwake
          exact ih ((h.congr (sameQueues_popSleeper k q)).schedulerAdd hadd) hrest
        · obtain rfl := Option.some_inj.mp hwake
          exact h

theorem sameQueues_insertSleeper (hinsert : k.insertSleeper p = some k') : SameQueues k k' := by
  unfold insertSleeper at hinsert
  split at hinsert
  · obtain rfl := Option.some_inj.mp hinsert
    exact ⟨rfl, rfl⟩
  · split at hinsert
    · obtain rfl := Option.some_inj.mp hinsert
      exact ⟨rfl, rfl⟩
    · obtain ⟨pos, -, rfl⟩ := Option.map_eq_some_iff.mp hinsert
      simp only
      split <;> exact ⟨rfl, rfl⟩

theorem BitmapAgrees.blockProcess (h : k.BitmapAgrees) (hp : k.RemovesHead p) :
    (k.blockProcess p).BitmapAgrees := by
  refine BitmapAgrees.schedulerRemove (k := k.setState p .blocked) h ?_
  simpa [RemovesHead, queueOf, setState, modify] using hp

theorem BitmapAgrees.fallAsleep (h : k.BitmapAgrees) (hp : k.RemovesHead p) {ticks : X86.Word}
    (hsleep : k.fallAsleep p ticks = some k') : k'.BitmapAgrees := by
  refine BitmapAgrees.congr ?_ (sameQueues_insertSleeper hsleep)
  refine BitmapAgrees.blockProcess
    (k := k.modify p fun proc => { proc with wakeTime := k.currentTick + ticks }) h ?_
  simpa [RemovesHead, queueOf, modify] using hp

theorem sameQueues_expireSlice (k : Kernel) : SameQueues k k.expireSlice.1 := by
  unfold expireSlice
  cases k.currentProcess with
  | none => exact SameQueues.refl k
  | some c =>
      simp only
      split <;> exact ⟨rfl, rfl⟩

theorem sameQueues_yieldSlice (k : Kernel) : SameQueues k k.yieldSlice := by
  unfold yieldSlice
  cases k.currentProcess <;> exact ⟨rfl, rfl⟩

theorem sameQueues_create (k : Kernel) (name : List (BitVec 8)) (entry : Nat) (priority : Int) :
    SameQueues k (k.processCreateKernelThread name entry priority).2 := by
  unfold processCreateKernelThread
  cases k.allocProcessSlot with
  | none => exact SameQueues.refl k
  | some p =>
      simp only
      rcases k.pmm.pmmAllocPages (kernelStackSize / pageSize) with ⟨_ | stack, pmm⟩ <;>
        exact ⟨rfl, rfl⟩

/-- The process that `schedule` takes out of its queue gives no head to an empty queue. -/
def SwitchRemovesHead (k : Kernel) : Prop :=
  ∀ next k₁, k.findNextProcess = some next → k.currentProcess ≠ some next →
    k.requeueCurrent = some k₁ → k₁.RemovesHead next

/-- No `scheduler_remove` of the call gives a head to an empty queue. -/
structure RemovesHeads (k : Kernel) (call : SchedCall) : Prop where
  removes : ∀ p, k.removed call = some p → k.RemovesHead p
  switches : ∀ fuel k₁, k.prelude fuel call = some (k₁, true) → k₁.SwitchRemovesHead

theorem BitmapAgrees.prelude {again : Bool} (h : k.BitmapAgrees)
    (hremoves : ∀ p, k.removed call = some p → k.RemovesHead p)
    (hprelude : k.prelude fuel call = some (k₁, again)) : k₁.BitmapAgrees := by
  cases preludes hprelude with
  | @unborn name entry priority _ hcreate =>
      have hsame := sameQueues_create k name entry priority
      rw [hcreate] at hsame
      exact h.congr hsame
  | @spawned name entry priority _ _ _ hcreate hadd =>
      have hsame := sameQueues_create k name entry priority
      rw [hcreate] at hsame
      exact (h.congr hsame).schedulerAdd hadd
  | started => exact h
  | ticked hwake =>
      have hwoken := BitmapAgrees.wakeSleepers (k := { k with currentTick := k.currentTick + 1 }) h hwake
      exact hwoken.congr (sameQueues_expireSlice _)
  | yielded => exact h.congr (sameQueues_yieldSlice k)
  | nobody => exact h
  | blocked hproc => exact h.blockProcess (hremoves _ hproc)
  | awake => exact h
  | unblocked _ hadd => exact h.schedulerAdd hadd
  | sleepless => exact h
  | asleep hcurrent hfall => exact h.fallAsleep (hremoves _ hcurrent) hfall

theorem BitmapAgrees.requeueCurrent (h : k.BitmapAgrees) (hrun : k.requeueCurrent = some k') :
    k'.BitmapAgrees := by
  unfold Kernel.requeueCurrent at hrun
  split at hrun
  · obtain rfl := Option.some_inj.mp hrun
    exact h
  · rename_i c _
    split at hrun
    · exact BitmapAgrees.schedulerAdd (k := k.setState c .ready) h hrun
    · obtain rfl := Option.some_inj.mp hrun
      exact h

theorem BitmapAgrees.switchTo (h : k.BitmapAgrees) (hp : k.RemovesHead p) :
    (k.switchTo p).BitmapAgrees := by
  refine (h.schedulerRemove hp).congr ?_
  unfold Kernel.switchTo
  simp only
  split <;> exact ⟨rfl, rfl⟩

theorem BitmapAgrees.schedule (h : k.BitmapAgrees) (hswitch : k.SwitchRemovesHead)
    (hrun : k.schedule = some k') : k'.BitmapAgrees := by
  obtain rfl | ⟨next, k₁, hnext, hother, hrequeue, rfl⟩ := schedule_cases hrun
  · exact h
  · exact (h.requeueCurrent hrequeue).switchTo (hswitch next k₁ hnext hother hrequeue)

theorem BitmapAgrees.step (h : k.BitmapAgrees) (hcall : k.RemovesHeads call)
    (hstep : k.step fuel call = some k') : k'.BitmapAgrees := by
  exact step_elim hstep (fun k₁ again hprelude => h.prelude hcall.removes hprelude)
    fun k₁ hprelude h₁ hrun => h₁.schedule (hcall.switches fuel k₁ hprelude) hrun

theorem bitmapAgrees_boot (hk : k.Booted) : k.BitmapAgrees := by
  have hview : ∀ i, k.view.bits i = false ∧ k.view.ready i = none := by
    obtain ⟨-, ⟨-, hview⟩ | ⟨p, -, hview⟩⟩ := boot_cases hk
    · rw [hview]
      exact fun i => ⟨rfl, rfl⟩
    · rw [hview]
      exact fun i => ⟨rfl, rfl⟩
  intro i
  rw [show k.readyBitmap.getLsbD i.val = false from (hview i).1,
    show k.readyQueues i = none from (hview i).2]
  simp

theorem bitmapAgrees_run (hboot : k.Booted) (hrun : Run RemovesHeads k k') : k'.BitmapAgrees := by
  induction hrun with
  | refl => exact bitmapAgrees_boot hboot
  | tail _ hstep ih =>
      obtain ⟨call, fuel, hcall, hstep⟩ := hstep
      exact ih.step hcall hstep

/-- `find_next_process` returns the head of the lowest queue that is not empty, and `idle_proc` exactly
if there is none. -/
def FindsLowest (k : Kernel) : Prop :=
  (∀ i, k.readyQueues i = none) ∧ k.findNextProcess = k.idleProc ∨
    ∃ i p, k.readyQueues i = some p ∧ (∀ j < i, k.readyQueues j = none) ∧
      k.findNextProcess = some p

theorem BitmapAgrees.findsLowest (h : k.BitmapAgrees) : k.FindsLowest := by
  by_cases hzero : k.readyBitmap = 0
  · refine .inl ⟨fun i => ?_, if_pos hzero⟩
    by_contra hsome
    have hbit := (h i).mpr hsome
    simp [hzero] at hbit
  · obtain ⟨p, hp⟩ := Option.ne_none_iff_exists'.mp ((h _).mp (getLsbD_lowestBit hzero))
    refine .inr ⟨lowestBit k.readyBitmap, p, hp, fun j hj => ?_, ?_⟩
    · by_contra hsome
      exact absurd (lowestBit_le ((h j).mpr hsome)) (not_le.mpr hj)
    · rw [findNextProcess, if_neg hzero, hp]

/-- **Bitmap and queues.** In every run in which no `scheduler_remove` gives a head to an empty queue,
the bits of the bitmap are those of the queues that are not empty and `find_next_process` returns the
head of the lowest of them or the idle process, between the calls and wherever one calls `schedule`. -/
theorem bitmap_of_run (hboot : k.Booted) (hrun : Run RemovesHeads k k') :
    k'.BitmapAgrees ∧ k'.FindsLowest ∧
      ∀ call fuel k₁, k'.RemovesHeads call → k'.prelude fuel call = some (k₁, true) →
        k₁.BitmapAgrees ∧ k₁.FindsLowest := by
  have h := bitmapAgrees_run hboot hrun
  refine ⟨h, h.findsLowest, fun call fuel k₁ hcall hprelude => ?_⟩
  have h₁ := h.prelude hcall.removes hprelude
  exact ⟨h₁, h₁.findsLowest⟩

def removesNow (k : Kernel) (p : ProcPtr) : Bool :=
  (k.processes p).prev ≠ none || (k.processes p).next = none || k.readyQueues (k.queueOf p) ≠ none

def headsNow (k : Kernel) (call : SchedCall) : Bool :=
  (match k.removed call with
    | none => true
    | some p => k.removesNow p) && match k.prelude 65 call with
    | some (k₁, true) =>
        match k₁.findNextProcess, k₁.requeueCurrent with
        | some next, some k₂ => k₂.removesNow next
        | _, _ => true
    | some (_, false) => true
    | none => false

theorem removesHead_of_removesNow (h : k.removesNow p = true) : k.RemovesHead p := by
  intro hprev hnext
  simpa [removesNow, hprev, hnext] using h

theorem removesHeads_of_headsNow (k : Kernel) (call : SchedCall) (h : k.headsNow call = true) :
    k.RemovesHeads call := by
  rw [headsNow, Bool.and_eq_true] at h
  refine ⟨fun p hp => ?_, fun fuel k₁ hprelude next k₂ hnext _ hrequeue => ?_⟩
  · have hremoved := h.1
    rw [hp] at hremoved
    exact removesHead_of_removesNow hremoved
  · have hswitch := h.2
    cases hfuel : k.prelude 65 call with
    | none => simp [hfuel] at hswitch
    | some r =>
        obtain rfl := prelude_unique hprelude hfuel
        simp only [hfuel, hnext, hrequeue] at hswitch
        exact removesHead_of_removesNow hswitch

theorem bitmap_sleepyCalls :
    ∃ k', sampleBoot.replay headsNow sleepyCalls = some k' ∧ k'.BitmapAgrees := by
  obtain ⟨k', hk'⟩ := Option.isSome_iff_exists.mp
    (by decide +kernel : (sampleBoot.replay headsNow sleepyCalls).isSome = true)
  exact ⟨k', hk', (bitmap_of_run booted_sampleBoot (run_of_replay removesHeads_of_headsNow hk')).1⟩

/-- New processes have one of the 32 priorities. -/
def InRange : SchedCall → Prop
  | .spawn _ _ priority => 0 ≤ priority ∧ priority ≤ 31
  | _ => True

/-- The idle process runs out its slice and is queued behind the process 1, with process 2 behind it;
then process 1 blocks. That empties the queue, and idle, chosen for lack of others, brings process 2
back without a bit. -/
def idleQueued : List SchedCall :=
  [.start, .spawn [65] 0 31] ++ List.replicate 10 .tick ++ [.spawn [66] 0 31, .block none]

theorem not_bitmapAgrees_idleQueued : ¬ ∀ k k', k.Booted →
    Run (fun k call => k.OnOneself call ∧ InRange call) k k' → k'.BitmapAgrees := by
  intro h
  have heval : ((sampleBoot.replay (fun _ call => call ∈ idleQueued) idleQueued).map fun k =>
      (k.readyQueues 31, k.readyBitmap)) = some (some 2, 0) := by decide +kernel
  obtain ⟨k', hreplay, hk'⟩ := Option.map_eq_some_iff.mp heval
  obtain ⟨hqueue, hbitmap⟩ := Prod.mk.inj hk'
  have hrun : Run (fun k call => k.OnOneself call ∧ InRange call) sampleBoot k' := by
    refine run_of_replay (fun k call hcall => ?_) hreplay
    have hcases : call = .start ∨ call = .spawn [65] 0 31 ∨ call = .tick ∨
        call = .spawn [66] 0 31 ∨ call = .block none := by
      simpa [idleQueued, or_assoc] using hcall
    rcases hcases with rfl | rfl | rfl | rfl | rfl
    · exact ⟨trivial, trivial⟩
    · exact ⟨trivial, by simp [InRange]⟩
    · exact ⟨trivial, trivial⟩
    · exact ⟨trivial, by simp [InRange]⟩
    · exact ⟨rfl, trivial⟩
  have hbit := (h sampleBoot k' booted_sampleBoot hrun 31).mpr (by simp [hqueue])
  simp [hbitmap] at hbit

end SimpleOs.Kernel
