import SimpleOs.Proof.SchedRun

/-!
# What the scheduler leaves alone in a process

The lists are threaded through two fields of a process, and its state says in which kind of list it
is. Working on the lists leaves everything else alone; a turn on the processor changes the time slice
and the time used as well. Both are stated for an arbitrary reading `f` of the process.
-/

namespace SimpleOs.Kernel

variable {α : Type} {f : Process → α} {k k' k₁ : Kernel} {p q : ProcPtr} {fuel : Nat}

/-- `f` does not read the links of a process. -/
structure OffLinks (f : Process → α) : Prop where
  next : ∀ proc v, f { proc with next := v } = f proc
  prev : ∀ proc v, f { proc with prev := v } = f proc

/-- `f` reads neither the links of a process nor its state. -/
structure OffLists (f : Process → α) : Prop where
  next : ∀ proc v, f { proc with next := v } = f proc
  prev : ∀ proc v, f { proc with prev := v } = f proc
  state : ∀ proc v, f { proc with state := v } = f proc

structure OffTurns (f : Process → α) : Prop extends OffLists f where
  timeSlice : ∀ proc v, f { proc with timeSlice := v } = f proc
  totalTime : ∀ proc v, f { proc with totalTime := v } = f proc

theorem OffLists.offLinks (hf : OffLists f) : OffLinks f := ⟨hf.next, hf.prev⟩

def Keeps (f : Process → α) (k k' : Kernel) : Prop :=
  ∀ q, f (k'.processes q) = f (k.processes q)

theorem Keeps.refl (f : Process → α) (k : Kernel) : Keeps f k k := fun _ => rfl

theorem Keeps.trans (h : Keeps f k k') (h' : Keeps f k' k₁) : Keeps f k k₁ :=
  fun q => (h' q).trans (h q)

theorem keeps_modify (k : Kernel) (p : ProcPtr) {g : Process → Process}
    (hg : ∀ proc, f (g proc) = f proc) : Keeps f k (k.modify p g) := by
  intro q
  by_cases hq : q = p
  · subst hq
    simp [modify, hg]
  · simp [modify, hq]

theorem keeps_setNext (hf : OffLinks f) (k : Kernel) (p : ProcPtr) (v : Option ProcPtr) :
    Keeps f k (k.setNext p v) := keeps_modify k p fun proc => hf.next proc v

theorem keeps_setPrev (hf : OffLinks f) (k : Kernel) (p : ProcPtr) (v : Option ProcPtr) :
    Keeps f k (k.setPrev p v) := keeps_modify k p fun proc => hf.prev proc v

theorem keeps_setState (hf : OffLists f) (k : Kernel) (p : ProcPtr) (v : ProcState) :
    Keeps f k (k.setState p v) := keeps_modify k p fun proc => hf.state proc v

theorem keeps_clearLinks (hf : OffLinks f) (k : Kernel) (p : ProcPtr) :
    Keeps f k ((k.setNext p none).setPrev p none) :=
  (keeps_setNext hf k p none).trans (keeps_setPrev hf _ p none)

theorem keeps_unlinkProcess (hf : OffLinks f) (k : Kernel) (p : ProcPtr) :
    Keeps f k (k.unlinkProcess p) := by
  unfold unlinkProcess
  simp only
  refine Keeps.trans ?_ (keeps_clearLinks hf _ p)
  cases (k.processes p).prev with
  | none =>
      simp only
      split
      · exact keeps_setPrev hf (k.setReadyQueue (k.queueOf p) (k.processes p).next) _ _
      · exact fun q => rfl
  | some prev =>
      have hprev := keeps_setNext hf k prev (k.processes p).next
      simp only
      split
      · exact hprev.trans (keeps_setPrev hf _ _ _)
      · exact hprev

theorem keeps_schedulerRemove (hf : OffLinks f) (k : Kernel) (p : ProcPtr) :
    Keeps f k (k.schedulerRemove p) := by
  refine (keeps_unlinkProcess hf k p).trans ?_
  unfold schedulerRemove
  simp only
  split <;> exact fun q => rfl

theorem keeps_blockProcess (hf : OffLists f) (k : Kernel) (p : ProcPtr) :
    Keeps f k (k.blockProcess p) :=
  (keeps_setState hf k p .blocked).trans (keeps_schedulerRemove hf.offLinks _ p)

theorem keeps_popSleeper (hf : OffLinks f) (k : Kernel) (p : ProcPtr) :
    Keeps f k (k.popSleeper p) := by
  unfold popSleeper
  simp only
  refine Keeps.trans ?_ (keeps_clearLinks hf _ p)
  cases (k.processes p).next with
  | none => exact fun q => rfl
  | some next => exact keeps_setPrev hf { k with sleepQueue := some next } next none

theorem keeps_insertSleeper (hf : OffLinks f) (hinsert : k.insertSleeper p = some k') :
    Keeps f k k' := by
  unfold insertSleeper at hinsert
  split at hinsert
  · obtain rfl := Option.some_inj.mp hinsert
    exact keeps_clearLinks hf k p
  · rename_i head _
    split at hinsert
    · obtain rfl := Option.some_inj.mp hinsert
      exact ((keeps_setNext hf k p _).trans (keeps_setPrev hf _ p _)).trans
        (keeps_setPrev hf _ head _)
    · obtain ⟨pos, -, rfl⟩ := Option.map_eq_some_iff.mp hinsert
      refine Keeps.trans ?_ (keeps_setNext hf _ pos _)
      have hown : ∀ next, Keeps f k ((k.setNext p next).setPrev p (some pos)) := fun next =>
        (keeps_setNext hf k p next).trans (keeps_setPrev hf _ p _)
      cases (k.processes pos).next with
      | none => exact hown none
      | some next => exact (hown _).trans (keeps_setPrev hf _ next _)

theorem keeps_fallAsleep (hf : OffLists f)
    (hwake : ∀ proc v, f { proc with wakeTime := v } = f proc) {ticks : X86.Word}
    (hsleep : k.fallAsleep p ticks = some k') : Keeps f k k' :=
  ((keeps_modify k p fun proc => hwake proc (k.currentTick + ticks)).trans
    (keeps_blockProcess hf _ p)).trans (keeps_insertSleeper hf.offLinks hsleep)

/-- `scheduler_add` works on the lists, and then gives the process a new slice. -/
theorem schedulerAdd_cases (hf : OffLists f) (hused : (k.processes p).state ≠ .unused)
    (hadd : k.schedulerAdd p = some k') :
    ∃ k₁, Keeps f k k₁ ∧ k' = k₁.setTimeSlice p (BitVec.ofNat 64 (37 - (k.queueOf p).val)) := by
  unfold schedulerAdd at hadd
  rw [if_neg hused] at hadd
  obtain ⟨k₁, hlinked, rfl⟩ := Option.map_eq_some_iff.mp hadd
  have hslice : schedTimeSliceBase + (32 - (k.queueOf p).val) = 37 - (k.queueOf p).val := by
    unfold schedTimeSliceBase
    omega
  rw [hslice]
  refine ⟨k₁.setState p .ready, Keeps.trans ?_ (keeps_setState hf k₁ p .ready), rfl⟩
  have hclear := keeps_clearLinks hf.offLinks k p
  split at hlinked
  · obtain rfl := Option.some_inj.mp hlinked
    exact hclear
  · obtain ⟨tail, -, rfl⟩ := Option.map_eq_some_iff.mp hlinked
    exact (hclear.trans (keeps_setNext hf.offLinks _ tail _)).trans
      (keeps_setPrev hf.offLinks _ p _)

theorem keeps_schedulerAdd (hf : OffTurns f) (hadd : k.schedulerAdd p = some k') :
    Keeps f k k' := by
  by_cases hused : (k.processes p).state = .unused
  · unfold schedulerAdd at hadd
    rw [if_pos hused] at hadd
    obtain rfl := Option.some_inj.mp hadd
    exact Keeps.refl f k
  · obtain ⟨k₁, hkeeps, rfl⟩ := schedulerAdd_cases hf.toOffLists hused hadd
    exact hkeeps.trans (keeps_modify k₁ p fun proc => hf.timeSlice proc _)

theorem keeps_requeueCurrent (hf : OffTurns f) (hrun : k.requeueCurrent = some k') :
    Keeps f k k' := by
  unfold requeueCurrent at hrun
  split at hrun
  · obtain rfl := Option.some_inj.mp hrun
    exact Keeps.refl f k
  · rename_i c _
    split at hrun
    · exact (keeps_setState hf.toOffLists k c .ready).trans (keeps_schedulerAdd hf hrun)
    · obtain rfl := Option.some_inj.mp hrun
      exact Keeps.refl f k

theorem keeps_switchTo (hf : OffLists f) (k : Kernel) (p : ProcPtr) : Keeps f k (k.switchTo p) := by
  refine ((keeps_schedulerRemove hf.offLinks k p).trans
    (keeps_setState hf _ p .running)).trans ?_
  unfold switchTo
  simp only
  split <;> exact fun q => rfl

theorem keeps_schedule (hf : OffTurns f) (hrun : k.schedule = some k') : Keeps f k k' := by
  obtain rfl | ⟨next, k₁, -, -, hrequeue, rfl⟩ := schedule_cases hrun
  · exact Keeps.refl f _
  · exact (keeps_requeueCurrent hf hrequeue).trans (keeps_switchTo hf.toOffLists k₁ next)

theorem keeps_wakeSleepers (hf : OffTurns f) (hwake : k.wakeSleepers fuel = some k') :
    Keeps f k k' := by
  induction fuel generalizing k with
  | zero => cases hwake
  | succ fuel ih =>
      rw [wakeSleepers] at hwake
      split at hwake
      · obtain rfl := Option.some_inj.mp hwake
        exact Keeps.refl f k
      · rename_i q _
        split at hwake
        · obtain ⟨k₁, hadd, hrest⟩ := Option.bind_eq_some_iff.mp hwake
          exact ((keeps_popSleeper hf.offLinks k q).trans (keeps_schedulerAdd hf hadd)).trans
            (ih hrest)
        · obtain rfl := Option.some_inj.mp hwake
          exact Keeps.refl f k

theorem keeps_chargeTick (hf : OffTurns f) (k : Kernel) (p : ProcPtr) :
    Keeps f k (k.chargeTick p) := by
  refine keeps_modify k p fun proc => ?_
  exact (hf.timeSlice { proc with totalTime := proc.totalTime + 1 } _).trans (hf.totalTime proc _)

theorem keeps_expireSlice (hf : OffTurns f) (k : Kernel) : Keeps f k k.expireSlice.1 := by
  unfold expireSlice
  cases k.currentProcess with
  | none => exact Keeps.refl f k
  | some c =>
      simp only
      split
      · exact keeps_chargeTick hf k c
      · exact Keeps.refl f k

theorem keeps_yieldSlice (hf : OffTurns f) (k : Kernel) : Keeps f k k.yieldSlice := by
  unfold yieldSlice
  cases k.currentProcess with
  | none => exact Keeps.refl f k
  | some c => exact keeps_modify k c fun proc => hf.timeSlice proc 0

theorem sameClock_insertSleeper (hinsert : k.insertSleeper p = some k') : SameClock k k' := by
  unfold insertSleeper at hinsert
  split at hinsert
  · obtain rfl := Option.some_inj.mp hinsert
    exact ⟨rfl, rfl, rfl⟩
  · split at hinsert
    · obtain rfl := Option.some_inj.mp hinsert
      exact ⟨rfl, rfl, rfl⟩
    · obtain ⟨pos, -, rfl⟩ := Option.map_eq_some_iff.mp hinsert
      cases (k.processes pos).next <;> exact ⟨rfl, rfl, rfl⟩

theorem sameClock_fallAsleep {ticks : X86.Word} (hsleep : k.fallAsleep p ticks = some k') :
    SameClock k k' :=
  ((sameClock_modify k p _).trans (sameClock_blockProcess _ p)).trans
    (sameClock_insertSleeper hsleep)

theorem sameClock_schedulerAdd (hadd : k.schedulerAdd p = some k') : SameClock k k' := by
  unfold schedulerAdd at hadd
  split at hadd
  · exact Option.some_inj.mp hadd ▸ SameClock.refl k
  · obtain ⟨k₁, hlinked, rfl⟩ := Option.map_eq_some_iff.mp hadd
    have h₁ : SameClock k k₁ := by
      split at hlinked
      · obtain rfl := Option.some_inj.mp hlinked
        exact ⟨rfl, rfl, rfl⟩
      · obtain ⟨tail, -, rfl⟩ := Option.map_eq_some_iff.mp hlinked
        exact ⟨rfl, rfl, rfl⟩
    exact h₁.trans ⟨rfl, rfl, rfl⟩

theorem sameClock_wakeSleepers (hwake : k.wakeSleepers fuel = some k') : SameClock k k' := by
  induction fuel generalizing k with
  | zero => cases hwake
  | succ fuel ih =>
      rw [wakeSleepers] at hwake
      split at hwake
      · exact Option.some_inj.mp hwake ▸ SameClock.refl k
      · rename_i q _
        split at hwake
        · obtain ⟨k₁, hadd, hrest⟩ := Option.bind_eq_some_iff.mp hwake
          exact ((sameClock_popSleeper k q).trans (sameClock_schedulerAdd hadd)).trans (ih hrest)
        · exact Option.some_inj.mp hwake ▸ SameClock.refl k

theorem sameClock_requeueCurrent (hrun : k.requeueCurrent = some k') : SameClock k k' := by
  unfold requeueCurrent at hrun
  split at hrun
  · exact Option.some_inj.mp hrun ▸ SameClock.refl k
  · rename_i c _
    split at hrun
    · exact (sameClock_modify k c _).trans (sameClock_schedulerAdd hrun)
    · exact Option.some_inj.mp hrun ▸ SameClock.refl k

theorem sameClock_yieldSlice (k : Kernel) : SameClock k k.yieldSlice := by
  unfold yieldSlice
  cases hcurrent : k.currentProcess with
  | none => exact SameClock.refl k
  | some c => exact sameClock_modify k c _

theorem sameClock_create (k : Kernel) (name : List (BitVec 8)) (entry : Nat) (priority : Int) :
    SameClock k (k.processCreateKernelThread name entry priority).2 := by
  unfold processCreateKernelThread
  cases k.allocProcessSlot with
  | none => exact SameClock.refl k
  | some p =>
      rcases k.pmm.pmmAllocPages (kernelStackSize / pageSize) with ⟨_ | stack, pmm⟩ <;>
        exact ⟨rfl, rfl, rfl⟩

/-- `schedule` ends with another current process or with the state it started from. -/
theorem clock_schedule (hrun : k.schedule = some k') :
    k'.idleProc = k.idleProc ∧ k'.currentTick = k.currentTick := by
  obtain rfl | ⟨next, k₁, -, -, hrequeue, rfl⟩ := schedule_cases hrun
  · exact ⟨rfl, rfl⟩
  · have hclock := (sameClock_requeueCurrent hrequeue).trans (sameClock_schedulerRemove k₁ next)
    unfold switchTo
    simp only
    split <;> exact ⟨hclock.idle, hclock.tick⟩

/-- No process enters the state `s`. -/
def NoneBecome (s : ProcState) (k k' : Kernel) : Prop :=
  ∀ q, (k'.processes q).state = s → (k.processes q).state = s

variable {s : ProcState}

theorem NoneBecome.refl (s : ProcState) (k : Kernel) : NoneBecome s k k := fun _ h => h

theorem NoneBecome.trans (h : NoneBecome s k k') (h' : NoneBecome s k' k₁) : NoneBecome s k k₁ :=
  fun q hq => h q (h' q hq)

theorem offLinks_state : OffLinks Process.state := ⟨fun _ _ => rfl, fun _ _ => rfl⟩

theorem Keeps.noneBecome (h : Keeps Process.state k k') (s : ProcState) : NoneBecome s k k' :=
  fun q hq => (h q).symm.trans hq

theorem noneBecome_modify (k : Kernel) (p : ProcPtr) {g : Process → Process}
    (hg : (g (k.processes p)).state = s → (k.processes p).state = s) :
    NoneBecome s k (k.modify p g) := by
  intro q hq
  by_cases hqp : q = p
  · subst hqp
    exact hg (by simpa [modify] using hq)
  · simpa [modify, hqp] using hq

theorem noneBecome_setState (k : Kernel) (p : ProcPtr) {s' : ProcState} (hs : s' ≠ s) :
    NoneBecome s k (k.setState p s') := noneBecome_modify k p fun heq => absurd heq hs

theorem noneBecome_schedulerRemove (k : Kernel) (p : ProcPtr) :
    NoneBecome s k (k.schedulerRemove p) := (keeps_schedulerRemove offLinks_state k p).noneBecome s

theorem noneBecome_blockProcess (hs : .blocked ≠ s) (k : Kernel) (p : ProcPtr) :
    NoneBecome s k (k.blockProcess p) :=
  (noneBecome_setState k p hs).trans (noneBecome_schedulerRemove _ p)

/-- The process that is added is ready afterwards unless it is unused. -/
theorem noneBecome_schedulerAdd (hs : .ready ≠ s) (hadd : k.schedulerAdd p = some k') :
    NoneBecome s k k' ∧ ((k'.processes p).state = .ready ∨ (k'.processes p).state = .unused) := by
  unfold schedulerAdd at hadd
  split at hadd
  · rename_i hunused
    obtain rfl := Option.some_inj.mp hadd
    exact ⟨.refl s k, .inr hunused⟩
  · obtain ⟨k₁, hlinked, rfl⟩ := Option.map_eq_some_iff.mp hadd
    have hclear := keeps_clearLinks offLinks_state k p
    have hlink : Keeps Process.state k k₁ := by
      split at hlinked
      · obtain rfl := Option.some_inj.mp hlinked
        exact hclear
      · obtain ⟨tail, -, rfl⟩ := Option.map_eq_some_iff.mp hlinked
        exact (hclear.trans (keeps_setNext offLinks_state _ tail _)).trans
          (keeps_setPrev offLinks_state _ p _)
    have hready := (hlink.noneBecome s).trans (noneBecome_setState k₁ p hs)
    refine ⟨hready.trans (noneBecome_modify _ p fun heq => heq), .inl ?_⟩
    simp [setTimeSlice, setState, modify]

theorem noneBecome_wakeSleepers (hs : .ready ≠ s) (hwake : k.wakeSleepers fuel = some k') :
    NoneBecome s k k' := by
  induction fuel generalizing k with
  | zero => cases hwake
  | succ fuel ih =>
      rw [wakeSleepers] at hwake
      split at hwake
      · exact Option.some_inj.mp hwake ▸ .refl s k
      · rename_i q _
        split at hwake
        · obtain ⟨k₁, hadd, hrest⟩ := Option.bind_eq_some_iff.mp hwake
          have hpop := (keeps_popSleeper offLinks_state k q).noneBecome s
          exact (hpop.trans (noneBecome_schedulerAdd hs hadd).1).trans (ih hrest)
        · exact Option.some_inj.mp hwake ▸ .refl s k

theorem noneBecome_fallAsleep (hs : .blocked ≠ s) {ticks : X86.Word}
    (hsleep : k.fallAsleep p ticks = some k') : NoneBecome s k k' := by
  have hwake : NoneBecome s k
      (k.modify p fun proc => { proc with wakeTime := k.currentTick + ticks }) :=
    noneBecome_modify k p fun heq => heq
  exact (hwake.trans (noneBecome_blockProcess hs _ p)).trans
    ((keeps_insertSleeper offLinks_state hsleep).noneBecome s)

theorem noneBecome_chargeTick (k : Kernel) (p : ProcPtr) : NoneBecome s k (k.chargeTick p) :=
  noneBecome_modify k p fun heq => heq

theorem noneBecome_expireSlice (k : Kernel) : NoneBecome s k k.expireSlice.1 := by
  unfold expireSlice
  cases k.currentProcess with
  | none => exact .refl s k
  | some c =>
      simp only
      split
      · exact noneBecome_chargeTick k c
      · exact .refl s k

theorem noneBecome_yieldSlice (k : Kernel) : NoneBecome s k k.yieldSlice := by
  unfold yieldSlice
  cases k.currentProcess with
  | none => exact .refl s k
  | some c => exact noneBecome_modify k c fun heq => heq

theorem noneBecome_requeueCurrent (hs : .ready ≠ s) (hrun : k.requeueCurrent = some k') :
    NoneBecome s k k' := by
  unfold requeueCurrent at hrun
  split at hrun
  · exact Option.some_inj.mp hrun ▸ .refl s k
  · rename_i c _
    split at hrun
    · exact (noneBecome_setState k c hs).trans (noneBecome_schedulerAdd hs hrun).1
    · exact Option.some_inj.mp hrun ▸ .refl s k

theorem processes_switchTo (k : Kernel) (next : ProcPtr) : (k.switchTo next).processes =
    ((k.schedulerRemove next).setState next .running).processes := by
  unfold switchTo
  simp only
  split <;> rfl

theorem noneBecome_create (hs : .ready ≠ s) (k : Kernel) (name : List (BitVec 8)) (entry : Nat)
    (priority : Int) : NoneBecome s k (k.processCreateKernelThread name entry priority).2 := by
  unfold processCreateKernelThread
  cases k.allocProcessSlot with
  | none => exact .refl s k
  | some p =>
      rcases k.pmm.pmmAllocPages (kernelStackSize / pageSize) with ⟨_ | stack, pmm⟩
      · exact fun q hq => hq
      · intro q hq
        by_cases hqp : q = p
        · simp [hqp, hs] at hq
        · simpa [hqp] using hq

theorem noneBecome_destroy (hs : .unused ≠ s) (k : Kernel) (p : ProcPtr) :
    NoneBecome s k (k.processDestroy p) := by
  unfold processDestroy
  simp only
  split
  · exact .refl s k
  · intro q hq
    by_cases hqp : q = p
    · simp [hqp, hs] at hq
    · simpa [hqp] using hq

theorem noneBecome_exit (hs : .zombie ≠ s) (k : Kernel) (code : Int) :
    NoneBecome s k (k.processExit code) := by
  unfold processExit
  cases k.currentProcess with
  | none => exact .refl s k
  | some c => exact noneBecome_modify k c fun heq => absurd heq hs

/-- A new process takes a slot that was unused, and touches no other. -/
theorem processes_create {name : List (BitVec 8)} {entry : Nat} {priority : Int}
    {o : Option ProcPtr} (hcreate : k.processCreateKernelThread name entry priority = (o, k'))
    (hused : (k.processes q).state ≠ .unused) : k'.processes q = k.processes q := by
  unfold processCreateKernelThread at hcreate
  cases hslot : k.allocProcessSlot with
  | none =>
      rw [hslot] at hcreate
      obtain ⟨-, rfl⟩ := Prod.mk.inj hcreate
      rfl
  | some p =>
      have hne : q ≠ p := by
        rintro rfl
        exact hused (allocProcessSlot_state hslot)
      rw [hslot] at hcreate
      rcases halloc : k.pmm.pmmAllocPages (kernelStackSize / pageSize) with ⟨_ | stack, pmm⟩
      · simp only [halloc] at hcreate
        obtain ⟨-, rfl⟩ := Prod.mk.inj hcreate
        rfl
      · simp only [halloc] at hcreate
        obtain ⟨-, rfl⟩ := Prod.mk.inj hcreate
        exact Function.update_of_ne hne _ _

/-- What `f` reads of a process that exists is changed by no call, unless `f` reads the wake time and
the process goes to sleep. -/
theorem prelude_keeps (hf : OffTurns f) {call : SchedCall} {again : Bool}
    (hused : (k.processes q).state ≠ .unused)
    (hsleep : ∀ ticks, call = .sleep ticks → k.currentProcess = some q →
      ∀ proc v, f { proc with wakeTime := v } = f proc)
    (hprelude : k.prelude fuel call = some (k₁, again)) :
    f (k₁.processes q) = f (k.processes q) := by
  cases preludes hprelude with
  | unborn hcreate => rw [processes_create hcreate hused]
  | spawned hcreate hadd => rw [keeps_schedulerAdd hf hadd q, processes_create hcreate hused]
  | started => rfl
  | ticked hwake => exact (keeps_expireSlice hf _ q).trans (keeps_wakeSleepers hf hwake q)
  | yielded => exact keeps_yieldSlice hf k q
  | nobody => rfl
  | blocked => exact keeps_blockProcess hf.toOffLists k _ q
  | awake => rfl
  | unblocked _ hadd => exact keeps_schedulerAdd hf hadd q
  | sleepless => rfl
  | @asleep ticks p _ hcurrent hfall =>
      refine (keeps_insertSleeper hf.offLinks hfall q).trans ?_
      refine (keeps_blockProcess hf.toOffLists _ p q).trans ?_
      by_cases hq : q = p
      · subst hq
        refine Eq.trans ?_ (hsleep ticks rfl hcurrent (k.processes q) (k.currentTick + ticks))
        simp [modify]
      · simp [modify, hq]

end SimpleOs.Kernel
