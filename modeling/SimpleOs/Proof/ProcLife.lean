import SimpleOs.Proof.PmmAlloc
import SimpleOs.Proof.SchedFrame

/-!
# Processes that exist and pointers to them

`process_destroy` frees the stack of a process and marks its slot unused, and asks nobody who may still
point to it. `Closed` says that the pointers of the scheduler lead to processes that exist and from
those to others that exist; unlike `Linked` it says nothing about the shape of the lists, so it holds
whatever is added or removed how often. Every call of the scheduler keeps it. Destroying a process
keeps it if nothing points to the process.
-/

namespace SimpleOs.Kernel

variable {k k' k₁ : Kernel} {p q next : ProcPtr} {o : Option ProcPtr} {fuel : Nat} {call : SchedCall}

def Live (k : Kernel) (p : ProcPtr) : Prop := (k.processes p).state ≠ .unused

instance (k : Kernel) (p : ProcPtr) : Decidable (k.Live p) :=
  inferInstanceAs (Decidable ((k.processes p).state ≠ .unused))

def LivePtr (k : Kernel) (o : Option ProcPtr) : Prop := ∀ p, o = some p → k.Live p

structure Closed (k : Kernel) : Prop where
  ready : ∀ i, k.LivePtr (k.readyQueues i)
  sleep : k.LivePtr k.sleepQueue
  current : k.LivePtr k.currentProcess
  idle : k.LivePtr k.idleProc
  next : ∀ p, k.Live p → k.LivePtr (k.processes p).next

/-- A step that creates and destroys nobody and leaves the pointers closed. -/
structure Moves (k k' : Kernel) : Prop where
  closed : k'.Closed
  live : ∀ p, k'.Live p ↔ k.Live p
  pmm : k'.pmm = k.pmm

theorem Closed.refl (h : k.Closed) : Moves k k := ⟨h, fun _ => Iff.rfl, rfl⟩

theorem Moves.trans (h : Moves k k') (h' : Moves k' k₁) : Moves k k₁ :=
  ⟨h'.closed, fun p => (h'.live p).trans (h.live p), h'.pmm.trans h.pmm⟩

theorem livePtr_none (k : Kernel) : k.LivePtr none := fun _ hp => by cases hp

theorem livePtr_some (hp : k.Live p) : k.LivePtr (some p) := fun q hq => by
  obtain rfl := Option.some_inj.mp hq
  exact hp

/-- A write to one process that leaves it existing, with a `next` that leads to one that exists. -/
theorem Closed.modify (h : k.Closed) {f : Process → Process}
    (hstate : (f (k.processes p)).state = .unused ↔ (k.processes p).state = .unused)
    (hnext : k.Live p → k.LivePtr (f (k.processes p)).next) : Moves k (k.modify p f) := by
  have hlive : ∀ q, (k.modify p f).Live q ↔ k.Live q := by
    intro q
    by_cases hq : q = p
    · subst hq
      simp [Live, Kernel.modify, hstate]
    · simp [Live, Kernel.modify, hq]
  have hptr : ∀ {o}, k.LivePtr o → (k.modify p f).LivePtr o := fun ho q hq =>
    (hlive q).mpr (ho q hq)
  refine ⟨⟨fun i => hptr (h.ready i), hptr h.sleep, hptr h.current, hptr h.idle, fun q hq => ?_⟩,
    hlive, rfl⟩
  have hq' := (hlive q).mp hq
  refine hptr ?_
  by_cases heq : q = p
  · subst heq
    simpa [Kernel.modify] using hnext hq'
  · simpa [Kernel.modify, heq] using h.next q hq'

theorem Closed.setNext (h : k.Closed) (p : ProcPtr) (ho : k.LivePtr o) : Moves k (k.setNext p o) :=
  h.modify Iff.rfl fun _ => ho

theorem Closed.setPrev (h : k.Closed) (p : ProcPtr) (o : Option ProcPtr) :
    Moves k (k.setPrev p o) := h.modify Iff.rfl fun hp => h.next p hp

theorem Closed.setTimeSlice (h : k.Closed) (p : ProcPtr) (v : X86.Word) :
    Moves k (k.setTimeSlice p v) := h.modify Iff.rfl fun hp => h.next p hp

theorem Closed.chargeTick (h : k.Closed) (p : ProcPtr) : Moves k (k.chargeTick p) :=
  h.modify Iff.rfl fun hp => h.next p hp

theorem Closed.setState (h : k.Closed) (hp : k.Live p) {s : ProcState} (hs : s ≠ .unused) :
    Moves k (k.setState p s) :=
  h.modify (iff_of_false hs hp) fun hp => h.next p hp

theorem Closed.setReadyQueue (h : k.Closed) (i : Fin 32) (ho : k.LivePtr o) :
    Moves k (k.setReadyQueue i o) := by
  refine ⟨⟨fun j => ?_, h.sleep, h.current, h.idle, h.next⟩, fun _ => Iff.rfl, rfl⟩
  simp only [Kernel.setReadyQueue, Function.update_apply]
  split
  · exact ho
  · exact h.ready j

theorem Closed.setSleepQueue (h : k.Closed) (ho : k.LivePtr o) :
    Moves k { k with sleepQueue := o } :=
  ⟨⟨h.ready, ho, h.current, h.idle, h.next⟩, fun _ => Iff.rfl, rfl⟩

theorem Closed.clearLinks (h : k.Closed) (p : ProcPtr) :
    Moves k ((k.setNext p none).setPrev p none) :=
  have hnext := h.setNext p (livePtr_none k)
  hnext.trans (hnext.closed.setPrev p none)

theorem Closed.unlinkProcess (h : k.Closed) (hp : k.Live p) : Moves k (k.unlinkProcess p) := by
  have hnext : k.LivePtr (k.processes p).next := h.next p hp
  have hclear : ∀ k₁, Moves k k₁ → Moves k ((k₁.setNext p none).setPrev p none) := fun k₁ h₁ =>
    h₁.trans (h₁.closed.clearLinks p)
  unfold Kernel.unlinkProcess
  simp only
  apply hclear
  cases (k.processes p).prev with
  | none =>
      have h₁ := h.setReadyQueue (k.queueOf p) hnext
      simp only
      split
      · exact h₁.trans (h₁.closed.setPrev _ _)
      · exact h₁
  | some prev =>
      have h₁ := h.setNext prev hnext
      simp only
      split
      · exact h₁.trans (h₁.closed.setPrev _ _)
      · exact h₁

theorem Closed.schedulerRemove (h : k.Closed) (hp : k.Live p) : Moves k (k.schedulerRemove p) := by
  have hunlink := h.unlinkProcess hp
  unfold Kernel.schedulerRemove
  simp only
  split
  · exact ⟨⟨hunlink.closed.ready, hunlink.closed.sleep, hunlink.closed.current, hunlink.closed.idle,
      hunlink.closed.next⟩, hunlink.live, hunlink.pmm⟩
  · exact hunlink

theorem Closed.blockProcess (h : k.Closed) (hp : k.Live p) : Moves k (k.blockProcess p) := by
  have hstate := h.setState hp (s := .blocked) (by simp)
  exact hstate.trans (hstate.closed.schedulerRemove ((hstate.live p).mpr hp))

/-- `scheduler_add` does nothing to a slot that is unused. -/
theorem Closed.schedulerAdd (h : k.Closed) (hadd : k.schedulerAdd p = some k') : Moves k k' := by
  unfold Kernel.schedulerAdd at hadd
  split at hadd
  · obtain rfl := Option.some_inj.mp hadd
    exact h.refl
  · rename_i hp
    obtain ⟨k₁, hlinked, rfl⟩ := Option.map_eq_some_iff.mp hadd
    have hclear := h.clearLinks p
    have hself := livePtr_some ((hclear.live p).mpr hp)
    have h₁ : Moves k k₁ := by
      split at hlinked
      · obtain rfl := Option.some_inj.mp hlinked
        have hfirst := hclear.trans (hclear.closed.setReadyQueue (k.queueOf p) hself)
        exact ⟨⟨hfirst.closed.ready, hfirst.closed.sleep, hfirst.closed.current, hfirst.closed.idle,
          hfirst.closed.next⟩, hfirst.live, hfirst.pmm⟩
      · obtain ⟨tail, -, rfl⟩ := Option.map_eq_some_iff.mp hlinked
        have hlast := hclear.trans (hclear.closed.setNext tail hself)
        exact hlast.trans (hlast.closed.setPrev p (some tail))
    have h₂ := h₁.trans (h₁.closed.setState ((h₁.live p).mpr hp) (s := .ready) (by simp))
    exact h₂.trans (h₂.closed.setTimeSlice p _)

theorem Closed.popSleeper (h : k.Closed) (hp : k.Live p) : Moves k (k.popSleeper p) := by
  have hnext : k.LivePtr (k.processes p).next := h.next p hp
  unfold Kernel.popSleeper
  simp only
  cases hp' : (k.processes p).next with
  | none =>
      rw [hp'] at hnext
      have h₁ := h.setSleepQueue hnext
      exact h₁.trans (h₁.closed.clearLinks p)
  | some q =>
      rw [hp'] at hnext
      have h₁ := h.setSleepQueue hnext
      have h₂ := h₁.trans (h₁.closed.setPrev q none)
      exact h₂.trans (h₂.closed.clearLinks p)

theorem Closed.wakeSleepers (h : k.Closed) (hwake : k.wakeSleepers fuel = some k') :
    Moves k k' := by
  induction fuel generalizing k with
  | zero => cases hwake
  | succ fuel ih =>
      rw [Kernel.wakeSleepers] at hwake
      split at hwake
      · obtain rfl := Option.some_inj.mp hwake
        exact h.refl
      · rename_i q hq
        split at hwake
        · obtain ⟨k₁, hadd, hrest⟩ := Option.bind_eq_some_iff.mp hwake
          have hpop := h.popSleeper (h.sleep q hq)
          have h₁ := hpop.trans (hpop.closed.schedulerAdd hadd)
          exact h₁.trans (ih h₁.closed hrest)
        · obtain rfl := Option.some_inj.mp hwake
          exact h.refl

theorem Closed.sleepPosition (h : k.Closed) {wakeTime : X86.Word} {head pos : ProcPtr}
    (hhead : k.Live head) (hpos : k.sleepPosition wakeTime fuel head = some pos) : k.Live pos := by
  induction fuel generalizing head with
  | zero => cases hpos
  | succ fuel ih =>
      rw [Kernel.sleepPosition] at hpos
      split at hpos
      · obtain rfl := Option.some_inj.mp hpos
        exact hhead
      · rename_i next hnext
        split at hpos
        · exact ih (h.next head hhead next hnext) hpos
        · obtain rfl := Option.some_inj.mp hpos
          exact hhead

theorem Closed.insertSleeper (h : k.Closed) (hp : k.Live p)
    (hinsert : k.insertSleeper p = some k') : Moves k k' := by
  unfold Kernel.insertSleeper at hinsert
  split at hinsert
  · obtain rfl := Option.some_inj.mp hinsert
    have hclear := h.clearLinks p
    exact hclear.trans (hclear.closed.setSleepQueue (livePtr_some ((hclear.live p).mpr hp)))
  · rename_i head hhead
    have hlive : k.Live head := h.sleep head hhead
    split at hinsert
    · obtain rfl := Option.some_inj.mp hinsert
      have h₁ := h.setNext p (livePtr_some hlive)
      have h₂ := h₁.trans (h₁.closed.setPrev p none)
      have h₃ := h₂.trans (h₂.closed.setPrev head (some p))
      exact h₃.trans (h₃.closed.setSleepQueue (livePtr_some ((h₃.live p).mpr hp)))
    · obtain ⟨pos, hpos, rfl⟩ := Option.map_eq_some_iff.mp hinsert
      have hnext : k.LivePtr (k.processes pos).next := h.next pos (h.sleepPosition hlive hpos)
      have hlast : ∀ k₁, Moves k k₁ → Moves k (k₁.setNext pos (some p)) := fun k₁ h₁ =>
        h₁.trans (h₁.closed.setNext pos (livePtr_some ((h₁.live p).mpr hp)))
      apply hlast
      have h₁ := h.setNext p hnext
      have h₂ := h₁.trans (h₁.closed.setPrev p (some pos))
      split
      · exact h₂.trans (h₂.closed.setPrev _ _)
      · exact h₂

theorem Closed.fallAsleep (h : k.Closed) (hp : k.Live p) {ticks : X86.Word}
    (hsleep : k.fallAsleep p ticks = some k') : Moves k k' := by
  have hwake : Moves k
      (k.modify p fun proc => { proc with wakeTime := k.currentTick + ticks }) :=
    h.modify Iff.rfl fun hp => h.next p hp
  have hblock := hwake.trans (hwake.closed.blockProcess ((hwake.live p).mpr hp))
  exact hblock.trans (hblock.closed.insertSleeper ((hblock.live p).mpr hp) hsleep)

theorem Closed.findNextProcess (h : k.Closed) : k.LivePtr k.findNextProcess := by
  unfold Kernel.findNextProcess
  split
  · exact h.idle
  · exact h.ready _

theorem Closed.requeueCurrent (h : k.Closed) (hrun : k.requeueCurrent = some k') : Moves k k' := by
  unfold Kernel.requeueCurrent at hrun
  split at hrun
  · obtain rfl := Option.some_inj.mp hrun
    exact h.refl
  · rename_i c hc
    split at hrun
    · have hstate := h.setState (h.current c hc) (s := .ready) (by simp)
      exact hstate.trans (hstate.closed.schedulerAdd hrun)
    · obtain rfl := Option.some_inj.mp hrun
      exact h.refl

theorem Closed.switchTo (h : k.Closed) (hp : k.Live p) : Moves k (k.switchTo p) := by
  have hremove := h.schedulerRemove hp
  have hstate := hremove.trans
    (hremove.closed.setState ((hremove.live p).mpr hp) (s := .running) (by simp))
  have hself := livePtr_some ((hstate.live p).mpr hp)
  unfold Kernel.switchTo
  simp only
  split
  · exact ⟨⟨hstate.closed.ready, hstate.closed.sleep, hself, hstate.closed.idle,
      hstate.closed.next⟩, hstate.live, hstate.pmm⟩
  · exact ⟨⟨hstate.closed.ready, hstate.closed.sleep, hself, hstate.closed.idle,
      hstate.closed.next⟩, hstate.live, hstate.pmm⟩

theorem Closed.schedule (h : k.Closed) (hrun : k.schedule = some k') : Moves k k' := by
  obtain rfl | ⟨next, k₁, hnext, -, hrequeue, rfl⟩ := schedule_cases hrun
  · exact h.refl
  · have hback := h.requeueCurrent hrequeue
    exact hback.trans (hback.closed.switchTo ((hback.live next).mpr (h.findNextProcess next hnext)))

theorem Closed.expireSlice (h : k.Closed) : Moves k k.expireSlice.1 := by
  unfold Kernel.expireSlice
  cases k.currentProcess with
  | none => exact h.refl
  | some c =>
      simp only
      split
      · exact h.chargeTick c
      · exact h.refl

theorem Closed.yieldSlice (h : k.Closed) : Moves k k.yieldSlice := by
  unfold Kernel.yieldSlice
  cases k.currentProcess with
  | none => exact h.refl
  | some c => exact h.setTimeSlice c 0

/-- The page is one of the two of the kernel stack of `p`. -/
def OnStack (k : Kernel) (p : ProcPtr) (page : Nat) : Prop :=
  (k.processes p).kernelStack / pageSize ≤ page ∧
    page < (k.processes p).kernelStack / pageSize + kernelStackSize / pageSize

def StackUsed (k : Kernel) (p : ProcPtr) : Prop :=
  ∀ page, k.OnStack p page → k.pmm.bitmapTest page = true

/-- Processes that exist are kernel threads and have each a stack of their own. -/
structure Housed (k : Kernel) : Prop where
  used : ∀ p, k.Live p → k.StackUsed p
  apart : ∀ p q, p ≠ q → k.Live p → k.Live q → ∀ page, k.OnStack p page → ¬ k.OnStack q page
  kernel : ∀ p, k.Live p → (k.processes p).pageTable = 0

def housing (proc : Process) : Nat × X86.Word := (proc.kernelStack, proc.pageTable)

theorem offTurns_housing : OffTurns housing :=
  ⟨⟨fun _ _ => rfl, fun _ _ => rfl, fun _ _ => rfl⟩, fun _ _ => rfl, fun _ _ => rfl⟩

theorem onStack_congr (h : housing (k'.processes p) = housing (k.processes p)) (page : Nat) :
    k'.OnStack p page ↔ k.OnStack p page := by
  have hstack : (k'.processes p).kernelStack = (k.processes p).kernelStack := congrArg Prod.fst h
  rw [OnStack, OnStack, hstack]

theorem Housed.moves (h : k.Housed) (hmoves : Moves k k')
    (hsame : ∀ p, k.Live p → housing (k'.processes p) = housing (k.processes p)) : k'.Housed := by
  refine ⟨fun p hp page hpage => ?_, fun p q hne hp hq page hpage => ?_, fun p hp => ?_⟩
  · have hp' := (hmoves.live p).mp hp
    rw [hmoves.pmm]
    exact h.used p hp' page ((onStack_congr (hsame p hp') page).mp hpage)
  · have hp' := (hmoves.live p).mp hp
    have hq' := (hmoves.live q).mp hq
    rw [onStack_congr (hsame p hp')] at hpage
    rw [onStack_congr (hsame q hq')]
    exact h.apart p q hne hp' hq' page hpage
  · have hp' := (hmoves.live p).mp hp
    exact (congrArg Prod.snd (hsame p hp')).trans (h.kernel p hp')

/-- Nothing points to a dead slot, and who lives has a stack. -/
structure Sound (k : Kernel) : Prop where
  closed : k.Closed
  housed : k.Housed

theorem Sound.moves (h : k.Sound) (hmoves : Moves k k') (hkeeps : Keeps housing k k') : k'.Sound :=
  ⟨hmoves.closed, h.housed.moves hmoves fun p _ => hkeeps p⟩

/-- What `process_create_kernel_thread` leaves behind with a slot and a stack. -/
def spawned (k : Kernel) (p : ProcPtr) (start : Nat) (name : List (BitVec 8)) (entry : Nat)
    (priority : Int) : Kernel :=
  { k with
    pmm := k.pmm.markRange start (kernelStackSize / pageSize)
    nextPid := k.nextPid + 1
    mem := initialContext k.mem (start * pageSize + kernelStackSize) entry
    processes := Function.update k.processes p
      { pid := k.nextPid
        state := .ready
        priority := priority
        context := start * pageSize + kernelStackSize - 56
        kernelStack := start * pageSize
        kernelStackTop := start * pageSize + kernelStackSize
        pageTable := 0
        timeSlice := 10
        totalTime := 0
        wakeTime := 0
        parent := k.currentProcess
        exitCode := 0
        next := none
        prev := none
        name := name.take 31 } }

theorem create_cases (k : Kernel) (name : List (BitVec 8)) (entry : Nat) (priority : Int) :
    (∃ p start, ¬ k.Live p ∧ k.pmm.Window (kernelStackSize / pageSize) start ∧
      k.processCreateKernelThread name entry priority =
        (some p, k.spawned p start name entry priority)) ∨
    k.processCreateKernelThread name entry priority = (none, k) := by
  rw [processCreateKernelThread]
  cases hslot : k.allocProcessSlot with
  | none => exact .inr rfl
  | some p =>
      have hdead : ¬ k.Live p := not_not.mpr (allocProcessSlot_state hslot)
      obtain ⟨start, hwindow, -, halloc⟩ | halloc :=
        Pmm.pmmAllocPages_cases k.pmm (kernelStackSize / pageSize)
      · refine .inl ⟨p, start, hdead, hwindow, ?_⟩
        simp only [halloc, spawned]
      · refine .inr ?_
        simp only [halloc]

theorem eq_spawned_of_create {name : List (BitVec 8)} {entry : Nat} {priority : Int} {p : ProcPtr}
    (hcreate : k.processCreateKernelThread name entry priority = (some p, k')) :
    ∃ start, ¬ k.Live p ∧ k.pmm.Window (kernelStackSize / pageSize) start ∧
      k' = k.spawned p start name entry priority := by
  obtain ⟨q, start, hdead, hwindow, heq⟩ | heq := k.create_cases name entry priority
  · obtain ⟨hp, rfl⟩ := Prod.mk.inj (heq.symm.trans hcreate)
    obtain rfl := Option.some_inj.mp hp
    exact ⟨start, hdead, hwindow, rfl⟩
  · rw [heq] at hcreate
    cases hcreate

section Spawned

variable {start entry : Nat} {name : List (BitVec 8)} {priority : Int}

theorem processes_spawned (hq : q ≠ p) :
    (k.spawned p start name entry priority).processes q = k.processes q :=
  Function.update_of_ne hq _ _

theorem live_spawned :
    (k.spawned p start name entry priority).Live q ↔ q = p ∨ k.Live q := by
  by_cases hq : q = p
  · simp [hq, Live, spawned]
  · simp [hq, Live, processes_spawned]

theorem onStack_spawned_self {page : Nat} : (k.spawned p start name entry priority).OnStack p page ↔
    start ≤ page ∧ page < start + kernelStackSize / pageSize := by
  have hstack : ((k.spawned p start name entry priority).processes p).kernelStack / pageSize =
      start := by simp [spawned]
  rw [OnStack, hstack]

theorem onStack_spawned (hq : q ≠ p) (page : Nat) :
    (k.spawned p start name entry priority).OnStack q page ↔ k.OnStack q page := by
  rw [OnStack, OnStack, processes_spawned hq]

theorem Housed.spawned (h : k.Housed)
    (hwindow : k.pmm.Window (kernelStackSize / pageSize) start) :
    (k.spawned p start name entry priority).Housed := by
  -- a page that is in use is not one of the new stack
  have hclash : ∀ q, k.Live q → ∀ page, k.OnStack q page →
      ¬ (start ≤ page ∧ page < start + kernelStackSize / pageSize) := by
    intro q hq page hpage hnew
    cases (h.used q hq page hpage).symm.trans (hwindow.free page hnew.1 hnew.2)
  refine ⟨fun q hq page hpage => ?_, fun q r hne hq hr page hpage hpage' => ?_, fun q hq => ?_⟩
  · rw [Kernel.spawned, Pmm.bitmapTest_markRange, Bool.or_eq_true, decide_eq_true_iff]
    by_cases hqp : q = p
    · rw [hqp] at hpage
      exact .inl (onStack_spawned_self.mp hpage)
    · rw [onStack_spawned hqp] at hpage
      exact .inr (h.used q ((live_spawned.mp hq).resolve_left hqp) page hpage)
  · by_cases hqp : q = p
    · have hrp : r ≠ p := fun heq => hne (hqp.trans heq.symm)
      rw [hqp, onStack_spawned_self] at hpage
      rw [onStack_spawned hrp] at hpage'
      exact hclash r ((live_spawned.mp hr).resolve_left hrp) page hpage' hpage
    · have hq' := (live_spawned.mp hq).resolve_left hqp
      rw [onStack_spawned hqp] at hpage
      by_cases hrp : r = p
      · rw [hrp, onStack_spawned_self] at hpage'
        exact hclash q hq' page hpage hpage'
      · rw [onStack_spawned hrp] at hpage'
        exact h.apart q r hne hq' ((live_spawned.mp hr).resolve_left hrp) page hpage hpage'
  · by_cases hqp : q = p
    · simp [hqp, Kernel.spawned]
    · rw [processes_spawned hqp]
      exact h.kernel q ((live_spawned.mp hq).resolve_left hqp)

end Spawned

/-- A new process moves into a slot nobody points to and onto pages nobody uses. -/
theorem Sound.create (h : k.Sound) {name : List (BitVec 8)} {entry : Nat} {priority : Int}
    (hcreate : k.processCreateKernelThread name entry priority = (o, k')) :
    k'.Sound ∧ k'.LivePtr o := by
  obtain ⟨p, start, hdead, hwindow, heq⟩ | heq := k.create_cases name entry priority
  · obtain ⟨rfl, rfl⟩ := Prod.mk.inj (heq.symm.trans hcreate)
    have hptr : ∀ {o}, k.LivePtr o → (k.spawned p start name entry priority).LivePtr o :=
      fun ho q hq => live_spawned.mpr (.inr (ho q hq))
    refine ⟨⟨⟨fun i => hptr (h.closed.ready i), hptr h.closed.sleep, hptr h.closed.current,
      hptr h.closed.idle, fun q hq => ?_⟩, h.housed.spawned hwindow⟩,
      livePtr_some (live_spawned.mpr (.inl rfl))⟩
    by_cases hqp : q = p
    · rw [hqp]
      simpa [spawned] using livePtr_none _
    · rw [processes_spawned hqp]
      exact hptr (h.closed.next q ((live_spawned.mp hq).resolve_left hqp))
  · obtain ⟨rfl, rfl⟩ := Prod.mk.inj (heq.symm.trans hcreate)
    exact ⟨h, livePtr_none _⟩

/-- Nothing points to `p`: no queue starts with it, no process that exists is linked to it, and it is
neither the current nor the idle process. -/
structure Unreferenced (k : Kernel) (p : ProcPtr) : Prop where
  ready : ∀ i, k.readyQueues i ≠ some p
  sleep : k.sleepQueue ≠ some p
  current : k.currentProcess ≠ some p
  idle : k.idleProc ≠ some p
  next : ∀ q, k.Live q → q ≠ p → (k.processes q).next ≠ some p

theorem roots_destroy (k : Kernel) (p : ProcPtr) :
    (k.processDestroy p).readyQueues = k.readyQueues ∧
      (k.processDestroy p).sleepQueue = k.sleepQueue ∧
      (k.processDestroy p).currentProcess = k.currentProcess ∧
      (k.processDestroy p).idleProc = k.idleProc := by
  unfold processDestroy
  simp only
  split <;> exact ⟨rfl, rfl, rfl, rfl⟩

theorem processes_destroy (hq : q ≠ p) : (k.processDestroy p).processes q = k.processes q := by
  unfold processDestroy
  simp only
  split
  · rfl
  · exact Function.update_of_ne hq _ _

theorem live_destroy : (k.processDestroy p).Live q ↔ k.Live q ∧ q ≠ p := by
  by_cases hq : q = p
  · subst hq
    refine iff_of_false ?_ (by simp)
    unfold processDestroy
    simp only
    split
    · rename_i hdead
      simp [Live, hdead]
    · simp [Live]
  · rw [Live, processes_destroy hq]
    simp [Live, hq]

/-- Of the pages in use only those of the stack of `p` are freed. -/
theorem bitmapTest_destroy (hkernel : k.Live p → (k.processes p).pageTable = 0) {page : Nat}
    (hused : k.pmm.bitmapTest page = true) (hpage : k.Live p → ¬ k.OnStack p page) :
    (k.processDestroy p).pmm.bitmapTest page = true := by
  unfold processDestroy
  simp only
  split
  · exact hused
  · rename_i hlive
    rw [hkernel hlive]
    simp only [ne_eq, not_true_eq_false, if_false]
    split
    · rw [Pmm.pmmFreePages, Pmm.bitmapTest_releaseRange, if_neg]
      · exact hused
      · rintro ⟨hfirst, hlast, -⟩
        exact hpage hlive ⟨hfirst, hlast⟩
    · exact hused

theorem Housed.destroy (h : k.Housed) (p : ProcPtr) : (k.processDestroy p).Housed := by
  have hstacks : ∀ q, q ≠ p → ∀ page, (k.processDestroy p).OnStack q page ↔ k.OnStack q page := by
    intro q hq page
    rw [OnStack, OnStack, processes_destroy hq]
  refine ⟨fun q hq page hpage => ?_, fun q r hne hq hr page hpage => ?_, fun q hq => ?_⟩
  · obtain ⟨hq, hqp⟩ := live_destroy.mp hq
    rw [hstacks q hqp] at hpage
    exact bitmapTest_destroy (h.kernel p) (h.used q hq page hpage) fun hlive =>
      h.apart q p hqp hq hlive page hpage
  · obtain ⟨hq, hqp⟩ := live_destroy.mp hq
    obtain ⟨hr, hrp⟩ := live_destroy.mp hr
    rw [hstacks q hqp] at hpage
    rw [hstacks r hrp]
    exact h.apart q r hne hq hr page hpage
  · obtain ⟨hq, hqp⟩ := live_destroy.mp hq
    rw [processes_destroy hqp]
    exact h.kernel q hq

theorem Sound.destroy (h : k.Sound) (hp : k.Unreferenced p) : (k.processDestroy p).Sound := by
  obtain ⟨hready, hsleep, hcurrent, hidle⟩ := roots_destroy k p
  have hptr : ∀ {o}, k.LivePtr o → o ≠ some p → (k.processDestroy p).LivePtr o := by
    intro o ho hne q hq
    refine live_destroy.mpr ⟨ho q hq, ?_⟩
    rintro rfl
    exact hne hq
  refine ⟨⟨fun i => ?_, ?_, ?_, ?_, fun q hq => ?_⟩, h.housed.destroy p⟩
  · rw [hready]
    exact hptr (h.closed.ready i) (hp.ready i)
  · rw [hsleep]
    exact hptr h.closed.sleep hp.sleep
  · rw [hcurrent]
    exact hptr h.closed.current hp.current
  · rw [hidle]
    exact hptr h.closed.idle hp.idle
  · obtain ⟨hq, hqp⟩ := live_destroy.mp hq
    rw [processes_destroy hqp]
    exact hptr (h.closed.next q hq) (hp.next q hq hqp)

theorem sound_boot (hk : k.Booted) : k.Sound := by
  obtain ⟨mem, pmm, kernelPml4, tssRsp0, cr3, idleEntry, rfl⟩ := hk
  unfold boot schedulerInit
  simp only
  generalize hk₀ : processInit _ = k₀
  have hnobody : ∀ p, ¬ k₀.Live p := by
    intro p
    rw [← hk₀]
    simp [Live, processInit]
  have h₀ : k₀.Sound := by
    refine ⟨⟨fun i => ?_, ?_, ?_, ?_, fun p hp => absurd hp (hnobody p)⟩,
      ⟨fun p hp => absurd hp (hnobody p), fun p q _ hp => absurd hp (hnobody p),
        fun p hp => absurd hp (hnobody p)⟩⟩
    all_goals
      rw [← hk₀]
      exact livePtr_none _
  rcases hcreate : k₀.processCreateKernelThread [105, 100, 108, 101] idleEntry schedPriorityIdle
    with ⟨idle, k₁⟩
  obtain ⟨h₁, hidle⟩ := h₀.create hcreate
  have hclosed : Closed { k₁ with idleProc := idle } :=
    ⟨h₁.closed.ready, h₁.closed.sleep, h₁.closed.current, hidle, h₁.closed.next⟩
  have hhoused : Housed { k₁ with idleProc := idle } := ⟨h₁.housed.used, h₁.housed.apart,
    h₁.housed.kernel⟩
  cases idle with
  | none => exact ⟨hclosed, hhoused⟩
  | some p =>
      have hp : Live { k₁ with idleProc := some p } p := hidle p rfl
      have hmoves := hclosed.setState hp (s := .ready) (by simp)
      refine ⟨hmoves.closed, hhoused.moves hmoves fun q _ => ?_⟩
      exact keeps_setState offTurns_housing.toOffLists _ p .ready q

theorem Sound.schedulerAdd (h : k.Sound) (hadd : k.schedulerAdd p = some k') : k'.Sound :=
  h.moves (h.closed.schedulerAdd hadd) (keeps_schedulerAdd offTurns_housing hadd)

theorem Sound.schedule (h : k.Sound) (hrun : k.schedule = some k') : k'.Sound :=
  h.moves (h.closed.schedule hrun) (keeps_schedule offTurns_housing hrun)

/-- A process that is blocked exists. -/
def BlocksLive (k : Kernel) : SchedCall → Prop
  | .block (some p) => k.Live p
  | _ => True

theorem Sound.prelude {again : Bool} (h : k.Sound) (hcall : k.BlocksLive call)
    (hprelude : k.prelude fuel call = some (k₁, again)) : k₁.Sound := by
  have hclosed := h.closed
  cases preludes hprelude with
  | unborn hcreate => exact (h.create hcreate).1
  | spawned hcreate hadd => exact (h.create hcreate).1.schedulerAdd hadd
  | started =>
      exact ⟨⟨hclosed.ready, hclosed.sleep, hclosed.current, hclosed.idle, hclosed.next⟩,
        ⟨h.housed.used, h.housed.apart, h.housed.kernel⟩⟩
  | @ticked k₂ hwake =>
      have hticked : Sound { k with currentTick := k.currentTick + 1 } :=
        ⟨⟨hclosed.ready, hclosed.sleep, hclosed.current, hclosed.idle, hclosed.next⟩,
          ⟨h.housed.used, h.housed.apart, h.housed.kernel⟩⟩
      have h₂ := hticked.moves (hticked.closed.wakeSleepers hwake)
        (keeps_wakeSleepers offTurns_housing hwake)
      exact h₂.moves h₂.closed.expireSlice (keeps_expireSlice offTurns_housing k₂)
  | yielded => exact h.moves hclosed.yieldSlice (keeps_yieldSlice offTurns_housing k)
  | nobody => exact h
  | @blocked proc p hproc =>
      have hp : k.Live p := by
        cases proc with
        | none => exact hclosed.current p (by rwa [Option.none_or] at hproc)
        | some q =>
            obtain rfl := Option.some_inj.mp hproc
            exact hcall
      exact h.moves (hclosed.blockProcess hp) (keeps_blockProcess offTurns_housing.toOffLists k p)
  | awake => exact h
  | unblocked _ hadd => exact h.schedulerAdd hadd
  | sleepless => exact h
  | @asleep _ p _ hcurrent hfall =>
      exact h.moves (hclosed.fallAsleep (hclosed.current p hcurrent) hfall)
        (keeps_fallAsleep offTurns_housing.toOffLists (fun _ _ => rfl) hfall)

theorem Sound.step (h : k.Sound) (hcall : k.BlocksLive call) (hstep : k.step fuel call = some k') :
    k'.Sound := by
  exact step_elim hstep (fun k₁ again hprelude => h.prelude hcall hprelude)
    fun k₁ _ h₁ hrun => h₁.schedule hrun

inductive LifeCall where
  | create (name : List (BitVec 8)) (entry : Nat) (priority : Int)
  | add (p : ProcPtr)
  | destroy (p : ProcPtr)
  | sched (call : SchedCall)

def lifeStep (k : Kernel) (fuel : Nat) : LifeCall → Option Kernel
  | .create name entry priority => some (k.processCreateKernelThread name entry priority).2
  | .add p => k.schedulerAdd p
  | .destroy p => some (k.processDestroy p)
  | .sched call => k.step fuel call

/-- A process that is destroyed is one that nothing points to. -/
def Detached (k : Kernel) : LifeCall → Prop
  | .destroy p => k.Unreferenced p
  | .sched call => k.BlocksLive call
  | _ => True

def LifeRun (ok : Kernel → LifeCall → Prop) : Kernel → Kernel → Prop :=
  Relation.ReflTransGen fun k k' => ∃ call fuel, ok k call ∧ k.lifeStep fuel call = some k'

theorem sound_run (hboot : k.Booted) (hrun : LifeRun Detached k k') : k'.Sound := by
  induction hrun with
  | refl => exact sound_boot hboot
  | tail _ hstep ih =>
      obtain ⟨call, fuel, hcall, hstep⟩ := hstep
      cases call with
      | create name entry priority =>
          obtain rfl := Option.some_inj.mp hstep
          exact (ih.create rfl).1
      | add p => exact ih.schedulerAdd hstep
      | destroy p =>
          obtain rfl := Option.some_inj.mp hstep
          exact ih.destroy hcall
      | sched call => exact ih.step hcall hstep

/-- Going along `next` from the pointer `o` one comes to `p`. -/
inductive Reaches (k : Kernel) (o : Option ProcPtr) : ProcPtr → Prop
  | head {p : ProcPtr} (hp : o = some p) : Reaches k o p
  | next {p q : ProcPtr} (hp : Reaches k o p) (hq : (k.processes p).next = some q) : Reaches k o q

theorem Closed.reaches (h : k.Closed) (ho : k.LivePtr o) (hp : k.Reaches o p) : k.Live p := by
  induction hp with
  | head hp => exact ho _ hp
  | next _ hq ih => exact h.next _ ih _ hq

/-- Who is in a ready queue or in the sleep queue, or runs, exists. -/
structure NoneDead (k : Kernel) : Prop where
  ready : ∀ i p, k.Reaches (k.readyQueues i) p → k.Live p
  sleep : ∀ p, k.Reaches k.sleepQueue p → k.Live p
  current : ∀ p, k.currentProcess = some p → k.Live p

/-- **No pointer to a dead slot.** In every run that destroys only processes that nothing points to, the
processes in the queues and the current process exist; and wherever `schedule` is called, the process it
goes on with has its stack. -/
theorem noneDead_of_run (hboot : k.Booted) (hrun : LifeRun Detached k k') :
    k'.NoneDead ∧ ∀ call fuel k₁, k'.BlocksLive call → k'.prelude fuel call = some (k₁, true) →
      ∀ next, k₁.findNextProcess = some next → k₁.Live next ∧ k₁.StackUsed next := by
  have h := sound_run hboot hrun
  refine ⟨⟨fun i p hp => ?_, fun p hp => ?_, h.closed.current⟩, ?_⟩
  · exact h.closed.reaches (h.closed.ready i) hp
  · exact h.closed.reaches h.closed.sleep hp
  · intro call fuel k₁ hcall hprelude next hnext
    have h₁ := h.prelude hcall hprelude
    have hlive := h₁.closed.findNextProcess next hnext
    exact ⟨hlive, h₁.housed.used next hlive⟩

instance (k : Kernel) (p : ProcPtr) : Decidable (k.Unreferenced p) :=
  decidable_of_iff ((∀ i, k.readyQueues i ≠ some p) ∧ k.sleepQueue ≠ some p ∧
      k.currentProcess ≠ some p ∧ k.idleProc ≠ some p ∧
      ∀ q, k.Live q → q ≠ p → (k.processes q).next ≠ some p)
    ⟨fun h => ⟨h.1, h.2.1, h.2.2.1, h.2.2.2.1, h.2.2.2.2⟩,
      fun h => ⟨h.ready, h.sleep, h.current, h.idle, h.next⟩⟩

instance (k : Kernel) (call : SchedCall) : Decidable (k.BlocksLive call) :=
  match call with
  | .block (some p) => inferInstanceAs (Decidable (k.Live p))
  | .block none | .spawn .. | .start | .tick | .yield | .unblock _ | .sleep _ => isTrue trivial

instance (k : Kernel) (call : LifeCall) : Decidable (k.Detached call) :=
  match call with
  | .destroy p => inferInstanceAs (Decidable (k.Unreferenced p))
  | .sched call => inferInstanceAs (Decidable (k.BlocksLive call))
  | .create .. | .add _ => isTrue trivial

def lifeReplay (ok : Kernel → LifeCall → Prop) [∀ k call, Decidable (ok k call)] (k : Kernel) :
    List LifeCall → Option Kernel
  | [] => some k
  | call :: calls =>
      if ok k call then (k.lifeStep 65 call).bind fun k => lifeReplay ok k calls else none

theorem lifeRun_of_replay {ok : Kernel → LifeCall → Prop} [∀ k call, Decidable (ok k call)]
    {calls : List LifeCall} (h : k.lifeReplay ok calls = some k') : LifeRun ok k k' := by
  induction calls generalizing k with
  | nil =>
      obtain rfl := Option.some_inj.mp h
      exact Relation.ReflTransGen.refl
  | cons call calls ih =>
      rw [lifeReplay] at h
      split at h
      · rename_i hok
        obtain ⟨k₁, hstep, hrest⟩ := Option.bind_eq_some_iff.mp h
        exact Relation.ReflTransGen.head ⟨call, 65, hok, hstep⟩ (ih hrest)
      · cases h

/-- A process is destroyed before it is added, and its slot and its stack go to another. -/
def reusedSlot : List LifeCall :=
  [.create [65] 0 16, .destroy 1, .create [66] 0 16, .add 1, .sched .start, .sched .tick]

theorem noneDead_reusedSlot :
    ∃ k', sampleBoot.lifeReplay Detached reusedSlot = some k' ∧ k'.NoneDead := by
  obtain ⟨k', hk'⟩ := Option.isSome_iff_exists.mp
    (by decide +kernel : (sampleBoot.lifeReplay Detached reusedSlot).isSome = true)
  exact ⟨k', hk', (noneDead_of_run booted_sampleBoot (lifeRun_of_replay hk')).1⟩

/-- Any process that exists may be destroyed. -/
def Given (k : Kernel) : LifeCall → Prop
  | .destroy p => k.Live p
  | .sched (.spawn ..) => False
  | .sched (.unblock _) => False
  | .sched call => k.BlocksLive call
  | _ => True

instance (k : Kernel) (call : LifeCall) : Decidable (k.Given call) :=
  match call with
  | .destroy p => inferInstanceAs (Decidable (k.Live p))
  | .sched (.spawn ..) | .sched (.unblock _) => isFalse not_false
  | .sched (.block proc) => inferInstanceAs (Decidable (k.BlocksLive (.block proc)))
  | .sched .start | .sched .tick | .sched .yield | .sched (.sleep _) => isTrue trivial
  | .create .. | .add _ => isTrue trivial

/-- A process that is destroyed stays where it is in its ready queue. -/
theorem not_noneDead_destroyedReady :
    ¬ ∀ k k', k.Booted → LifeRun Given k k' → k'.NoneDead := by
  intro h
  have heval : ((sampleBoot.lifeReplay Given [.create [65] 0 16, .add 1, .destroy 1]).map
      fun k => (k.readyQueues 16, (k.processes 1).state)) = some (some 1, .unused) := by
    decide +kernel
  obtain ⟨k', hreplay, hk'⟩ := Option.map_eq_some_iff.mp heval
  obtain ⟨hhead, hdead⟩ := Prod.mk.inj hk'
  have hnone := h sampleBoot k' booted_sampleBoot (lifeRun_of_replay hreplay)
  exact hnone.ready 16 1 (.head hhead) hdead

end SimpleOs.Kernel
