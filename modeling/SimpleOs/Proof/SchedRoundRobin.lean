import SimpleOs.Proof.SchedBitmap
import SimpleOs.Proof.SchedFrame

/-!
# Processes of one priority take turns

`schedule` takes the first process of the queue and puts the current one behind the last, with a new
slice. If there is one queue in use and nobody sleeps, this turns a wheel: the current process followed
by the queue is the list of the processes in the order they were added, rotated by the number of turns
that are over.
-/

namespace SimpleOs

namespace View

variable {v v' : View} {p q : ProcPtr} {i : Fin 32} {l : List ProcPtr}

theorem Unlinked.notMem_ready (hp : v.Unlinked p) (hs : v.links.Sound)
    (hl : v.links.Traverses (v.ready i) l) : p ∉ l := fun hmem => hp.not_inReady hs ⟨l, hl, hmem⟩

theorem Enqueued.traverses_ready (hv : v.Enqueued p v') (h : v.Linked) (hp : v.Unlinked p)
    (hl : v.links.Traverses (v.ready (v.queue p)) l) :
    v'.links.Traverses (v'.ready (v.queue p)) (l ++ [p]) := by
  have hnotMem := hp.notMem_ready h.sound hl
  obtain ⟨hnone, rfl⟩ | ⟨tail, ⟨l', hl', htail⟩, hlast, rfl⟩ := hv
  · rw [hnone] at hl
    obtain rfl : l = [] := Links.traverses_unique hl rfl
    refine ⟨?_, hp.isolated.next⟩
    simp [View.enqueueFirst]
  · obtain rfl := Links.traverses_unique hl hl'
    exact hl.append_last h.sound htail hlast hnotMem

theorem Enqueued.ready_of_ne (hv : v.Enqueued p v') (hi : i ≠ v.queue p) :
    v'.ready i = v.ready i := by
  obtain ⟨-, rfl⟩ | ⟨tail, -, -, rfl⟩ := hv
  · exact Function.update_of_ne hi _ _
  · rfl

theorem Unlinked.enqueued (hq : v.Unlinked q) (hs : v.links.Sound) (hne : q ≠ p)
    (hv : v.Enqueued p v') : v'.Unlinked q := by
  obtain ⟨-, rfl⟩ | ⟨tail, htail, hlast, rfl⟩ := hv
  · refine ⟨hq.isolated, fun i hi => ?_, hq.sleep⟩
    simp only [View.enqueueFirst, Function.update_apply] at hi
    split at hi
    · exact hne (Option.some_inj.mp hi).symm
    · exact hq.ready i hi
  · have hqt : q ≠ tail := by
      rintro rfl
      exact hq.not_inReady hs htail
    refine ⟨⟨?_, ?_⟩, hq.ready, hq.sleep⟩
    · simp [View.enqueueAfter, Links.insertAfter, hqt, hne, hq.isolated.next]
    · simp [View.enqueueAfter, Links.insertAfter, hne, hlast, hq.isolated.prev]

theorem Linked.traverses_remove (h : v.Linked) (hl : v.links.Traverses (v.ready i) (p :: l)) :
    (v.remove p).links.Traverses ((v.remove p).ready i) l := by
  obtain ⟨hprev, -, rfl⟩ := h.readyHead i p hl.1
  have hready : (v.remove p).ready (v.queue p) = v.links.next p := by
    simp [View.remove, readyWithout, hprev]
  rw [hready]
  exact hl.unlink_head h.sound

theorem ready_remove_of_ne (v : View) (hi : i ≠ v.queue p) : (v.remove p).ready i = v.ready i := by
  simp only [View.remove, readyWithout]
  split
  · exact Function.update_of_ne hi _ _
  · rfl

end View

namespace Kernel

variable {k k' k₁ : Kernel} {p q c : ProcPtr} {i : Fin 32} {queue : List ProcPtr} {slice : Nat}

/-- Nobody is ready but the processes of `queue`, which wait for their turn with a full slice, and
nobody sleeps. -/
structure Lined (i : Fin 32) (queue : List ProcPtr) (k : Kernel) : Prop where
  linked : k.view.Linked
  agrees : k.BitmapAgrees
  ready : k.view.links.Traverses (k.readyQueues i) queue
  others : ∀ j, j ≠ i → k.readyQueues j = none
  awake : k.sleepQueue = none
  idle : ∀ p ∈ queue, k.idleProc ≠ some p
  full : ∀ p ∈ queue, (k.processes p).timeSlice = BitVec.ofNat 64 (37 - i.val)

/-- One more process runs, with `slice` ticks to go. -/
structure Cycle (i : Fin 32) (c : ProcPtr) (queue : List ProcPtr) (slice : Nat) (k : Kernel) : Prop
    extends Lined i queue k where
  current : k.currentProcess = some c
  running : (k.processes c).state = .running
  home : k.queueOf c = i
  busy : k.idleProc ≠ some c
  left : (k.processes c).timeSlice = BitVec.ofNat 64 slice

theorem offLists_timeSlice : OffLists Process.timeSlice :=
  ⟨fun _ _ => rfl, fun _ _ => rfl, fun _ _ => rfl⟩

theorem Lined.schedulerAdd (h : Lined i queue k) (hp : k.view.Unlinked p)
    (hused : (k.processes p).state ≠ .unused) (hhome : k.queueOf p = i)
    (hidle : k.idleProc ≠ some p) (hadd : k.schedulerAdd p = some k') :
    Lined i (queue ++ [p]) k' := by
  obtain ⟨k₁, hrun, hv, hsame⟩ := exists_schedulerAdd h.linked hp hused
  obtain rfl := Option.some_inj.mp (hadd.symm.trans hrun)
  obtain ⟨k₁, hkeeps, hslice⟩ := schedulerAdd_cases offLists_timeSlice hused hadd
  have hready := h.ready
  subst hhome
  refine ⟨h.linked.enqueued hp hv, h.agrees.schedulerAdd hadd, ?_, fun j hj => ?_, ?_,
    fun q hq => ?_, fun q hq => ?_⟩
  · exact hv.traverses_ready h.linked hp hready
  · exact (hv.ready_of_ne hj).trans (h.others j hj)
  · exact hv.sleep_eq.trans h.awake
  · rw [hsame.idle]
    rw [List.mem_append, List.mem_singleton] at hq
    obtain hq | rfl := hq
    · exact h.idle q hq
    · exact hidle
  · rw [List.mem_append, List.mem_singleton] at hq
    rw [hslice]
    obtain hq | rfl := hq
    · have hne : q ≠ p := by
        rintro rfl
        exact hp.notMem_ready h.linked.sound hready hq
      refine Eq.trans ?_ ((hkeeps q).trans (h.full q hq))
      simp [setTimeSlice, modify, hne]
    · simp [setTimeSlice, modify]

theorem Lined.switchTo (h : Lined i (p :: queue) k) :
    Cycle i p queue (37 - i.val) (k.switchTo p) := by
  have hhead : k.readyQueues i = some p := h.ready.1
  obtain ⟨hprev, hstate, hhome⟩ := h.linked.readyHead i p hhead
  have hview := view_switchTo h.linked.sound p
  have hkeeps := keeps_switchTo offLists_timeSlice k p
  have hsame := sameClock_schedulerRemove k p
  have hidle : (k.switchTo p).idleProc = k.idleProc := by
    rw [← hsame.idle]
    simp only [Kernel.switchTo]
    split <;> rfl
  refine ⟨⟨?_, ?_, ?_, fun j hj => ?_, ?_, fun q hq => ?_, fun q hq => ?_⟩, ?_, ?_, ?_, ?_, ?_⟩
  · rw [hview]
    refine h.linked.remove fun hsleep => ?_
    cases h.awake.symm.trans hsleep
  · refine h.agrees.switchTo fun _ _ => ?_
    rw [show k.queueOf p = i from hhome, hhead]
    simp
  · change (k.switchTo p).view.links.Traverses ((k.switchTo p).view.ready i) queue
    rw [hview]
    exact h.linked.traverses_remove h.ready
  · change (k.switchTo p).view.ready j = none
    rw [hview]
    refine (k.view.ready_remove_of_ne ?_).trans (h.others j hj)
    exact hhome ▸ hj
  · change (k.switchTo p).view.sleep = none
    rw [hview]
    exact h.awake
  · rw [hidle]
    exact h.idle q (List.mem_cons_of_mem p hq)
  · exact (hkeeps q).trans (h.full q (List.mem_cons_of_mem p hq))
  · simp only [Kernel.switchTo]
    split <;> rfl
  · change (k.switchTo p).view.state p = .running
    rw [hview]
    simp [View.setState]
  · change (k.switchTo p).view.queue p = i
    rw [hview]
    exact hhome
  · rw [hidle]
    exact h.idle p List.mem_cons_self
  · exact (hkeeps p).trans (h.full p List.mem_cons_self)

theorem Lined.findNextProcess (h : Lined i (p :: queue) k) : k.findNextProcess = some p := by
  have hhead : k.readyQueues i = some p := h.ready.1
  obtain ⟨hnone, -⟩ | ⟨j, q, hq, -, hfind⟩ := h.agrees.findsLowest
  · cases (hnone i).symm.trans hhead
  · obtain rfl : j = i := by
      by_contra hj
      cases (h.others j hj).symm.trans hq
    rw [hfind]
    exact hq.symm.trans hhead

theorem Lined.congr (h : Lined i queue k) (hview : k'.view = k.view)
    (hidle : k'.idleProc = k.idleProc)
    (hslices : ∀ p ∈ queue, (k'.processes p).timeSlice = (k.processes p).timeSlice) :
    Lined i queue k' := by
  have hready : k'.readyQueues = k.readyQueues := congrArg View.ready hview
  refine ⟨hview ▸ h.linked, fun j => ?_, ?_, fun j hj => ?_, ?_, fun p hp => ?_, fun p hp => ?_⟩
  · rw [show k'.readyBitmap.getLsbD j.val = k'.view.bits j from rfl, hview, hready]
    exact h.agrees j
  · rw [hview, hready]
    exact h.ready
  · rw [hready]
    exact h.others j hj
  · exact (congrArg View.sleep hview).trans h.awake
  · rw [hidle]
    exact h.idle p hp
  · rw [hslices p hp]
    exact h.full p hp

theorem Cycle.notMem (h : Cycle i c queue slice k) : c ∉ queue := by
  intro hmem
  have hready := (h.linked.forall_ready h.ready c hmem).1
  cases hready.symm.trans h.running

/-- **One turn of the wheel.** -/
theorem Cycle.schedule (h : Cycle i c (p :: queue) slice k) :
    ∃ k', k.schedule = some k' ∧ Cycle i p (queue ++ [c]) (37 - i.val) k' := by
  have hother : k.currentProcess ≠ some p := by
    rw [h.current]
    intro heq
    obtain rfl := Option.some_inj.mp heq
    exact h.notMem List.mem_cons_self
  have hunlinked : k.view.Unlinked c := h.linked.unlinked_of_state
    (by rw [show k.view.state c = .running from h.running]; simp)
    (by rw [show k.view.state c = .running from h.running]; simp)
  have hlinked : (k.setState c .ready).view.Linked := by
    rw [view_setState]
    exact h.linked.setState hunlinked .ready
  have hunlinked' : (k.setState c .ready).view.Unlinked c := by
    rw [view_setState]
    exact hunlinked.setState c .ready
  have hlined : Lined i (p :: queue) (k.setState c .ready) := by
    refine ⟨hlinked, h.agrees, ?_, h.others, h.awake, h.idle, fun q hq => ?_⟩
    · rw [view_setState]
      exact h.ready
    · exact (keeps_setState offLists_timeSlice k c .ready q).trans (h.full q hq)
  have hready : ((k.setState c .ready).processes c).state ≠ .unused := by
    simp [setState, modify]
  obtain ⟨k₁, hadd, -, -⟩ := exists_schedulerAdd hlinked hunlinked' hready
  have hhome : (k.setState c .ready).queueOf c = i := by
    rw [← h.home]
    simp [queueOf, setState, modify]
  have hback := hlined.schedulerAdd hunlinked' hready hhome h.busy hadd
  refine ⟨k₁.switchTo p, ?_, hback.switchTo⟩
  have hrequeue : k.requeueCurrent = some k₁ := by
    rw [requeueCurrent, h.current]
    simp only [h.running, if_true]
    exact hadd
  rw [Kernel.schedule, h.findNextProcess]
  simp only [if_neg hother, hrequeue, Option.map_some]

theorem Cycle.yield (h : Cycle i c (p :: queue) slice k) :
    ∃ k', k.schedulerYield = some k' ∧ Cycle i p (queue ++ [c]) (37 - i.val) k' := by
  have hyield : k.yieldSlice = k.setTimeSlice c 0 := by
    rw [yieldSlice, h.current]
  have hview : (k.setTimeSlice c 0).view = k.view := view_setTimeSlice k c 0
  have hslices : ∀ q ∈ p :: queue,
      ((k.setTimeSlice c 0).processes q).timeSlice = (k.processes q).timeSlice := by
    intro q hq
    have hne : q ≠ c := fun heq => h.notMem (heq ▸ hq)
    simp [setTimeSlice, modify, hne]
  have hyielded : Cycle i c (p :: queue) 0 (k.setTimeSlice c 0) := by
    refine ⟨h.congr hview rfl hslices, h.current, ?_, ?_, h.busy, ?_⟩
    · exact (congrFun (congrArg View.state hview) c).trans h.running
    · exact (congrFun (congrArg View.queue hview) c).trans h.home
    · simp [setTimeSlice, modify]
  rw [schedulerYield, hyield]
  exact hyielded.schedule

theorem chargeTick_timeSlice (hleft : (k.processes c).timeSlice = BitVec.ofNat 64 (slice + 1))
    (hsmall : slice < 37) :
    ((k.chargeTick c).processes c).timeSlice = BitVec.ofNat 64 slice := by
  simp only [chargeTick, modify, Function.update_self, hleft]
  split <;> bv_omega

/-- A tick is one tick less, or the last of the turn. -/
theorem Cycle.tick (h : Cycle i c (p :: queue) (slice + 1) k) (hsmall : slice < 37) (fuel : Nat) :
    ∃ k', k.schedulerTick (fuel + 1) = some k' ∧
      if slice = 0 then Cycle i p (queue ++ [c]) (37 - i.val) k'
      else Cycle i c (p :: queue) slice k' := by
  generalize hk₁ : { k with currentTick := k.currentTick + 1 } = k₁
  have hview : (k₁.chargeTick c).view = k.view := by
    rw [view_chargeTick, ← hk₁]
    rfl
  have hslices : ∀ q ∈ p :: queue,
      ((k₁.chargeTick c).processes q).timeSlice = (k.processes q).timeSlice := by
    intro q hq
    have hne : q ≠ c := fun heq => h.notMem (heq ▸ hq)
    simp [chargeTick, modify, hne, ← hk₁]
  have hleft : ((k₁.chargeTick c).processes c).timeSlice = BitVec.ofNat 64 slice := by
    refine chargeTick_timeSlice ?_ hsmall
    rw [← hk₁]
    exact h.left
  have hidle : (k₁.chargeTick c).idleProc = k.idleProc := by
    rw [← hk₁]
    rfl
  have hcharged : Cycle i c (p :: queue) slice (k₁.chargeTick c) := by
    refine ⟨h.congr hview hidle hslices, ?_, ?_, ?_, ?_, hleft⟩
    · rw [← h.current, ← hk₁]
      rfl
    · exact (congrFun (congrArg View.state hview) c).trans h.running
    · exact (congrFun (congrArg View.queue hview) c).trans h.home
    · rw [hidle]
      exact h.busy
  have hwake : k₁.wakeSleepers (fuel + 1) = some k₁ := by
    rw [wakeSleepers, ← hk₁]
    simp only [h.awake]
  have hexpire : k₁.expireSlice = (k₁.chargeTick c, decide (slice = 0)) := by
    have hcurrent : k₁.currentProcess = some c := hk₁ ▸ h.current
    have hrunning : (k₁.processes c).state = .running := hk₁ ▸ h.running
    have hzero : BitVec.ofNat 64 slice = 0 ↔ slice = 0 := by
      constructor
      · intro heq
        bv_omega
      · rintro rfl
        rfl
    simp only [expireSlice, hcurrent, hrunning, if_true, hleft, hzero]
  rw [schedulerTick, hk₁, hwake, Option.bind_some, hexpire]
  by_cases hzero : slice = 0
  · simp only [hzero, decide_true, if_true]
    exact hcharged.schedule
  · simp only [hzero, decide_false, if_false]
    exact ⟨_, rfl, hcharged⟩

/-- Processes of one priority are created, and added in any order: `waiting` are those not yet added,
`added` those that were. -/
inductive Gathered (prio : Int) : List ProcPtr → List ProcPtr → Kernel → Prop
  | boot {k : Kernel} (hk : k.Booted) : Gathered prio [] [] k
  | create {waiting added : List ProcPtr} {k : Kernel} (h : Gathered prio waiting added k)
      (name : List (BitVec 8)) (entry : Nat) :
      Gathered prio (waiting ++ (k.processCreateKernelThread name entry prio).1.toList) added
        (k.processCreateKernelThread name entry prio).2
  | add {waiting added : List ProcPtr} {k k' : Kernel} {p : ProcPtr}
      (h : Gathered prio waiting added k) (hp : p ∈ waiting) (hadd : k.schedulerAdd p = some k') :
      Gathered prio (waiting.erase p) (added ++ [p]) k'

structure Gathering (i : Fin 32) (waiting added : List ProcPtr) (k : Kernel) : Prop
    extends Lined i added k where
  current : k.currentProcess = none
  nodup : waiting.Nodup
  unlinked : ∀ p ∈ waiting, k.view.Unlinked p
  readied : ∀ p ∈ waiting, (k.processes p).state = .ready
  home : ∀ p ∈ waiting, k.queueOf p = i
  apart : ∀ p ∈ waiting, k.idleProc ≠ some p
  taken : ∀ p, k.idleProc = some p → (k.processes p).state ≠ .unused

theorem gathering_boot (hk : k.Booted) (i : Fin 32) : Gathering i [] [] k := by
  obtain ⟨hcurrent, hview⟩ := boot_cases hk
  have hready : ∀ j, k.readyQueues j = none := by
    obtain ⟨-, hview⟩ | ⟨p, -, hview⟩ := hview
    · exact fun j => congrFun (congrArg View.ready hview) j
    · exact fun j => congrFun (congrArg View.ready hview) j
  have hsleep : k.sleepQueue = none := by
    obtain ⟨-, hview⟩ | ⟨p, -, hview⟩ := hview
    · exact congrArg View.sleep hview
    · exact congrArg View.sleep hview
  refine ⟨⟨linked_boot hk, bitmapAgrees_boot hk, hready i, fun j _ => hready j, hsleep, by simp,
    by simp⟩, hcurrent, by simp, by simp, by simp, by simp, by simp, fun p hp => ?_⟩
  obtain ⟨hnone, -⟩ | ⟨d, hd, hview⟩ := hview
  · cases hnone.symm.trans hp
  · obtain rfl := Option.some_inj.mp (hd.symm.trans hp)
    rw [show (k.processes d).state = k.view.state d from rfl, hview]
    simp [View.retype]

theorem Gathering.create {prio : Int} {waiting added : List ProcPtr}
    (h : Gathering (clampPriority prio) waiting added k) (name : List (BitVec 8)) (entry : Nat) :
    Gathering (clampPriority prio)
      (waiting ++ (k.processCreateKernelThread name entry prio).1.toList) added
      (k.processCreateKernelThread name entry prio).2 := by
  have hqueues := sameQueues_create k name entry prio
  have hused : ∀ q ∈ added, (k.processes q).state ≠ .unused := by
    intro q hq
    have hready := (h.linked.forall_ready h.ready q hq).1
    rw [show (k.processes q).state = .ready from hready]
    simp
  obtain ⟨k', hcreate, hview, hsame⟩ | ⟨p, k', hcreate, hstate, hview, hsame⟩ :=
    processCreateKernelThread_cases h.linked name entry prio
  · rw [hcreate, Option.toList_none, List.append_nil]
    have hlined : Lined (clampPriority prio) added k' := by
      refine h.congr hview hsame.idle fun q hq => ?_
      rw [processes_create hcreate (hused q hq)]
    refine ⟨hlined, hsame.current.trans h.current, h.nodup, ?_, ?_, ?_, ?_, ?_⟩
    · exact hview ▸ h.unlinked
    · exact fun q hq => (congrFun (congrArg View.state hview) q).trans (h.readied q hq)
    · exact fun q hq => (congrFun (congrArg View.queue hview) q).trans (h.home q hq)
    · exact hsame.idle ▸ h.apart
    · intro q hq
      rw [show (k'.processes q).state = k'.view.state q from rfl, hview]
      exact h.taken q (hsame.idle.symm.trans hq)
  · have hp := h.linked.unlinked_of_state (p := p) (by simp [hstate]) (by simp [hstate])
    have hnew : ∀ q ∈ waiting, q ≠ p := by
      rintro q hq rfl
      cases hstate.symm.trans (h.readied q hq)
    have hkept : ∀ q ∈ waiting, k'.processes q = k.processes q := by
      intro q hq
      refine processes_create hcreate ?_
      rw [h.readied q hq]
      simp
    have hsleep : k'.sleepQueue = k.sleepQueue := congrArg View.sleep hview
    have hlinks : k'.view.links = k.view.links := by
      rw [hview]
      rfl
    have hunlinked : ∀ q, k.view.Unlinked q → k'.view.Unlinked q := by
      intro q hq
      rw [hview]
      exact ⟨hq.isolated, hq.ready, hq.sleep⟩
    rw [hcreate] at hqueues
    rw [hcreate, Option.toList_some]
    have hlined : Lined (clampPriority prio) added k' := by
      refine ⟨hview ▸ h.linked.retype hp _ _, h.agrees.congr hqueues, ?_, fun j hj => ?_,
        hsleep.trans h.awake, hsame.idle ▸ h.idle, fun q hq => ?_⟩
      · rw [hlinks, hqueues.queues]
        exact h.ready
      · rw [hqueues.queues]
        exact h.others j hj
      · rw [processes_create hcreate (hused q hq)]
        exact h.full q hq
    have hidle : ∀ q, k.view.state q = .unused → k'.idleProc ≠ some q := by
      intro q hq hidle
      exact h.taken q (hsame.idle.symm.trans hidle) hq
    refine ⟨hlined, hsame.current.trans h.current, ?_, ?_, ?_, ?_, ?_, ?_⟩
    · refine List.nodup_append'.mpr ⟨h.nodup, List.nodup_singleton p, ?_⟩
      intro q hq hqp
      exact hnew q hq (List.mem_singleton.mp hqp)
    all_goals simp only [List.mem_append, List.mem_singleton]
    · rintro q (hq | rfl)
      · exact hunlinked q (h.unlinked q hq)
      · exact hunlinked q hp
    · rintro q (hq | rfl)
      · rw [hkept q hq]
        exact h.readied q hq
      · rw [show (k'.processes q).state = k'.view.state q from rfl, hview]
        simp [View.retype]
    · rintro q (hq | rfl)
      · rw [queueOf, hkept q hq]
        exact h.home q hq
      · rw [show k'.queueOf q = k'.view.queue q from rfl, hview]
        simp [View.retype]
    · rintro q (hq | rfl)
      · rw [hsame.idle]
        exact h.apart q hq
      · exact hidle q hstate
    · intro q hq
      have htaken := h.taken q (hsame.idle.symm.trans hq)
      rw [processes_create hcreate htaken]
      exact htaken

theorem Gathering.schedulerAdd {waiting added : List ProcPtr} (h : Gathering i waiting added k)
    (hp : p ∈ waiting) (hadd : k.schedulerAdd p = some k') :
    Gathering i (waiting.erase p) (added ++ [p]) k' := by
  have hused : (k.processes p).state ≠ .unused := by
    rw [h.readied p hp]
    simp
  have hunlinked := h.unlinked p hp
  obtain ⟨k₁, hrun, hv, hsame⟩ := exists_schedulerAdd h.linked hunlinked hused
  obtain rfl := Option.some_inj.mp (hadd.symm.trans hrun)
  have hlined := h.toLined.schedulerAdd hunlinked hused (h.home p hp) (h.apart p hp) hadd
  have hrest : ∀ q ∈ waiting.erase p, q ∈ waiting ∧ q ≠ p := fun q hq =>
    ((h.nodup.mem_erase_iff).mp hq).symm
  have hstate : ∀ q, q ≠ p → (k'.processes q).state = (k.processes q).state := fun q hq =>
    (congrFun hv.state_eq q).trans (Function.update_of_ne hq _ _)
  refine ⟨hlined, hsame.current.trans h.current, h.nodup.erase p, ?_, ?_, ?_, ?_, ?_⟩
  · intro q hq
    obtain ⟨hmem, hne⟩ := hrest q hq
    exact (h.unlinked q hmem).enqueued h.linked.sound hne hv
  · intro q hq
    obtain ⟨hmem, hne⟩ := hrest q hq
    exact (hstate q hne).trans (h.readied q hmem)
  · intro q hq
    exact (congrFun hv.queue_eq q).trans (h.home q (hrest q hq).1)
  · intro q hq
    rw [hsame.idle]
    exact h.apart q (hrest q hq).1
  · intro q hq
    have hidle := hsame.idle.symm.trans hq
    have hne : q ≠ p := by
      rintro rfl
      exact h.apart q hp hidle
    rw [hstate q hne]
    exact h.taken q hidle

theorem Gathered.gathering {prio : Int} {waiting added : List ProcPtr}
    (h : Gathered prio waiting added k) : Gathering (clampPriority prio) waiting added k := by
  induction h with
  | boot hk => exact gathering_boot hk _
  | create _ name entry ih => exact ih.create name entry
  | add _ hp hadd ih => exact ih.schedulerAdd hp hadd

theorem Gathering.schedulerStart {waiting : List ProcPtr}
    (h : Gathering i waiting (p :: queue) k) :
    ∃ k', k.schedulerStart = some k' ∧ Cycle i p queue (37 - i.val) k' := by
  have hlined : Lined i (p :: queue) { k with schedulerRunning := true } :=
    h.congr rfl rfl fun _ _ => rfl
  refine ⟨_, ?_, hlined.switchTo⟩
  rw [Kernel.schedulerStart, schedule, hlined.findNextProcess]
  simp only [requeueCurrent, h.current, reduceCtorEq, if_false, Option.map_some]

/-- Where the wheel stands: how many turns are over, and how many ticks the present one has had. -/
structure Turn where
  index : Nat
  used : Nat

/-- A turn is over with its last tick, or when its process yields. -/
def Turn.after (slice : Nat) (t : Turn) : SchedCall → Turn
  | .tick => if t.used + 1 = slice then ⟨t.index + 1, 0⟩ else ⟨t.index, t.used + 1⟩
  | .yield => ⟨t.index + 1, 0⟩
  | _ => t

/-- The process whose turn it is runs and has the rest of its slice; the others are in the queue, in the
order of their turns. -/
def InTurn (ps : List ProcPtr) (i : Fin 32) (t : Turn) (k : Kernel) : Prop :=
  t.used < 37 - i.val ∧
    ∃ c queue, ps.rotate t.index = c :: queue ∧ Cycle i c queue (37 - i.val - t.used) k

theorem InTurn.step {ps : List ProcPtr} {t : Turn} {call : SchedCall} (h : InTurn ps i t k)
    (hps : 2 ≤ ps.length) (hcall : call = .tick ∨ call = .yield) (fuel : Nat) :
    ∃ k', k.step (fuel + 1) call = some k' ∧ InTurn ps i (t.after (37 - i.val) call) k' := by
  obtain ⟨hused, c, queue, hrotate, hcycle⟩ := h
  have hlength : (ps.rotate t.index).length = queue.length + 1 := by
    rw [hrotate, List.length_cons]
  rw [List.length_rotate] at hlength
  obtain ⟨p, queue, rfl⟩ : ∃ p rest, queue = p :: rest := by
    cases queue with
    | nil => simp at hlength; omega
    | cons p rest => exact ⟨p, rest, rfl⟩
  have hnext : ps.rotate (t.index + 1) = p :: (queue ++ [c]) := by
    rw [← List.rotate_rotate, hrotate]
    simp
  have hover : ∀ k', Cycle i p (queue ++ [c]) (37 - i.val) k' → InTurn ps i ⟨t.index + 1, 0⟩ k' := by
    intro k' hk'
    exact ⟨by simp only; omega, p, _, hnext, hk'⟩
  obtain rfl | rfl := hcall
  · obtain ⟨slice, hslice⟩ : ∃ slice, 37 - i.val - t.used = slice + 1 :=
      ⟨37 - i.val - t.used - 1, by omega⟩
    rw [hslice] at hcycle
    obtain ⟨k', htick, hk'⟩ := hcycle.tick (by omega) fuel
    refine ⟨k', htick, ?_⟩
    rw [Turn.after]
    by_cases hzero : slice = 0
    · rw [if_pos (by omega)]
      rw [if_pos hzero] at hk'
      exact hover k' hk'
    · rw [if_neg (by omega)]
      rw [if_neg hzero] at hk'
      refine ⟨by simp only; omega, c, _, hrotate, ?_⟩
      have hrest : 37 - i.val - (t.used + 1) = slice := by omega
      simp only
      rw [hrest]
      exact hk'
  · obtain ⟨k', hyield, hk'⟩ := hcycle.yield
    exact ⟨k', hyield, hover k' hk'⟩

theorem InTurn.foldlM {ps : List ProcPtr} {t : Turn} {calls : List SchedCall} (h : InTurn ps i t k)
    (hps : 2 ≤ ps.length) (hcalls : ∀ call ∈ calls, call = .tick ∨ call = .yield) (fuel : Nat) :
    ∃ k', calls.foldlM (fun k call => k.step (fuel + 1) call) k = some k' ∧
      InTurn ps i (calls.foldl (Turn.after (37 - i.val)) t) k' := by
  induction calls generalizing k t with
  | nil => exact ⟨k, rfl, h⟩
  | cons call calls ih =>
      obtain ⟨k₁, hstep, h₁⟩ := h.step hps (hcalls call List.mem_cons_self) fuel
      obtain ⟨k', hrun, hk'⟩ := ih h₁ fun call hcall => hcalls call (List.mem_cons_of_mem _ hcall)
      refine ⟨k', ?_, hk'⟩
      rw [List.foldlM_cons, hstep]
      exact hrun

/-- **Round robin.** Any number of processes, at least two, of one priority, added in any order and
started: whatever ticks and yields follow, they run in the order they were added and over again, each
for `37 - prio` ticks unless it yields, the others wait in the queue in the order of their turns, and
the idle process never runs. -/
theorem roundRobin {prio : Int} (hprio : 0 ≤ prio ∧ prio ≤ 31) {ps : List ProcPtr}
    (hps : 2 ≤ ps.length) (h : Gathered prio [] ps k) :
    ∃ k₀, k.schedulerStart = some k₀ ∧
      ∀ calls : List SchedCall, (∀ call ∈ calls, call = .tick ∨ call = .yield) → ∀ fuel,
        ∃ k', calls.foldlM (fun k call => k.step (fuel + 1) call) k₀ = some k' ∧
          ∃ c queue, ps.rotate (calls.foldl (Turn.after (37 - prio).toNat) ⟨0, 0⟩).index = c :: queue ∧
            k'.currentProcess = some c ∧ (k'.processes c).state = .running ∧
            (k'.processes c).timeSlice.toNat +
              (calls.foldl (Turn.after (37 - prio).toNat) ⟨0, 0⟩).used = 37 - prio ∧
            k'.view.links.Traverses (k'.readyQueues (clampPriority prio)) queue ∧
            (∀ j, j ≠ clampPriority prio → k'.readyQueues j = none) ∧ k'.idleProc ≠ some c := by
  have hslice : (37 - prio).toNat = 37 - (clampPriority prio).val := by
    have hclamp : (clampPriority prio).val = prio.toNat := by
      rw [clampPriority, if_neg (by omega), dif_pos (by omega)]
    omega
  obtain ⟨p, queue, rfl⟩ : ∃ p rest, ps = p :: rest := by
    cases ps with
    | nil => simp at hps
    | cons p rest => exact ⟨p, rest, rfl⟩
  obtain ⟨k₀, hstart, hcycle⟩ := h.gathering.schedulerStart
  have hfirst : InTurn (p :: queue) (clampPriority prio) ⟨0, 0⟩ k₀ :=
    ⟨by simp only; omega, p, queue, List.rotate_zero _, hcycle⟩
  refine ⟨k₀, hstart, fun calls hcalls fuel => ?_⟩
  obtain ⟨k', hrun, hused, c, rest, hrotate, hk'⟩ := hfirst.foldlM hps hcalls fuel
  rw [hslice]
  refine ⟨k', hrun, c, rest, hrotate, hk'.current, hk'.running, ?_, hk'.ready, hk'.others, hk'.busy⟩
  rw [hk'.left, BitVec.toNat_ofNat, Nat.mod_eq_of_lt (by omega)]
  omega

/-- Two processes of priority 30, the second added first. -/
def pairAdded : Option Kernel :=
  let first := sampleBoot.processCreateKernelThread [65] 0 30
  let second := first.2.processCreateKernelThread [66] 0 30
  second.1.bind fun p => (second.2.schedulerAdd p).bind fun k => first.1.bind k.schedulerAdd

theorem gathered_pairAdded (hk : pairAdded = some k) : Gathered 30 [] [2, 1] k := by
  unfold pairAdded at hk
  obtain ⟨p, hp, hk⟩ := Option.bind_eq_some_iff.mp hk
  obtain ⟨k₁, hsecond, hk⟩ := Option.bind_eq_some_iff.mp hk
  obtain ⟨q, hq, hfirst⟩ := Option.bind_eq_some_iff.mp hk
  have hboot : Gathered 30 [] [] sampleBoot := .boot booted_sampleBoot
  have hcreate := (hboot.create [65] 0).create [66] 0
  have hslots : [] ++ (sampleBoot.processCreateKernelThread [65] 0 30).1.toList ++
      ((sampleBoot.processCreateKernelThread [65] 0 30).2.processCreateKernelThread
        [66] 0 30).1.toList = [1, 2] := by decide +kernel
  rw [hp, hq] at hslots
  obtain ⟨rfl, rfl⟩ : q = 1 ∧ p = 2 := by simpa using hslots
  rw [hp, hq] at hcreate
  have hadd := hcreate.add (p := 2) (by decide) hsecond
  exact hadd.add (p := 1) (by decide) hfirst

theorem roundRobin_pairAdded : ∃ k, pairAdded = some k ∧ ∃ k₀, k.schedulerStart = some k₀ ∧
    ∃ k', (List.replicate 8 SchedCall.tick).foldlM (fun k call => k.step 1 call) k₀ = some k' ∧
      k'.currentProcess = some 1 ∧ k'.idleProc ≠ some 1 := by
  obtain ⟨k, hk⟩ := Option.isSome_iff_exists.mp (by decide +kernel : pairAdded.isSome = true)
  obtain ⟨k₀, hstart, hruns⟩ := roundRobin (by decide) (by decide) (gathered_pairAdded hk)
  obtain ⟨k', hrun, c, queue, hrotate, hcurrent, -, -, -, -, hbusy⟩ :=
    hruns (List.replicate 8 .tick) (by simp) 0
  have hc : c = 1 := by
    have hwheel : [2, 1].rotate ((List.replicate 8 SchedCall.tick).foldl
        (Turn.after (37 - 30 : Int).toNat) ⟨0, 0⟩).index = [(1 : ProcPtr), 2] := by decide
    exact (List.cons.inj (hrotate.symm.trans hwheel)).1
  exact ⟨k, hk, k₀, hstart, k', hrun, hc ▸ hcurrent, hc ▸ hbusy⟩

end Kernel

end SimpleOs
