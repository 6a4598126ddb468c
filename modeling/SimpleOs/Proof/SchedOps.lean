import SimpleOs.Proof.SchedView

/-!
# The scheduler's functions on the view

Each function of the scheduler, called on processes it is meant for, is one edit of the view; what it
leaves alone beside the view is the current process, the idle process and the clock.
-/

namespace SimpleOs.Kernel

def view (k : Kernel) : View where
  links := ⟨fun p => (k.processes p).next, fun p => (k.processes p).prev⟩
  state p := (k.processes p).state
  queue := k.queueOf
  ready := k.readyQueues
  bits i := k.readyBitmap.getLsbD i.val
  sleep := k.sleepQueue

structure SameClock (k k' : Kernel) : Prop where
  current : k'.currentProcess = k.currentProcess
  idle : k'.idleProc = k.idleProc
  tick : k'.currentTick = k.currentTick

variable {k k' k₁ : Kernel} {p q t : ProcPtr} {o : Option ProcPtr} {s : ProcState} {i : Fin 32}

theorem SameClock.refl (k : Kernel) : SameClock k k := ⟨rfl, rfl, rfl⟩

theorem SameClock.trans (h : SameClock k k') (h' : SameClock k' k₁) : SameClock k k₁ :=
  ⟨h'.current.trans h.current, h'.idle.trans h.idle, h'.tick.trans h.tick⟩

theorem sameClock_modify (k : Kernel) (p : ProcPtr) (f : Process → Process) :
    SameClock k (k.modify p f) := ⟨rfl, rfl, rfl⟩

theorem view_setNext (k : Kernel) (p : ProcPtr) (o : Option ProcPtr) :
    (k.setNext p o).view =
      { k.view with links := ⟨Function.update k.view.links.next p o, k.view.links.prev⟩ } := by
  simp only [view, setNext, modify, View.mk.injEq, Links.mk.injEq, and_true]
  refine ⟨⟨?_, ?_⟩, ?_, ?_⟩ <;>
  · funext q
    by_cases hq : q = p <;> simp [hq, queueOf]

theorem view_setPrev (k : Kernel) (p : ProcPtr) (o : Option ProcPtr) :
    (k.setPrev p o).view =
      { k.view with links := ⟨k.view.links.next, Function.update k.view.links.prev p o⟩ } := by
  simp only [view, setPrev, modify, View.mk.injEq, Links.mk.injEq, and_true]
  refine ⟨⟨?_, ?_⟩, ?_, ?_⟩ <;>
  · funext q
    by_cases hq : q = p <;> simp [hq, queueOf]

theorem view_setState (k : Kernel) (p : ProcPtr) (s : ProcState) :
    (k.setState p s).view = k.view.setState p s := by
  simp only [view, setState, modify, View.setState, View.mk.injEq, Links.mk.injEq, and_true]
  refine ⟨⟨?_, ?_⟩, ?_, ?_⟩ <;>
  · funext q
    by_cases hq : q = p <;> simp [hq, queueOf]

theorem view_modify (k : Kernel) (p : ProcPtr) {f : Process → Process}
    (hnext : ∀ proc, (f proc).next = proc.next) (hprev : ∀ proc, (f proc).prev = proc.prev)
    (hstate : ∀ proc, (f proc).state = proc.state)
    (hpriority : ∀ proc, (f proc).priority = proc.priority) : (k.modify p f).view = k.view := by
  simp only [view, modify, View.mk.injEq, Links.mk.injEq, and_true]
  refine ⟨⟨?_, ?_⟩, ?_, ?_⟩ <;>
  · funext q
    by_cases hq : q = p <;> simp [hq, queueOf, hnext, hprev, hstate, hpriority]

theorem view_setTimeSlice (k : Kernel) (p : ProcPtr) (v : X86.Word) :
    (k.setTimeSlice p v).view = k.view :=
  k.view_modify p (fun _ => rfl) (fun _ => rfl) (fun _ => rfl) fun _ => rfl

theorem view_clearLinks (hp : k.view.links.Isolated p) :
    ((k.setNext p none).setPrev p none).view = k.view := by
  have hnext : Function.update k.view.links.next p none = k.view.links.next := by
    rw [← hp.next, Function.update_eq_self]
  have hprev : Function.update k.view.links.prev p none = k.view.links.prev := by
    rw [← hp.prev, Function.update_eq_self]
  rw [view_setPrev, view_setNext]
  simp only [hnext, hprev]

theorem view_setReadyQueue (k : Kernel) (i : Fin 32) (o : Option ProcPtr) :
    (k.setReadyQueue i o).view = { k.view with ready := Function.update k.view.ready i o } := rfl

theorem getLsbD_clear (bitmap : BitVec 32) (i j : Fin 32) :
    (bitmap &&& ~~~(1#32 <<< i.val)).getLsbD j.val = (bitmap.getLsbD j.val && !decide (j = i)) := by
  have hj := j.isLt
  have hiff : j = i ↔ j.val = i.val := Fin.ext_iff
  simp only [BitVec.getLsbD_and, BitVec.getLsbD_not, BitVec.getLsbD_shiftLeft, BitVec.getLsbD_one,
    hiff]
  grind

theorem getLsbD_mark (bitmap : BitVec 32) (i j : Fin 32) :
    (bitmap ||| 1#32 <<< i.val).getLsbD j.val = (bitmap.getLsbD j.val || decide (j = i)) := by
  have hj := j.isLt
  have hiff : j = i ↔ j.val = i.val := Fin.ext_iff
  simp only [BitVec.getLsbD_or, BitVec.getLsbD_shiftLeft, BitVec.getLsbD_one, hiff]
  grind

theorem view_unlinkProcess (hs : k.view.links.Sound) (p : ProcPtr) :
    (k.unlinkProcess p).view =
      { k.view with
        links := k.view.links.unlink p
        ready := k.view.readyWithout p } := by
  have hprevView : k.view.links.prev p = (k.processes p).prev := rfl
  have hnextView : k.view.links.next p = (k.processes p).next := rfl
  rw [hs.unlink_eq, View.readyWithout, hprevView, hnextView]
  unfold unlinkProcess
  cases hprev : (k.processes p).prev with
  | none =>
      cases hnext : (k.processes p).next with
      | none =>
          simp only [setReadyQueue, hnext]
          rw [view_setPrev, view_setNext]
          rfl
      | some b =>
          simp only [setReadyQueue, hnext, hprev]
          rw [view_setPrev, view_setNext, view_setPrev]
          rfl
  | some a =>
      have hne : p ≠ a := by
        rintro rfl
        exact hs.irrefl ((hs.inverse p p).mpr hprev)
      have hsame : ∀ o, ((k.setNext a o).processes p) = k.processes p := fun o =>
        Function.update_of_ne hne _ _
      cases hnext : (k.processes p).next with
      | none =>
          simp only [hsame, hnext]
          rw [view_setPrev, view_setNext, view_setNext]
          rfl
      | some b =>
          simp only [hsame, hnext, hprev]
          rw [view_setPrev, view_setNext, view_setPrev, view_setNext]
          rfl

theorem view_setBitmap (k : Kernel) (bitmap : BitVec 32) :
    { k with readyBitmap := bitmap }.view = { k.view with bits := fun i => bitmap.getLsbD i.val } :=
  rfl

theorem view_schedulerRemove (hs : k.view.links.Sound) (p : ProcPtr) :
    (k.schedulerRemove p).view = k.view.remove p := by
  have hunlink := view_unlinkProcess hs p
  have hready : (k.unlinkProcess p).readyQueues = k.view.readyWithout p := congrArg View.ready hunlink
  have hbits : ∀ i : Fin 32, (k.unlinkProcess p).readyBitmap.getLsbD i.val = k.view.bits i :=
    fun i => congrFun (congrArg View.bits hunlink) i
  have hqueue : k.view.queue p = k.queueOf p := rfl
  simp only [schedulerRemove]
  split
  · rename_i hnone
    refine (view_setBitmap _ _).trans ?_
    rw [hunlink]
    simp only [View.remove, View.mk.injEq, and_true, true_and]
    funext i
    rw [getLsbD_clear, hbits, hqueue]
    by_cases hi : i = k.queueOf p
    · rw [hready] at hnone
      simp [hi, hnone]
    · simp [hi]
  · rename_i hsome
    rw [hunlink]
    simp only [View.remove, View.mk.injEq, and_true, true_and]
    funext i
    by_cases hi : i = k.queueOf p
    · rw [hready] at hsome
      simp [hi, hqueue, Option.isSome_iff_ne_none, hsome]
    · simp [hi, hqueue]

theorem sameClock_schedulerRemove (k : Kernel) (p : ProcPtr) :
    SameClock k (k.schedulerRemove p) := by
  have hunlink : SameClock k (k.unlinkProcess p) := by
    unfold unlinkProcess
    dsimp only
    split <;> split <;> exact ⟨rfl, rfl, rfl⟩
  simp only [schedulerRemove]
  split
  · exact hunlink.trans ⟨rfl, rfl, rfl⟩
  · exact hunlink

theorem exists_queueTail {l : List ProcPtr} {head : ProcPtr} {fuel : Nat}
    (hl : k.view.links.Traverses (some head) l) (hfuel : l.length ≤ fuel) :
    ∃ tail ∈ l, (k.processes tail).next = none ∧ k.queueTail fuel head = some tail := by
  induction l generalizing head fuel with
  | nil => cases hl
  | cons a l ih =>
      obtain ⟨fuel, rfl⟩ : ∃ n, fuel = n + 1 := ⟨fuel - 1, by simp at hfuel; omega⟩
      obtain rfl : head = a := Option.some_inj.mp hl.1
      have htail : k.view.links.Traverses (k.processes head).next l := hl.2
      rw [queueTail]
      cases hnext : (k.processes head).next with
      | none => exact ⟨head, by simp, hnext, rfl⟩
      | some b =>
          have hle : l.length ≤ fuel := by simpa using hfuel
          rw [hnext] at htail
          obtain ⟨tail, hmem, hlast, hrun⟩ := ih htail hle
          exact ⟨tail, List.mem_cons_of_mem _ hmem, hlast, hrun⟩

theorem exists_queueTail_ready (h : k.view.Linked) {head : ProcPtr}
    (hhead : k.view.ready i = some head) :
    ∃ tail, k.view.InReady i tail ∧ (k.processes tail).next = none ∧
      k.queueTail 64 head = some tail := by
  obtain ⟨l, hl⟩ := h.sound.exists_traverses (some head)
  have hlength : l.length ≤ 64 := by
    simpa using (hl.nodup h.sound).length_le_card
  obtain ⟨tail, hmem, hlast, hrun⟩ := exists_queueTail hl hlength
  exact ⟨tail, ⟨l, hhead ▸ hl, hmem⟩, hlast, hrun⟩

/-- `scheduler_add` returns, with the process at the end of its queue. -/
theorem exists_schedulerAdd (h : k.view.Linked) (hp : k.view.Unlinked p)
    (hused : (k.processes p).state ≠ .unused) :
    ∃ k', k.schedulerAdd p = some k' ∧ k.view.Enqueued p k'.view ∧ SameClock k k' := by
  have hclear := view_clearLinks hp.isolated
  have hqueue : k.view.queue p = k.queueOf p := rfl
  rw [schedulerAdd, if_neg hused]
  simp only
  generalize hk₁ : (k.setNext p none).setPrev p none = k₁ at hclear ⊢
  have hsame : SameClock k k₁ := hk₁ ▸ ⟨rfl, rfl, rfl⟩
  have hqueues : k₁.readyQueues = k.view.ready := congrArg View.ready hclear
  rw [hqueues]
  cases hhead : k.view.ready (k.queueOf p) with
  | none =>
      refine ⟨_, rfl, .inl ⟨hhead, ?_⟩, hsame.trans ⟨rfl, rfl, rfl⟩⟩
      rw [view_setTimeSlice, view_setState]
      refine (congrArg (View.setState · p .ready) (view_setBitmap _ _)).trans ?_
      rw [view_setReadyQueue, hclear]
      simp only [View.setState, View.enqueueFirst, View.mk.injEq, and_true, true_and, hqueue]
      funext i
      have hbit : k₁.readyBitmap.getLsbD i.val = k.view.bits i :=
        congrFun (congrArg View.bits hclear) i
      rw [getLsbD_mark, hbit, Function.update_apply]
      by_cases hi : i = k.queueOf p
      · simp [hi]
      · simp [hi]
  | some head =>
      rw [← hclear] at h hhead
      obtain ⟨tail, htail, hlast, hrun⟩ := exists_queueTail_ready h hhead
      rw [hclear] at htail
      have hlast' : k.view.links.next tail = none := by
        rw [← hclear]
        exact hlast
      simp only [hrun, Option.map_some]
      refine ⟨_, rfl, .inr ⟨tail, htail, hlast', ?_⟩, hsame.trans ⟨rfl, rfl, rfl⟩⟩
      rw [view_setTimeSlice, view_setState, view_setPrev, view_setNext, hclear, View.enqueueAfter,
        Links.insertAfter_last hp.isolated hlast']
      rfl

theorem exists_requeueCurrent (h : k.view.Linked) :
    ∃ k', k.requeueCurrent = some k' ∧ k.view.Requeued k.currentProcess k'.view ∧
      SameClock k k' := by
  rw [requeueCurrent]
  cases hcurrent : k.currentProcess with
  | none => exact ⟨k, rfl, .inr ⟨by simp, rfl⟩, SameClock.refl k⟩
  | some c =>
      simp only
      split
      · rename_i hrunning
        have hstate : k.view.state c = .running := hrunning
        have hp := h.unlinked_of_state (p := c) (by simp [hstate]) (by simp [hstate])
        have h₁ : (k.setState c .ready).view.Linked := by
          rw [view_setState]
          exact h.setState hp .ready
        have hp₁ : (k.setState c .ready).view.Unlinked c := by
          rw [view_setState]
          exact hp.setState c .ready
        obtain ⟨k', hadd, hv, hsame⟩ := exists_schedulerAdd h₁ hp₁ (by simp [setState, modify])
        rw [view_setState] at hv
        refine ⟨k', hadd, .inl ⟨c, rfl, hstate, hv.of_setState⟩, ?_⟩
        exact (sameClock_modify k c _).trans hsame
      · rename_i hrunning
        refine ⟨k, rfl, .inr ⟨?_, rfl⟩, SameClock.refl k⟩
        rintro d hd
        cases hd
        exact hrunning

theorem view_switchTo (hs : k.view.links.Sound) (next : ProcPtr) :
    (k.switchTo next).view = (k.view.remove next).setState next .running := by
  have hview : ((k.schedulerRemove next).setState next .running).view =
      (k.view.remove next).setState next .running := by
    rw [view_setState, view_schedulerRemove hs]
  simp only [switchTo]
  split <;> exact hview

/-- What `schedule` leaves behind when it switches to `next`. -/
structure Switched (k : Kernel) (next : ProcPtr) (k' : Kernel) : Prop where
  chosen : k.findNextProcess = some next
  other : k.currentProcess ≠ some next
  current : k'.currentProcess = some next
  idle : k'.idleProc = k.idleProc
  tick : k'.currentTick = k.currentTick
  requeued : ∃ v, k.view.Requeued k.currentProcess v ∧
    k'.view = (v.remove next).setState next .running

/-- The process that `schedule` takes out of its queue does not head the sleep queue. Only the idle
process can: it is chosen without being in a queue. -/
def Schedulable (k : Kernel) : Prop :=
  ∀ next, k.findNextProcess = some next → k.currentProcess ≠ some next → k.sleepQueue ≠ some next

theorem exists_schedule (h : k.view.Linked) : ∃ k', k.schedule = some k' ∧
    (k' = k ∧ (k.findNextProcess = none ∨ k.findNextProcess = k.currentProcess) ∨
      ∃ next, Switched k next k') := by
  rw [schedule]
  cases hchosen : k.findNextProcess with
  | none => exact ⟨k, rfl, .inl ⟨rfl, .inl rfl⟩⟩
  | some next =>
      simp only
      split
      · rename_i hcurrent
        exact ⟨k, rfl, .inl ⟨rfl, .inr hcurrent.symm⟩⟩
      · rename_i hother
        obtain ⟨k₁, hrequeue, hv, hsame⟩ := exists_requeueCurrent h
        have hremove := sameClock_schedulerRemove k₁ next
        rw [hrequeue]
        refine ⟨_, rfl, .inr ⟨next, hchosen, hother, ?_, ?_, ?_, k₁.view, hv,
          view_switchTo (h.requeued hv).sound next⟩⟩
        · simp only [switchTo]
          split <;> rfl
        · rw [← hsame.idle, ← hremove.idle]
          simp only [switchTo]
          split <;> rfl
        · rw [← hsame.tick, ← hremove.tick]
          simp only [switchTo]
          split <;> rfl

theorem schedule_switches (h : k.view.Linked) (hrun : k.schedule = some k') :
    k' = k ∧ (k.findNextProcess = none ∨ k.findNextProcess = k.currentProcess) ∨
      ∃ next, Switched k next k' := by
  obtain ⟨k₁, hrun', hk₁⟩ := exists_schedule h
  obtain rfl := Option.some_inj.mp (hrun.symm.trans hrun')
  exact hk₁

theorem Switched.linked {next : ProcPtr} (hk : Switched k next k') (h : k.view.Linked)
    (hsched : k.Schedulable) : k'.view.Linked := by
  obtain ⟨v, hv, hview⟩ := hk.requeued
  rw [hview]
  refine (h.requeued hv).remove fun hsleep => ?_
  rw [hv.sleep_eq] at hsleep
  exact absurd hsleep (hsched next hk.chosen hk.other)

end SimpleOs.Kernel
