import SimpleOs.Proof.SchedRun

/-!
# No ready process is lost

`Complete` adds to `Linked` that a ready process without predecessor is the first of its queue, and
that the bitmap marks exactly the queues that are not empty. The idle process may be ready and in no
queue. `scheduler_remove` keeps this only if it is asked to remove a process that is in its queue, or
whose queue there is nothing to lose from.
-/

namespace SimpleOs

namespace View

structure Complete (v : View) (idle : Option ProcPtr) : Prop where
  covers : ∀ p, v.state p = .ready → v.links.prev p = none →
    v.ready (v.queue p) = some p ∨ idle = some p ∧ v.links.next p = none
  marks : ∀ i, v.bits i = true ↔ v.ready i ≠ none

/-- `scheduler_remove` drops nobody else: `p` has a predecessor or is the first of its queue, or there
is nobody but the idle process in that queue. -/
def DropsNone (v : View) (idle : Option ProcPtr) (p : ProcPtr) : Prop :=
  v.links.prev p = none → v.ready (v.queue p) = some p ∨ ∀ q, v.InReady (v.queue p) q → idle = some q

variable {v v' : View} {p q t : ProcPtr} {s : ProcState} {i : Fin 32} {idle : Option ProcPtr}

theorem Complete.retype (h : v.Complete idle) (p : ProcPtr) (i : Fin 32) :
    (v.retype p .unused i).Complete idle := by
  obtain ⟨hcovers, hmarks⟩ := h
  refine ⟨fun a ha hprev => ?_, hmarks⟩
  have hne : a ≠ p := by
    rintro rfl
    simp [View.retype] at ha
  simp only [View.retype, Function.update_of_ne hne] at ha ⊢
  exact hcovers a ha hprev

theorem Complete.enqueued (h : v.Complete idle) (hlinked : v.Linked) (hv : v.Enqueued p v') :
    v'.Complete idle := by
  obtain ⟨hcovers, hmarks⟩ := h
  obtain ⟨hnone, rfl⟩ | ⟨tail, htail, hlast, rfl⟩ := hv
  · refine ⟨fun a ha hprev => ?_, fun i => ?_⟩
    · simp only [View.enqueueFirst, View.setState, Function.update_apply] at *
      grind
    · simp only [View.enqueueFirst, Function.update_apply]
      have hi := hmarks i
      grind
  · refine ⟨fun a ha hprev => ?_, hmarks⟩
    have hfirst : v.links.prev tail = none → v.ready (v.queue tail) = some tail := by
      intro hnoPrev
      obtain ⟨l, hl, hmem⟩ := htail
      rw [(hlinked.forall_ready hl tail hmem).2]
      obtain hhead | ⟨b, -, hnext⟩ := hl.eq_or_next hmem
      · exact hhead
      · rw [hlinked.sound.inverse, hnoPrev] at hnext
        cases hnext
    simp only [View.enqueueAfter, View.setState, Links.insertAfter, Function.update_apply] at *
    grind

theorem marks_remove (h : v.Linked) (hp : v.Removable p s)
    (hcovers : ∀ a, v.state a = .ready → v.links.prev a = none →
      v.ready (v.queue a) = some a ∨ idle = some a ∧ v.links.next a = none)
    (hmarks : ∀ i, v.bits i = true ↔ v.ready i ≠ none) (i : Fin 32) :
    ((v.remove p).setState p s).bits i = true ↔ ((v.remove p).setState p s).ready i ≠ none := by
  simp only [View.remove, View.setState, readyWithout]
  by_cases hi : i = v.queue p
  · subst hi
    by_cases hprev : v.links.prev p = none
    · cases hnext : v.links.next p with
      | none => simp [hprev]
      | some b =>
          have hhead : v.ready (v.queue p) = some p := by
            obtain ⟨-, hblocked | ⟨hready, -⟩⟩ := h.link p b hnext
            · have hsleep := h.sleepStart p hblocked hprev (by simp [hnext])
              rw [(hp hsleep).1] at hnext
              cases hnext
            · obtain hhead | ⟨-, hnone⟩ := hcovers p hready hprev
              · exact hhead
              · rw [hnone] at hnext
                cases hnext
          have hmark := (hmarks (v.queue p)).mpr (by simp [hhead])
          simp [hprev, hmark]
    · have hmark := hmarks (v.queue p)
      rw [if_neg hprev]
      cases hhead : v.ready (v.queue p) with
      | none => simp
      | some a =>
          rw [hhead] at hmark
          simp [hmark]
  · have hmark := hmarks i
    have hsame : (if v.links.prev p = none then
        Function.update v.ready (v.queue p) (v.links.next p) else v.ready) i = v.ready i := by
      split
      · exact Function.update_of_ne hi _ _
      · rfl
    simpa [hi, hsame] using hmark

theorem Complete.remove (h : v.Complete idle) (hlinked : v.Linked) (hp : v.Removable p s)
    (hs : s ≠ .ready) (hdrops : v.DropsNone idle p) :
    ((v.remove p).setState p s).Complete idle := by
  have hinv := hlinked.sound.inverse
  have hirr : ∀ c, v.links.next c ≠ some c := fun c => hlinked.sound.irrefl
  have hlink := hlinked.link
  have hstart := hlinked.sleepStart p
  obtain ⟨hcovers, hmarks⟩ := h
  -- a first process other than `p` of the queue of `p` is the idle process, alone
  have halone : v.links.prev p = none → ∀ a, a ≠ p → v.ready (v.queue p) = some a →
      idle = some a ∧ v.links.next a = none := by
    intro hprev a hne ha
    obtain hhead | honly := hdrops hprev
    · exact absurd (Option.some_inj.mp (ha.symm.trans hhead)) hne
    · have hidle := honly a (hlinked.inReady_head ha)
      refine ⟨hidle, ?_⟩
      cases hnext : v.links.next a with
      | none => rfl
      | some b =>
          have hb := honly b ((hlinked.inReady_head ha).next hnext)
          obtain rfl := Option.some_inj.mp (hidle.symm.trans hb)
          exact absurd hnext (hirr a)
  refine ⟨fun a ha hprev => ?_, fun i => ?_⟩
  · simp only [View.remove, readyWithout, View.setState, Links.unlink, Function.update_apply] at *
    grind
  · exact marks_remove hlinked hp hcovers hmarks i

theorem Complete.pop (h : v.Complete idle) (hlinked : v.Linked) (hp : v.sleep = some p) :
    (v.pop p).Complete idle := by
  have hinv := hlinked.sound.inverse
  have hlink := hlinked.link
  have hhead := hlinked.sleepHead p hp
  obtain ⟨hcovers, hmarks⟩ := h
  refine ⟨fun a ha hprev => ?_, hmarks⟩
  simp only [View.pop, Links.unlink] at *
  grind

theorem Complete.woken (h : v.Complete idle) (hlinked : v.Linked) (hv : v.Woken v') :
    v'.Complete idle := by
  induction hv with
  | refl v => exact h
  | wake hp hadd _ ih =>
      have hpop := hlinked.pop hp
      exact ih ((h.pop hlinked hp).enqueued hpop hadd)
        (hpop.enqueued (hlinked.unlinked_pop hp) hadd)

theorem Complete.putToSleep (h : v.Complete idle) (hlinked : v.Linked)
    (hstate : v.state p = .blocked) (hv : v.PutToSleep p v') : v'.Complete idle := by
  have hlink := hlinked.link
  have hhead := hlinked.sleepHead
  obtain ⟨hcovers, hmarks⟩ := h
  obtain rfl | ⟨pos, ⟨l, hl, hmem⟩, rfl⟩ := hv
  · refine ⟨fun a ha hprev => ?_, hmarks⟩
    simp only [View.sleepFirst, Links.insertFront] at *
    grind
  · have hpos := hlinked.forall_sleep hl pos hmem
    refine ⟨fun a ha hprev => ?_, hmarks⟩
    simp only [View.sleepAfter, Links.insertAfter] at *
    grind

theorem Complete.requeued (h : v.Complete idle) (hlinked : v.Linked) {current : Option ProcPtr}
    (hv : v.Requeued current v') : v'.Complete idle := by
  obtain ⟨c, -, -, hv⟩ | ⟨-, rfl⟩ := hv
  · exact h.enqueued hlinked hv
  · exact h

theorem Complete.inReady (h : v.Complete idle) (hlinked : v.Linked) (hp : v.state p = .ready)
    (hidle : idle ≠ some p) : v.InReady (v.queue p) p := by
  obtain ⟨q, l, hprev, ⟨hstate, hqueue⟩, hl, hmem⟩ := hlinked.sound.start_of
    (P := fun a => v.state a = .ready ∧ v.queue a = v.queue p) ⟨hp, rfl⟩ fun a b hab hb => by
      obtain ⟨hsame, hblocked | ⟨hready, hqueue⟩⟩ := hlinked.link a b hab
      · rw [hb.1, hblocked] at hsame
        cases hsame
      · exact ⟨hready, hqueue.trans hb.2⟩
  obtain hhead | ⟨hq, hnext⟩ := h.covers q hstate hprev
  · rw [hqueue] at hhead
    exact ⟨l, hhead ▸ hl, hmem⟩
  -- the idle process is alone in its list
  · have hl' : v.links.Traverses (some q) [q] := ⟨rfl, hnext⟩
    rw [Links.traverses_unique hl hl', List.mem_singleton] at hmem
    exact absurd (hmem ▸ hq) hidle

end View

namespace Kernel

variable {k k' k₁ : Kernel} {call : SchedCall} {fuel : Nat}

/-- Every ready process but the idle process is in the ready queue of its clamped priority, once, and
in no other; the bit of that queue is set. -/
def NoneLost (k : Kernel) : Prop :=
  ∀ p, (k.processes p).state = .ready → k.idleProc ≠ some p →
    (∃ l, k.view.links.Traverses (k.readyQueues (clampPriority (k.processes p).priority)) l ∧
      l.count p = 1) ∧
    (∀ i l, i ≠ clampPriority (k.processes p).priority →
      k.view.links.Traverses (k.readyQueues i) l → p ∉ l) ∧
    k.readyBitmap.getLsbD (clampPriority (k.processes p).priority).val = true

theorem noneLost_of_complete (hlinked : k.view.Linked) (h : k.view.Complete k.idleProc) :
    k.NoneLost := by
  intro p hp hidle
  obtain ⟨l, hl, hmem⟩ := h.inReady hlinked hp hidle
  refine ⟨⟨l, hl, List.count_eq_one_of_mem (hl.nodup hlinked.sound) hmem⟩, fun i l' hi hl' hmem' => ?_,
    (h.marks _).mpr fun hnone => ?_⟩
  · exact hi (hlinked.forall_ready hl' p hmem').2.symm
  · exact hl.ne_none hmem hnone

def removed (k : Kernel) : SchedCall → Option ProcPtr
  | .block proc => proc.or k.currentProcess
  | .sleep _ => k.currentProcess
  | _ => none

/-- `schedule` drops nobody when it takes the process it chooses out of its queue: that process has a
predecessor or is the first of its queue, or the queue holds nobody but the idle process, also after
the running process has been put back. -/
def SwitchDropsNone (k : Kernel) : Prop :=
  ∀ next, k.findNextProcess = some next → k.currentProcess ≠ some next →
    k.view.DropsNone k.idleProc next ∧
      (k.readyQueues (k.queueOf next) ≠ some next → ∀ c, k.currentProcess = some c →
        (k.processes c).state = .running → k.queueOf c = k.queueOf next → k.idleProc = some c)

structure DropsNone (k : Kernel) (call : SchedCall) : Prop where
  removes : ∀ p, k.removed call = some p → k.view.DropsNone k.idleProc p
  switches : ∀ fuel k₁, k.prelude fuel call = some (k₁, true) → k₁.SwitchDropsNone

theorem dropsNone_requeued {v : View} {next : ProcPtr} (hlinked : k.view.Linked)
    (h : k.view.Complete k.idleProc) (hnext : k.findNextProcess = some next)
    (hother : k.currentProcess ≠ some next) (hdrops : k.SwitchDropsNone)
    (hv : k.view.Requeued k.currentProcess v) : v.DropsNone k.idleProc next := by
  obtain ⟨hdropsNone, hcurrent⟩ := hdrops next hnext hother
  have hlinked' := hlinked.requeued hv
  obtain ⟨c, hc, hrunning, hv⟩ | ⟨-, rfl⟩ := hv
  · by_cases hhead : k.view.ready (k.view.queue next) = some next
    · -- a first process stays first
      refine fun _ => .inl ?_
      obtain ⟨hnone, rfl⟩ | ⟨tail, -, -, rfl⟩ := hv
      · have hne : k.view.queue next ≠ k.view.queue c := by
          intro heq
          rw [heq, hnone] at hhead
          cases hhead
        simpa [View.enqueueFirst, View.setState, hne] using hhead
      · exact hhead
    · intro hprev
      have hprev' : k.view.links.prev next = none := by
        have hne : next ≠ c := by
          rintro rfl
          exact hother hc
        obtain ⟨-, rfl⟩ | ⟨tail, -, hlast, rfl⟩ := hv
        · exact hprev
        · simpa [View.enqueueAfter, Links.insertAfter, hne, hlast] using hprev
      have honly := (hdropsNone hprev').resolve_left hhead
      rw [hv.queue_eq]
      refine .inr ?_
      rintro q ⟨l, hl, hmem⟩
      obtain ⟨hready, hqueue⟩ := hlinked'.forall_ready hl q hmem
      rw [hv.queue_eq] at hqueue
      rw [hv.state_eq] at hready
      by_cases hq : q = c
      · subst hq
        exact hcurrent hhead q hc hrunning hqueue
      · rw [Function.update_of_ne hq] at hready
        by_contra hidle
        exact hidle (honly q (hqueue ▸ h.inReady hlinked hready hidle))
  · exact hdropsNone

theorem complete_of_effect {v : View} (hlinked : k.view.Linked) (h : k.view.Complete k.idleProc)
    (hspares : k.SparesSleepers call) (hdrops : k.DropsNone call)
    (heffect : Effect k.view k.currentProcess v call) : v.Complete k.idleProc := by
  cases call with
  | spawn name entry priority =>
      obtain rfl | ⟨p, hstate, hv⟩ := heffect
      · exact h
      · have hp := hlinked.unlinked_of_state (p := p) (by simp [hstate]) (by simp [hstate])
        have hnew : k.view.retype p .ready (clampPriority priority) =
            (k.view.retype p .unused (clampPriority priority)).setState p .ready := by
          simp [View.retype, View.setState]
        rw [hnew] at hv
        exact (h.retype p _).enqueued (hlinked.retype hp _ _) hv.of_setState
  | start => exact (show v = k.view from heffect) ▸ h
  | tick => exact h.woken hlinked heffect
  | yield => exact (show v = k.view from heffect) ▸ h
  | block proc =>
      obtain ⟨-, rfl⟩ | ⟨p, hproc, rfl⟩ := heffect
      · exact h
      · exact h.remove hlinked (hspares p hproc) (by decide) (hdrops.removes p hproc)
  | unblock p =>
      obtain ⟨-, rfl⟩ | ⟨-, hv⟩ := heffect
      · exact h
      · exact h.enqueued hlinked hv
  | sleep ticks =>
      obtain ⟨-, rfl⟩ | ⟨p, hcurrent, hv⟩ := heffect
      · exact h
      · have hremovable : k.view.Removable p .blocked := fun hsleep =>
          absurd hsleep (hspares p hcurrent)
        refine (h.remove hlinked hremovable (by decide) (hdrops.removes p hcurrent)).putToSleep
          (hlinked.remove hremovable) ?_ hv
        simp [View.setState]

theorem Switched.complete {next : ProcPtr} (hk : Switched k next k') (hlinked : k.view.Linked)
    (h : k.view.Complete k.idleProc) (hsched : k.Schedulable) (hdrops : k.SwitchDropsNone) :
    k'.view.Complete k'.idleProc := by
  obtain ⟨v, hv, hview⟩ := hk.requeued
  rw [hk.idle, hview]
  have hremovable : v.Removable next .running := by
    intro hsleep
    rw [hv.sleep_eq] at hsleep
    exact absurd hsleep (hsched next hk.chosen hk.other)
  exact (h.requeued hlinked hv).remove (hlinked.requeued hv) hremovable (by decide)
    (dropsNone_requeued hlinked h hk.chosen hk.other hdrops hv)

theorem complete_step (hlinked : k.view.Linked) (h : k.view.Complete k.idleProc)
    (hsafe : k.Safe call) (hdrops : k.DropsNone call) (hstep : k.step fuel call = some k') :
    k'.view.Complete k'.idleProc := by
  obtain ⟨k₁, again, hprelude, hprepared, hrest⟩ := step_cases hlinked hsafe.spares hstep
  have h₁ : k₁.view.Complete k₁.idleProc := by
    rw [hprepared.idle]
    exact complete_of_effect hlinked h hsafe.spares hdrops hprepared.effect
  obtain ⟨-, rfl⟩ | ⟨rfl, hrun⟩ := hrest
  · exact h₁
  · obtain ⟨rfl, -⟩ | ⟨next, hswitch⟩ := schedule_switches hprepared.linked hrun
    · exact h₁
    · exact hswitch.complete hprepared.linked h₁ (hsafe.schedulable fuel k₁ hprelude)
        (hdrops.switches fuel k₁ hprelude)

theorem complete_boot (hk : k.Booted) : k.view.Complete k.idleProc := by
  obtain ⟨-, ⟨-, hview⟩ | ⟨p, hidle, hview⟩⟩ := boot_cases hk
  · rw [hview]
    refine ⟨?_, ?_⟩ <;> simp [noProcess]
  · rw [hview, hidle]
    refine ⟨fun a ha _ => .inr ⟨?_, rfl⟩, by simp [noProcess, View.retype]⟩
    by_contra hne
    have hap : a ≠ p := fun heq => hne (heq ▸ rfl)
    simp [View.retype, noProcess, hap] at ha

def KeepsReady (k : Kernel) (call : SchedCall) : Prop := k.Safe call ∧ k.DropsNone call

theorem complete_run (hk : k.Booted) (hrun : Run KeepsReady k k') :
    k'.view.Linked ∧ k'.view.Complete k'.idleProc := by
  induction hrun with
  | refl => exact ⟨linked_boot hk, complete_boot hk⟩
  | tail _ hstep ih =>
      obtain ⟨call, fuel, ⟨hsafe, hdrops⟩, hstep⟩ := hstep
      exact ⟨linked_step ih.1 hsafe hstep, complete_step ih.1 ih.2 hsafe hdrops hstep⟩

/-- **No ready process is lost** in a run in which no call drops one. -/
theorem noneLost_of_run (hboot : k.Booted) (hrun : Run KeepsReady k k') : k'.NoneLost := by
  obtain ⟨hlinked, hcomplete⟩ := complete_run hboot hrun
  exact noneLost_of_complete hlinked hcomplete

def dropsNow (k : Kernel) (p : ProcPtr) : Bool :=
  (k.processes p).prev ≠ none || k.readyQueues (k.queueOf p) = some p ||
    k.readyQueues (k.queueOf p) = none

def switchNow (k : Kernel) : Bool :=
  match k.findNextProcess with
  | none => true
  | some next => k.dropsNow next && (k.readyQueues (k.queueOf next) = some next ||
      match k.currentProcess with
      | none => true
      | some c => k.queueOf c ≠ k.queueOf next)

def keepsNow (k : Kernel) (call : SchedCall) : Bool :=
  k.safeNow call && (match k.removed call with
    | none => true
    | some p => k.dropsNow p) && match k.prelude 65 call with
    | some (k₁, true) => k₁.switchNow
    | _ => true

theorem dropsNone_of_dropsNow {p : ProcPtr} (h : k.dropsNow p = true) :
    k.view.DropsNone k.idleProc p := by
  intro hprev
  have hprev' : (k.processes p).prev = none := hprev
  simp only [dropsNow, hprev', ne_eq, not_true, decide_false, Bool.false_or, Bool.or_eq_true,
    decide_eq_true_eq] at h
  obtain hhead | hnone := h
  · exact .inl hhead
  · refine .inr ?_
    rintro q ⟨l, hl, hmem⟩
    exact absurd hnone (hl.ne_none hmem)

theorem switchDropsNone_of_switchNow (h : k.switchNow = true) : k.SwitchDropsNone := by
  intro next hnext _
  simp only [switchNow, hnext, Bool.and_eq_true] at h
  refine ⟨dropsNone_of_dropsNow h.1, fun hhead c hc _ hqueue => ?_⟩
  simp [hhead, hc, hqueue] at h

theorem keepsReady_of_keepsNow (k : Kernel) (call : SchedCall) (h : k.keepsNow call = true) :
    k.KeepsReady call := by
  simp only [keepsNow, Bool.and_eq_true] at h
  obtain ⟨⟨hsafe, hremoved⟩, hswitch⟩ := h
  refine ⟨safe_of_safeNow k call hsafe, fun p hp => ?_, fun fuel k₁ hprelude => ?_⟩
  · rw [hp] at hremoved
    exact dropsNone_of_dropsNow hremoved
  · cases hfuel : k.prelude 65 call with
    | none => simp [safeNow, hfuel] at hsafe
    | some r =>
        obtain rfl := prelude_unique hprelude hfuel
        rw [hfuel] at hswitch
        exact switchDropsNone_of_switchNow hswitch

theorem noneLost_twoPriorities : ∃ k', sampleBoot.replay keepsNow
    [.spawn [65] 0 16, .spawn [66] 0 20, .start, .sleep 3, .tick, .tick, .tick, .yield] = some k' ∧
      (k'.processes 2).state = .ready ∧ k'.NoneLost := by
  have heval : ((sampleBoot.replay keepsNow
      [.spawn [65] 0 16, .spawn [66] 0 20, .start, .sleep 3, .tick, .tick, .tick, .yield]).map
        fun k => (k.processes 2).state) = some .ready := by decide +kernel
  obtain ⟨k', hreplay, hstate⟩ := Option.map_eq_some_iff.mp heval
  exact ⟨k', hreplay, hstate,
    noneLost_of_run booted_sampleBoot (run_of_replay keepsReady_of_keepsNow hreplay)⟩

/-- The calls of a process that blocks and sleeps itself, and of whoever unblocks what is blocked
without sleeping. -/
def OnOneself (k : Kernel) : SchedCall → Prop
  | .block proc => proc.or k.currentProcess = k.currentProcess
  | .unblock p => ¬ k.view.InSleep p
  | _ => True

/-- Of two processes of the same priority the running one blocks; the other is not in its queue any
more. -/
def blockedNeighbour : List SchedCall :=
  [.spawn [65] 0 16, .spawn [66] 0 16, .start, .block none]

theorem not_noneLost_blockedNeighbour :
    ¬ ∀ k k', k.Booted → Run OnOneself k k' → k'.NoneLost := by
  intro h
  have heval : ((sampleBoot.replay (fun _ call => call ∈ blockedNeighbour) blockedNeighbour).map
      fun k => (k.readyQueues 16, (k.processes 2).state, clampPriority (k.processes 2).priority,
        k.idleProc)) = some (none, .ready, 16, some 0) := by decide +kernel
  obtain ⟨k', hreplay, hk'⟩ := Option.map_eq_some_iff.mp heval
  simp only [Prod.mk.injEq] at hk'
  obtain ⟨hqueue, hstate, hpriority, hidle⟩ := hk'
  have hrun : Run OnOneself sampleBoot k' := by
    refine run_of_replay (fun k call hcall => ?_) hreplay
    have hcases : call = .spawn [65] 0 16 ∨ call = .spawn [66] 0 16 ∨ call = .start ∨
        call = .block none := by
      simpa [blockedNeighbour] using hcall
    rcases hcases with rfl | rfl | rfl | rfl
    · exact trivial
    · exact trivial
    · exact trivial
    · exact rfl
  obtain ⟨⟨l, hl, hcount⟩, -⟩ := h sampleBoot k' booted_sampleBoot hrun 2 hstate (by simp [hidle])
  have hmem : (2 : ProcPtr) ∈ l := List.count_pos_iff.mp (by omega)
  rw [hpriority] at hl
  exact hl.ne_none hmem hqueue

end Kernel

end SimpleOs
