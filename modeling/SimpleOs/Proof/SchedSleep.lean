import SimpleOs.Proof.SchedChoice
import SimpleOs.Proof.SchedFrame

/-!
# The sleep queue

A process that goes to sleep is put behind all sleepers that wake no later than it, and a tick takes
sleepers off the front while their time has come. So the queue is sorted by wake time, and sleepers with
one wake time are in the order they went to sleep. The other calls work on processes that do not sleep.
-/

namespace SimpleOs

namespace View

/-- The sleep queue is `l`, and the processor can always be given to somebody who does not sleep. -/
structure Abed (v : View) (idle : Option ProcPtr) (l : List ProcPtr) : Prop where
  linked : v.Linked
  backed : v.Backed
  idle : ∃ d, idle = some d ∧ d ∉ l
  sleep : v.links.Traverses v.sleep l

variable {v v' : View} {idle : Option ProcPtr} {l l₁ l₂ : List ProcPtr} {p q : ProcPtr}
  {s : ProcState}

theorem Abed.notMem (h : v.Abed idle l) (hp : v.state p ≠ .blocked) : p ∉ l :=
  fun hmem => hp (h.linked.forall_sleep h.sleep p hmem)

theorem Abed.sleep_ne (h : v.Abed idle l) (hp : p ∉ l) : v.sleep ≠ some p := by
  intro hsleep
  have hl := h.sleep
  rw [hsleep] at hl
  exact hp hl.head_mem

theorem Unlinked.notMem_sleep (hp : v.Unlinked p) (hs : v.links.Sound)
    (hl : v.links.Traverses v.sleep l) : p ∉ l := fun hmem => hp.not_inSleep hs ⟨l, hl, hmem⟩

theorem Abed.retype (h : v.Abed idle l) (hp : v.Unlinked p) (s : ProcState) (i : Fin 32) :
    (v.retype p s i).Abed idle l :=
  ⟨h.linked.retype hp s i, h.backed, h.idle, h.sleep⟩

theorem Abed.enqueued (h : v.Abed idle l) (hp : v.Unlinked p) (hv : v.Enqueued p v') :
    v'.Abed idle l := by
  refine ⟨h.linked.enqueued hp hv, h.backed.enqueued hv, h.idle, ?_⟩
  have hnotMem := hp.notMem_sleep h.linked.sound h.sleep
  obtain ⟨-, rfl⟩ | ⟨tail, ⟨l', hl', hmem⟩, -, rfl⟩ := hv
  · exact h.sleep
  · have htail : tail ∉ l := by
      refine h.notMem ?_
      rw [(h.linked.forall_ready hl' tail hmem).1]
      simp
    refine h.sleep.congr fun a ha => ?_
    have hat : a ≠ tail := fun heq => htail (heq ▸ ha)
    have hap : a ≠ p := fun heq => hnotMem (heq ▸ ha)
    simp [View.enqueueAfter, Links.insertAfter, hat, hap]

theorem Abed.requeued (h : v.Abed idle l) {current : Option ProcPtr}
    (hv : v.Requeued current v') : v'.Abed idle l := by
  obtain ⟨c, -, hstate, hv⟩ | ⟨-, rfl⟩ := hv
  · exact h.enqueued (h.linked.unlinked_of_state (by simp [hstate]) (by simp [hstate])) hv
  · exact h

theorem Abed.remove (h : v.Abed idle l) (hp : p ∉ l) (s : ProcState) :
    ((v.remove p).setState p s).Abed idle l :=
  ⟨h.linked.remove fun hsleep => absurd hsleep (h.sleep_ne hp), h.backed.remove p s, h.idle,
    h.sleep.unlink_other hp⟩

theorem Abed.pop (h : v.Abed idle (p :: l)) : (v.pop p).Abed idle l := by
  have hhead : v.sleep = some p := h.sleep.1
  obtain ⟨d, hd, hnotMem⟩ := h.idle
  exact ⟨h.linked.pop hhead, h.backed, ⟨d, hd, List.not_mem_of_not_mem_cons hnotMem⟩,
    h.sleep.unlink_head h.linked.sound⟩

theorem Abed.sleepFirst (h : v.Abed idle l) (hp : v.Unlinked p) (hstate : v.state p = .blocked)
    (hidle : idle ≠ some p) : (v.sleepFirst p).Abed idle (p :: l) := by
  obtain ⟨d, rfl, hnotMem⟩ := h.idle
  refine ⟨h.linked.sleepFirst hp hstate, h.backed, ⟨d, rfl, ?_⟩,
    h.sleep.insertFront (hp.notMem_sleep h.linked.sound h.sleep)⟩
  exact List.not_mem_cons_of_ne_of_not_mem (fun heq => hidle (congrArg some heq)) hnotMem

theorem Abed.sleepAfter (h : v.Abed idle (l₁ ++ q :: l₂)) (hp : v.Unlinked p)
    (hstate : v.state p = .blocked) (hidle : idle ≠ some p) :
    (v.sleepAfter q p).Abed idle (l₁ ++ q :: p :: l₂) := by
  obtain ⟨d, rfl, hnotMem⟩ := h.idle
  have hmem : q ∈ l₁ ++ q :: l₂ := by simp
  have hput : v.PutToSleep p (v.sleepAfter q p) := .inr ⟨q, ⟨_, h.sleep, hmem⟩, rfl⟩
  refine ⟨h.linked.putToSleep hp hstate hput, h.backed, ⟨d, rfl, ?_⟩,
    h.sleep.insertAfter (h.sleep.nodup h.linked.sound) (hp.notMem_sleep h.linked.sound h.sleep)⟩
  have hne : d ≠ p := fun heq => hidle (congrArg some heq)
  simpa [hne] using hnotMem

end View

namespace Kernel

variable {k k' k₁ : Kernel} {p q : ProcPtr} {l l₁ l₂ asleep : List ProcPtr} {call : SchedCall}
  {fuel : Nat}

def Abed (k : Kernel) (l : List ProcPtr) : Prop := k.view.Abed k.idleProc l

/-- The current process runs. The idle process stays current when it blocks itself and nobody else is
ready. -/
def Occupied (k : Kernel) : Prop :=
  ∀ p, k.currentProcess = some p → (k.processes p).state = .running ∨ k.idleProc = some p

theorem Occupied.keep (h : k.Occupied) (hcurrent : k₁.currentProcess = k.currentProcess)
    (hidle : k₁.idleProc = k.idleProc)
    (hstate : ∀ p, k.currentProcess = some p → (k.processes p).state = .running →
      (k₁.processes p).state = .running) : k₁.Occupied := by
  intro p hp
  rw [hcurrent] at hp
  obtain hrunning | hidle' := h p hp
  · exact .inl (hstate p hp hrunning)
  · exact .inr (hidle.trans hidle')

theorem Occupied.of_view (h : k.Occupied) (hcurrent : k₁.currentProcess = k.currentProcess)
    (hidle : k₁.idleProc = k.idleProc) (hview : k₁.view = k.view) : k₁.Occupied :=
  h.keep hcurrent hidle fun p _ hrunning => (congrFun (congrArg View.state hview) p).trans hrunning

/-- The current process runs, has been blocked, or is the idle process. -/
def Leaving (k : Kernel) : Prop :=
  ∀ p, k.currentProcess = some p → (k.processes p).state = .running ∨
    (k.processes p).state = .blocked ∨ k.idleProc = some p

theorem Abed.notMem_idle (h : k.Abed l) (hp : k.idleProc = some p) : p ∉ l := by
  obtain ⟨d, hd, hnotMem⟩ := h.idle
  obtain rfl : d = p := Option.some_inj.mp (hd.symm.trans hp)
  exact hnotMem

/-- `schedule` finds somebody who does not sleep. -/
theorem Abed.findNextProcess (h : k.Abed l) : ∃ next, k.findNextProcess = some next ∧ next ∉ l ∧
    ((k.processes next).state = .ready ∨ k.idleProc = some next) := by
  by_cases hzero : k.readyBitmap = 0
  · obtain ⟨d, hd, hnotMem⟩ := h.idle
    refine ⟨d, ?_, hnotMem, .inr hd⟩
    rw [Kernel.findNextProcess, if_pos hzero, hd]
  · obtain ⟨next, hnext, -, hready, -⟩ := findNextProcess_marked h.linked h.backed hzero
    refine ⟨next, hnext, View.Abed.notMem h ?_, .inl hready⟩
    rw [show k.view.state next = .ready from hready]
    simp

theorem Abed.schedule (h : k.Abed l) (hleaving : k.Leaving) :
    ∃ k', k.schedule = some k' ∧ k'.Abed l ∧ k'.Occupied ∧ k'.idleProc = k.idleProc := by
  obtain ⟨next, hnext, hnotMem, hkind⟩ := h.findNextProcess
  obtain ⟨k', hrun, hk'⟩ := exists_schedule h.linked
  refine ⟨k', hrun, ?_⟩
  obtain ⟨rfl, hnone | hsame⟩ | ⟨p, hswitch⟩ := hk'
  · cases hnone.symm.trans hnext
  · refine ⟨h, fun p hp => ?_, rfl⟩
    obtain rfl : next = p := Option.some_inj.mp (hnext.symm.trans (hsame.trans hp))
    obtain hready | hidle := hkind
    · obtain hrunning | hblocked | hidle := hleaving next hp
      · exact .inl hrunning
      · cases hready.symm.trans hblocked
      · exact .inr hidle
    · exact .inr hidle
  · obtain rfl : next = p := Option.some_inj.mp (hnext.symm.trans hswitch.chosen)
    obtain ⟨v, hv, hview⟩ := hswitch.requeued
    refine ⟨?_, fun q hq => .inl ?_, hswitch.idle⟩
    · rw [Abed, hview, hswitch.idle]
      exact (View.Abed.requeued h hv).remove hnotMem .running
    · obtain rfl := Option.some_inj.mp (hswitch.current.symm.trans hq)
      rw [show (k'.processes next).state = k'.view.state next from rfl, hview]
      simp [View.setState]

/-- The processes that the wake loop of `scheduler_tick` hands to `scheduler_add`, in order. -/
def wokenSleepers (k : Kernel) : Nat → List ProcPtr
  | 0 => []
  | fuel + 1 =>
      match k.sleepQueue with
      | none => []
      | some p =>
          if (k.processes p).wakeTime ≤ k.currentTick then
            p :: (match (k.popSleeper p).schedulerAdd p with
              | none => []
              | some k => wokenSleepers k fuel)
          else []

def due (k : Kernel) (p : ProcPtr) : Bool := (k.processes p).wakeTime ≤ k.currentTick

def SortedByWake (k : Kernel) (l : List ProcPtr) : Prop :=
  l.Pairwise fun p q => (k.processes p).wakeTime ≤ (k.processes q).wakeTime

theorem offTurns_wakeTime : OffTurns Process.wakeTime :=
  ⟨⟨fun _ _ => rfl, fun _ _ => rfl, fun _ _ => rfl⟩, fun _ _ => rfl, fun _ _ => rfl⟩

theorem exists_fuel (hwake : k.wakeSleepers fuel = some k') : ∃ n, fuel = n + 1 := by
  cases fuel with
  | zero => cases hwake
  | succ n => exact ⟨n, rfl⟩

/-- A turn of the wake loop takes the first sleeper and makes it ready. -/
theorem Abed.wakeFirst (h : k.Abed (p :: l)) : ∃ k₁, (k.popSleeper p).schedulerAdd p = some k₁ ∧
    k₁.Abed l ∧ SameClock k k₁ ∧ Keeps Process.wakeTime k k₁ ∧
      k₁.view.state = Function.update k.view.state p .ready := by
  have hhead : k.sleepQueue = some p := h.sleep.1
  have hpop := view_popSleeper h.linked hhead
  have hused : ((k.popSleeper p).processes p).state ≠ .unused := by
    rw [show ((k.popSleeper p).processes p).state = (k.popSleeper p).view.state p from rfl, hpop,
      show (k.view.pop p).state p = .blocked from (h.linked.sleepHead p hhead).2]
    simp
  have hlinked : (k.popSleeper p).view.Linked := hpop ▸ h.linked.pop hhead
  have hunlinked : (k.popSleeper p).view.Unlinked p := hpop ▸ h.linked.unlinked_pop hhead
  obtain ⟨k₁, hadd, hv, hsame⟩ := exists_schedulerAdd hlinked hunlinked hused
  have hclock := (sameClock_popSleeper k p).trans hsame
  rw [hpop] at hv hunlinked
  refine ⟨k₁, hadd, ?_, hclock, ?_, hv.state_eq⟩
  · rw [Abed, hclock.idle]
    exact (View.Abed.pop h).enqueued hunlinked hv
  · exact (keeps_popSleeper offTurns_wakeTime.offLinks k p).trans
      (keeps_schedulerAdd offTurns_wakeTime hadd)

/-- If the first sleeper is not due, nobody is. -/
theorem SortedByWake.not_due (hsorted : k.SortedByWake (p :: l))
    (hdue : ¬ (k.processes p).wakeTime ≤ k.currentTick) : ∀ q ∈ p :: l, k.due q = false := by
  obtain ⟨hfirst, -⟩ := List.pairwise_cons.mp hsorted
  intro q hq
  refine decide_eq_false fun hle => hdue ?_
  rw [List.mem_cons] at hq
  obtain rfl | hq := hq
  · exact hle
  · exact BitVec.le_trans (hfirst q hq) hle

theorem Abed.wakeSleepers (h : k.Abed l) (hsorted : k.SortedByWake l)
    (hwake : k.wakeSleepers fuel = some k') :
    k.wokenSleepers fuel = l.filter k.due ∧ k'.Abed (l.filter fun p => !k.due p) ∧
      SameClock k k' ∧ (∀ p, (k.processes p).state ≠ .blocked →
        (k'.processes p).state = (k.processes p).state) ∧
      ∀ p ∈ l, k.due p = true → (k'.processes p).state = .ready := by
  induction l generalizing k fuel with
  | nil =>
      obtain ⟨fuel, rfl⟩ := exists_fuel hwake
      have hnone : k.sleepQueue = none := h.sleep
      rw [Kernel.wakeSleepers, hnone] at hwake
      obtain rfl := Option.some_inj.mp hwake
      refine ⟨?_, h, SameClock.refl k, fun p _ => rfl, by simp⟩
      rw [wokenSleepers, hnone]
      rfl
  | cons p l ih =>
      obtain ⟨fuel, rfl⟩ := exists_fuel hwake
      have hhead : k.sleepQueue = some p := h.sleep.1
      by_cases hdue : (k.processes p).wakeTime ≤ k.currentTick
      · obtain ⟨k₁, hadd, h₁, hclock, hkeeps, hstate₁⟩ := h.wakeFirst
        rw [wakeSleepers_wake hhead hdue, hadd, Option.bind_some] at hwake
        have hdueEq : k₁.due = k.due := by
          funext q
          rw [due, due, hkeeps q, hclock.tick]
        have hsorted₁ : k₁.SortedByWake l := by
          refine (List.pairwise_cons.mp hsorted).2.imp fun {a b} hab => ?_
          rw [hkeeps a, hkeeps b]
          exact hab
        obtain ⟨hwoken, hk', hclock', hstates, hready⟩ := ih h₁ hsorted₁ hwake
        rw [hdueEq] at hwoken hk' hready
        have hdueP : k.due p = true := decide_eq_true hdue
        refine ⟨?_, ?_, hclock.trans hclock', fun q hq => ?_, fun q hq hdueQ => ?_⟩
        · rw [wokenSleepers, hhead]
          simp only [if_pos hdue, hadd]
          rw [hwoken, List.filter_cons_of_pos hdueP]
        · rwa [List.filter_cons_of_neg (by simp [hdueP])]
        · have hne : q ≠ p := by
            rintro rfl
            exact hq (h.linked.sleepHead q hhead).2
          have hsame : (k₁.processes q).state = (k.processes q).state :=
            (congrFun hstate₁ q).trans (Function.update_of_ne hne _ _)
          rw [← hsame] at hq ⊢
          exact hstates q hq
        · rw [List.mem_cons] at hq
          obtain rfl | hq := hq
          · have hadded : (k₁.processes q).state = .ready :=
              (congrFun hstate₁ q).trans (Function.update_self _ _ _)
            rw [← hadded]
            exact hstates q (by rw [hadded]; simp)
          · exact hready q hq hdueQ
      · have hlate := hsorted.not_due hdue
        rw [Kernel.wakeSleepers, hhead] at hwake
        simp only [if_neg hdue] at hwake
        obtain rfl := Option.some_inj.mp hwake
        refine ⟨?_, ?_, SameClock.refl k, fun q _ => rfl, fun q hq hdueQ => ?_⟩
        · rw [wokenSleepers, hhead]
          simp only [if_neg hdue]
          symm
          rw [List.filter_eq_nil_iff]
          intro q hq
          simp [hlate q hq]
        · rwa [List.filter_eq_self.mpr fun q hq => by simp [hlate q hq]]
        · cases (hlate q hq).symm.trans hdueQ

/-- The walk stops behind the last sleeper that wakes no later than `wakeTime`. -/
theorem sleepPosition_sorted {head : ProcPtr} {wakeTime : X86.Word}
    (hl : k.view.links.Traverses (some head) l) (hsorted : k.SortedByWake l)
    (hfuel : l.length ≤ fuel) (hhead : (k.processes head).wakeTime ≤ wakeTime) {pos : ProcPtr}
    (hrun : k.sleepPosition wakeTime fuel head = some pos) :
    ∃ l₁ l₂, l = l₁ ++ pos :: l₂ ∧ (∀ a ∈ l₁ ++ [pos], (k.processes a).wakeTime ≤ wakeTime) ∧
      ∀ b ∈ l₂, wakeTime < (k.processes b).wakeTime := by
  induction l generalizing head fuel with
  | nil => cases hl
  | cons a l ih =>
      obtain ⟨fuel, rfl⟩ : ∃ n, fuel = n + 1 := ⟨fuel - 1, by simp at hfuel; omega⟩
      obtain rfl : head = a := Option.some_inj.mp hl.1
      have htail : k.view.links.Traverses (k.processes head).next l := hl.2
      obtain ⟨-, hrest⟩ := List.pairwise_cons.mp hsorted
      rw [sleepPosition] at hrun
      cases hnext : (k.processes head).next with
      | none =>
          rw [hnext] at htail hrun
          obtain rfl := Option.some_inj.mp hrun
          obtain rfl : l = [] := Links.traverses_unique htail rfl
          exact ⟨[], [], rfl, by simpa using hhead, by simp⟩
      | some b =>
          rw [hnext] at htail hrun
          simp only at hrun
          split at hrun
          · rename_i hearly
            have hle : l.length ≤ fuel := by simpa using hfuel
            obtain ⟨l₁, l₂, rfl, hbefore, hafter⟩ := ih htail hrest hle hearly hrun
            refine ⟨head :: l₁, l₂, rfl, ?_, hafter⟩
            intro c hc
            rw [List.cons_append, List.mem_cons] at hc
            obtain rfl | hc := hc
            · exact hhead
            · exact hbefore c hc
          · rename_i hlate
            obtain rfl := Option.some_inj.mp hrun
            refine ⟨[], l, rfl, by simpa using hhead, fun c hc => ?_⟩
            have hfirst : wakeTime < (k.processes b).wakeTime := BitVec.not_le.mp hlate
            cases l with
            | nil => simp at hc
            | cons d l =>
                obtain rfl : b = d := Option.some_inj.mp htail.1
                rw [List.mem_cons] at hc
                obtain rfl | hc := hc
                · exact hfirst
                · exact Nat.lt_of_lt_of_le hfirst ((List.pairwise_cons.mp hrest).1 c hc)

/-- A process is put between those that wake no later and those that wake later. -/
theorem Abed.insertSleeper (h : k.Abed l) (hsorted : k.SortedByWake l)
    (hunlinked : k.view.Unlinked p) (hblocked : k.view.state p = .blocked)
    (hidle : k.idleProc ≠ some p) :
    ∃ k' l₁ l₂, k.insertSleeper p = some k' ∧ SameClock k k' ∧ l = l₁ ++ l₂ ∧
      k'.Abed (l₁ ++ p :: l₂) ∧ k'.view.state = k.view.state ∧
      (∀ a ∈ l₁, (k.processes a).wakeTime ≤ (k.processes p).wakeTime) ∧
      ∀ b ∈ l₂, (k.processes p).wakeTime < (k.processes b).wakeTime := by
  obtain ⟨k', hinsert, hclock, hplace⟩ := exists_insertSleeper h.linked hunlinked
  obtain ⟨hfirst, hv⟩ | ⟨head, pos, hhead, hlate, hpos, -, hv⟩ := hplace
  · refine ⟨k', [], l, hinsert, hclock, rfl, ?_, ?_, by simp, fun b hb => ?_⟩
    · rw [Abed, hv, hclock.idle]
      exact View.Abed.sleepFirst h hunlinked hblocked hidle
    · rw [hv]
      rfl
    · cases l with
      | nil => simp at hb
      | cons c l =>
          have hc := hfirst c h.sleep.1
          rw [List.mem_cons] at hb
          obtain rfl | hb := hb
          · exact hc
          · exact Nat.lt_of_lt_of_le hc ((List.pairwise_cons.mp hsorted).1 b hb)
  · have hl : k.view.links.Traverses (some head) l := by
      rw [← hhead]
      exact h.sleep
    have hlength : l.length ≤ 64 := by
      simpa using (hl.nodup h.linked.sound).length_le_card
    obtain ⟨l₁, l₂, rfl, hbefore, hafter⟩ :=
      sleepPosition_sorted hl hsorted hlength (BitVec.not_lt.mp hlate) hpos
    refine ⟨k', l₁ ++ [pos], l₂, hinsert, hclock, by simp, ?_, ?_, hbefore, hafter⟩
    · rw [Abed, hv, hclock.idle, List.append_assoc]
      exact View.Abed.sleepAfter h hunlinked hblocked hidle
    · rw [hv]
      rfl

/-- The current process, which runs and is not the idle process, is put between those that wake no later
and those that wake later. -/
theorem Abed.fallAsleep (h : k.Abed l) (hsorted : k.SortedByWake l)
    (hp : (k.processes p).state = .running) (hidle : k.idleProc ≠ some p) (ticks : X86.Word) :
    ∃ k' l₁ l₂, k.fallAsleep p ticks = some k' ∧ SameClock k k' ∧ l = l₁ ++ l₂ ∧
      k'.Abed (l₁ ++ p :: l₂) ∧ (k'.processes p).state = .blocked ∧
      (∀ a ∈ l₁, (k'.processes a).wakeTime ≤ (k'.processes p).wakeTime) ∧
      (∀ b ∈ l₂, (k'.processes p).wakeTime < (k'.processes b).wakeTime) ∧
      ∀ a ∈ l, (k'.processes a).wakeTime = (k.processes a).wakeTime := by
  have hrunning : k.view.state p ≠ .blocked := by
    rw [show k.view.state p = .running from hp]
    simp
  have hnotMem : p ∉ l := View.Abed.notMem h hrunning
  rw [Kernel.fallAsleep]
  generalize hk₁ : (k.modify p fun proc => { proc with wakeTime := k.currentTick + ticks }) = k₁
  have hview : k₁.view = k.view := hk₁ ▸ view_setWakeTime k p _
  have hblock : (k₁.blockProcess p).view = (k.view.remove p).setState p .blocked := by
    rw [view_blockProcess (hview ▸ h.linked.sound), hview]
  have hclock₁ : SameClock k (k₁.blockProcess p) := by
    refine SameClock.trans ?_ (sameClock_blockProcess k₁ p)
    exact hk₁ ▸ sameClock_modify k p _
  have habed : (k₁.blockProcess p).Abed l := by
    rw [Abed, hblock, hclock₁.idle]
    exact View.Abed.remove h hnotMem .blocked
  have hunlinked : (k₁.blockProcess p).view.Unlinked p := by
    rw [hblock]
    exact (h.linked.unlinked_remove (View.Abed.sleep_ne h hnotMem)).setState p .blocked
  have hblocked : (k₁.blockProcess p).view.state p = .blocked := by
    rw [hblock]
    simp [View.setState]
  have hwake₂ : ∀ a ∈ l,
      ((k₁.blockProcess p).processes a).wakeTime = (k.processes a).wakeTime := by
    intro a ha
    have hne : a ≠ p := fun heq => hnotMem (heq ▸ ha)
    rw [keeps_blockProcess offTurns_wakeTime.toOffLists k₁ p a, ← hk₁]
    simp [modify, hne]
  have hsorted₂ : (k₁.blockProcess p).SortedByWake l := by
    refine List.Pairwise.imp_of_mem ?_ hsorted
    intro a b ha hb hab
    rw [hwake₂ a ha, hwake₂ b hb]
    exact hab
  obtain ⟨k', l₁, l₂, hinsert, hclock, hl, hqueue, hstate, hearly, hlate⟩ :=
    habed.insertSleeper hsorted₂ hunlinked hblocked (hclock₁.idle.symm ▸ hidle)
  have hwake := keeps_insertSleeper offTurns_wakeTime.offLinks hinsert
  refine ⟨k', l₁, l₂, hinsert, hclock₁.trans hclock, hl, hqueue, (congrFun hstate p).trans hblocked,
    fun a ha => ?_, fun b hb => ?_, fun a ha => (hwake a).trans (hwake₂ a ha)⟩
  · rw [hwake a, hwake p]
    exact hearly a ha
  · rw [hwake b, hwake p]
    exact hlate b hb

/-- `p` wakes earlier than `q`, or at the same time and went to sleep earlier. -/
def Before (k : Kernel) (asleep : List ProcPtr) (p q : ProcPtr) : Prop :=
  (k.processes p).wakeTime < (k.processes q).wakeTime ∨
    (k.processes p).wakeTime = (k.processes q).wakeTime ∧ [p, q].Sublist asleep

/-- `asleep` are the processes that have called `scheduler_sleep` and have not been woken since, in the
order they called it. Here is who they are after one more call. -/
def asleepAfter (k : Kernel) (fuel : Nat) (asleep : List ProcPtr) : SchedCall → List ProcPtr
  | .sleep _ => asleep ++ k.currentProcess.toList
  | .tick => asleep.filter fun p =>
      p ∉ wokenSleepers { k with currentTick := k.currentTick + 1 } fuel
  | _ => asleep

theorem asleepAfter_sleep (k : Kernel) (fuel : Nat) (asleep : List ProcPtr) (ticks : X86.Word) :
    k.asleepAfter fuel asleep (.sleep ticks) = asleep ++ k.currentProcess.toList := rfl

/-- The calls that can be made: a process blocks itself and nobody else, and who unblocks a process knows
that it does not sleep. -/
def Issues (k : Kernel) (asleep : List ProcPtr) : SchedCall → Prop
  | .block proc => proc = none ∨ proc = k.currentProcess
  | .unblock p => p ∉ asleep
  | _ => True

instance (k : Kernel) (asleep : List ProcPtr) (call : SchedCall) :
    Decidable (k.Issues asleep call) :=
  match call with
  | .block proc => inferInstanceAs (Decidable (proc = none ∨ proc = k.currentProcess))
  | .unblock p => inferInstanceAs (Decidable (p ∉ asleep))
  | .spawn .. | .start | .tick | .yield | .sleep _ => isTrue trivial

/-- The idle process does not sleep: `idle_entry` only halts. -/
def IdleAwake (k : Kernel) : SchedCall → Prop
  | .sleep _ => k.currentProcess ≠ k.idleProc
  | _ => True

instance (k : Kernel) (call : SchedCall) : Decidable (k.IdleAwake call) :=
  match call with
  | .sleep _ => inferInstanceAs (Decidable (k.currentProcess ≠ k.idleProc))
  | .spawn .. | .start | .tick | .yield | .block _ | .unblock _ => isTrue trivial

def IssuesAwake (k : Kernel) (asleep : List ProcPtr) (call : SchedCall) : Prop :=
  k.Issues asleep call ∧ k.IdleAwake call

instance (k : Kernel) (asleep : List ProcPtr) (call : SchedCall) :
    Decidable (k.IssuesAwake asleep call) :=
  inferInstanceAs (Decidable (_ ∧ _))

/-- The calls that let sleepers sleep: none of them is blocked or unblocked, and the idle process does
not sleep. -/
def Considerate (k : Kernel) (asleep : List ProcPtr) : SchedCall → Prop
  | .block proc => ∀ p, proc.or k.currentProcess = some p → p ∉ asleep
  | .unblock p => p ∉ asleep
  | .sleep _ => k.currentProcess ≠ k.idleProc
  | _ => True

def SleepQueue (k : Kernel) (asleep l : List ProcPtr) : Prop :=
  k.Abed l ∧ l.Perm asleep ∧ l.Pairwise (k.Before asleep)

theorem SleepQueue.sortedByWake (h : k.SleepQueue asleep l) : k.SortedByWake l := by
  refine h.2.2.imp fun {p q} hpq => ?_
  obtain hlt | ⟨heq, -⟩ := hpq
  · exact BitVec.le_of_lt hlt
  · exact BitVec.le_of_eq heq

theorem SleepQueue.congr (h : k.SleepQueue asleep l) (hk' : k'.Abed l)
    (hwake : ∀ a ∈ l, (k'.processes a).wakeTime = (k.processes a).wakeTime) :
    k'.SleepQueue asleep l := by
  refine ⟨hk', h.2.1, List.Pairwise.imp_of_mem ?_ h.2.2⟩
  intro a b ha hb hab
  rwa [Before, hwake a ha, hwake b hb]

theorem SleepQueue.used (h : k.SleepQueue asleep l) (hp : p ∈ l) :
    (k.processes p).state ≠ .unused := by
  rw [show (k.processes p).state = .blocked from h.1.linked.forall_sleep h.1.sleep p hp]
  simp

theorem SleepQueue.insert (h : k.SleepQueue asleep (l₁ ++ l₂)) (hk' : k'.Abed (l₁ ++ p :: l₂))
    (hearly : ∀ a ∈ l₁, (k'.processes a).wakeTime ≤ (k'.processes p).wakeTime)
    (hlate : ∀ b ∈ l₂, (k'.processes p).wakeTime < (k'.processes b).wakeTime)
    (hwake : ∀ a ∈ l₁ ++ l₂, (k'.processes a).wakeTime = (k.processes a).wakeTime) :
    k'.SleepQueue (asleep ++ [p]) (l₁ ++ p :: l₂) := by
  obtain ⟨-, hperm, hsorted⟩ := h
  have hkept : (l₁ ++ l₂).Pairwise (k'.Before (asleep ++ [p])) := by
    refine List.Pairwise.imp_of_mem ?_ hsorted
    intro a b ha hb hab
    rw [Before, hwake a ha, hwake b hb]
    exact hab.imp_right fun hties => ⟨hties.1, hties.2.trans (List.sublist_append_left _ _)⟩
  refine ⟨hk', ?_, ?_⟩
  · calc
      List.Perm (l₁ ++ p :: l₂) (p :: (l₁ ++ l₂)) := List.perm_middle
      List.Perm _ (p :: asleep) := hperm.cons p
      List.Perm _ (asleep ++ [p]) := (List.perm_append_singleton p asleep).symm
  · rw [List.pairwise_append] at hkept ⊢
    obtain ⟨hleft, hright, hacross⟩ := hkept
    refine ⟨hleft, List.pairwise_cons.mpr ⟨fun b hb => .inl (hlate b hb), hright⟩, ?_⟩
    intro a ha b hb
    rw [List.mem_cons] at hb
    obtain rfl | hb := hb
    · have hmem : a ∈ asleep := hperm.subset (List.mem_append_left _ ha)
      obtain hlt | heq := Nat.lt_or_eq_of_le (hearly a ha)
      · exact .inl hlt
      · refine .inr ⟨BitVec.eq_of_toNat_eq heq, ?_⟩
        exact (List.singleton_sublist.mpr hmem).append (List.Sublist.refl [b])
    · exact hacross a ha b hb

theorem SleepQueue.filter (h : k.SleepQueue asleep l) (keep : ProcPtr → Bool)
    (hk' : k'.Abed (l.filter keep))
    (hwake : ∀ a ∈ l, (k'.processes a).wakeTime = (k.processes a).wakeTime) :
    k'.SleepQueue (asleep.filter keep) (l.filter keep) := by
  obtain ⟨-, hperm, hsorted⟩ := h
  refine ⟨hk', hperm.filter keep, ?_⟩
  refine List.Pairwise.imp_of_mem ?_ (hsorted.filter keep)
  intro a b ha hb hab
  rw [List.mem_filter] at ha hb
  rw [Before, hwake a ha.1, hwake b hb.1]
  refine hab.imp_right fun hties => ⟨hties.1, ?_⟩
  have hboth : [a, b].filter keep = [a, b] := by simp [ha.2, hb.2]
  rw [← hboth]
  exact hties.2.filter keep

theorem SleepQueue.notMem_current (h : k.SleepQueue asleep l) (hoccupied : k.Occupied)
    (hp : k.currentProcess = some p) : p ∉ l := by
  obtain hrunning | hidle := hoccupied p hp
  · refine View.Abed.notMem h.1 ?_
    rw [show k.view.state p = .running from hrunning]
    simp
  · exact h.1.notMem_idle hidle

theorem SleepQueue.considerate (h : k.SleepQueue asleep l) (hoccupied : k.Occupied)
    (hcall : k.IssuesAwake asleep call) : k.Considerate asleep call := by
  obtain ⟨hissues, hawake⟩ := hcall
  cases call with
  | block proc =>
      intro p hp hmem
      have hself : proc.or k.currentProcess = k.currentProcess := by
        obtain rfl | rfl := hissues
        · exact Option.none_or
        · exact Option.or_self
      exact h.notMem_current hoccupied (hself.symm.trans hp) (h.2.1.symm.subset hmem)
  | unblock p => exact hissues
  | sleep ticks => exact hawake
  | _ => trivial

theorem sparesSleepers_of_considerate (h : k.SleepQueue asleep l) (hoccupied : k.Occupied)
    (hcall : k.Considerate asleep call) : k.SparesSleepers call := by
  cases call with
  | block proc =>
      intro p hp hsleep
      have hnotMem : p ∉ l := fun hmem => hcall p hp (h.2.1.subset hmem)
      exact absurd hsleep (View.Abed.sleep_ne h.1 hnotMem)
  | unblock p =>
      rintro - ⟨l', hl', hmem⟩
      obtain rfl := Links.traverses_unique hl' h.1.sleep
      exact hcall (h.2.1.subset hmem)
  | sleep ticks =>
      intro p hp
      exact View.Abed.sleep_ne h.1 (h.notMem_current hoccupied hp)
  | _ => trivial

theorem Occupied.leaving (h : k.Occupied) : k.Leaving := fun p hp => (h p hp).imp_right .inr

/-- Somebody who neither runs nor sleeps joins a ready queue. -/
theorem Occupied.joined {v : View} (h : k.Occupied) (hprepared : Prepared k call k₁)
    (hv : v.Abed k.idleProc l) (hp : v.Unlinked p) (henqueued : v.Enqueued p k₁.view)
    (hothers : ∀ q, k.view.state q = .running → q ≠ p ∧ v.state q = .running) :
    k₁.Abed l ∧ k₁.Occupied := by
  refine ⟨?_, h.keep hprepared.current hprepared.idle fun q _ hrunning => ?_⟩
  · rw [Abed, hprepared.idle]
    exact hv.enqueued hp henqueued
  · obtain ⟨hne, hstill⟩ := hothers q hrunning
    rw [show (k₁.processes q).state = k₁.view.state q from rfl, henqueued.state_eq,
      Function.update_of_ne hne]
    exact hstill

/-- A process that blocks itself leaves, one that blocks another goes on. -/
theorem Occupied.blocked (h : k.Occupied) (hprepared : Prepared k call k₁)
    (hview : k₁.view = (k.view.remove p).setState p .blocked) :
    k.currentProcess ≠ some p ∧ k₁.Occupied ∨ k.currentProcess = some p ∧ k₁.Leaving := by
  by_cases hcurrent : k.currentProcess = some p
  · refine .inr ⟨hcurrent, fun q hq => .inr (.inl ?_)⟩
    rw [hprepared.current, hcurrent] at hq
    obtain rfl := Option.some_inj.mp hq
    rw [show (k₁.processes p).state = k₁.view.state p from rfl, hview]
    simp [View.setState]
  · refine .inl ⟨hcurrent, h.keep hprepared.current hprepared.idle fun q hq hrunning => ?_⟩
    have hne : q ≠ p := fun heq => hcurrent (heq ▸ hq)
    rw [show (k₁.processes q).state = k₁.view.state q from rfl, hview]
    simp only [View.setState, Function.update_of_ne hne]
    exact hrunning

/-- The calls that neither put anybody to sleep nor wake anybody, up to the call of `schedule`. -/
theorem SleepQueue.effect (h : k.SleepQueue asleep l) (hoccupied : k.Occupied)
    (hcall : k.Considerate asleep call) (hsleep : ∀ ticks, call ≠ .sleep ticks) (htick : call ≠ .tick)
    {again : Bool} (hprelude : k.prelude fuel call = some (k₁, again))
    (hprepared : Prepared k call k₁) :
    k₁.Abed l ∧ (k₁.Occupied ∨ again = true ∧ k₁.Leaving) := by
  have habed : k.view.Abed k.idleProc l := h.1
  have hsame : k₁.view = k.view → k₁.Abed l ∧ (k₁.Occupied ∨ again = true ∧ k₁.Leaving) := by
    intro hview
    refine ⟨?_, .inl (hoccupied.of_view hprepared.current hprepared.idle hview)⟩
    rw [Abed, hview, hprepared.idle]
    exact habed
  have heffect := hprepared.effect
  cases call with
  | spawn name entry priority =>
      obtain hview | ⟨p, hstate, henqueued⟩ := heffect
      · exact hsame hview
      · have hp := habed.linked.unlinked_of_state (p := p) (by simp [hstate]) (by simp [hstate])
        refine (hoccupied.joined hprepared (habed.retype hp _ _) ⟨hp.isolated, hp.ready, hp.sleep⟩
          henqueued fun q hrunning => ?_).imp_right .inl
        have hne : q ≠ p := by
          rintro rfl
          cases hstate.symm.trans hrunning
        refine ⟨hne, ?_⟩
        simp only [View.retype, Function.update_of_ne hne]
        exact hrunning
  | start => exact hsame heffect
  | tick => exact absurd rfl htick
  | yield => exact hsame heffect
  | block proc =>
      obtain ⟨-, hview⟩ | ⟨p, hproc, hview⟩ := heffect
      · exact hsame hview
      · have hnotMem : p ∉ l := fun hmem => hcall p hproc (h.2.1.subset hmem)
        have hqueue : k₁.Abed l := by
          rw [Abed, hview, hprepared.idle]
          exact habed.remove hnotMem .blocked
        simp only [prelude, hproc] at hprelude
        obtain ⟨-, hagain⟩ := Prod.mk.inj (Option.some_inj.mp hprelude)
        obtain ⟨-, hstill⟩ | ⟨hcurrent, hleaving⟩ := hoccupied.blocked hprepared hview
        · exact ⟨hqueue, .inl hstill⟩
        · exact ⟨hqueue, .inr ⟨hagain ▸ decide_eq_true hcurrent, hleaving⟩⟩
  | unblock p =>
      obtain ⟨-, hview⟩ | ⟨hblocked, henqueued⟩ := heffect
      · exact hsame hview
      · have hspares : k.SparesSleepers (.unblock p) := sparesSleepers_of_considerate h hoccupied hcall
        have hp := habed.linked.unlinked_of_blocked hblocked (hspares hblocked)
        refine (hoccupied.joined hprepared habed hp henqueued fun q hrunning =>
          ⟨?_, hrunning⟩).imp_right .inl
        rintro rfl
        cases hrunning.symm.trans hblocked
  | sleep ticks => exact absurd rfl (hsleep ticks)

/-- The wake loop hands out the sleepers that are due, in the order of the queue, and leaves the rest. -/
theorem SleepQueue.wake (h : k.SleepQueue asleep l) (hoccupied : k.Occupied)
    (hwake : wakeSleepers { k with currentTick := k.currentTick + 1 } fuel = some k₁) :
    wokenSleepers { k with currentTick := k.currentTick + 1 } fuel =
        l.filter (fun p => (k.processes p).wakeTime ≤ k.currentTick + 1) ∧
      k₁.SleepQueue (k.asleepAfter fuel asleep .tick)
        (l.filter fun p => !decide ((k.processes p).wakeTime ≤ k.currentTick + 1)) ∧
      k₁.Occupied ∧ SameClock { k with currentTick := k.currentTick + 1 } k₁ ∧
      ∀ p ∈ l, (k.processes p).wakeTime ≤ k.currentTick + 1 → (k₁.processes p).state = .ready := by
  generalize hk₀ : { k with currentTick := k.currentTick + 1 } = k₀ at hwake ⊢
  have hticked : k₀.Abed l := hk₀ ▸ h.1
  have hsorted : k₀.SortedByWake l := hk₀ ▸ h.sortedByWake
  have hoccupied₀ : k₀.Occupied := hk₀ ▸ hoccupied
  have hdue : k₀.due = fun p => decide ((k.processes p).wakeTime ≤ k.currentTick + 1) := by
    rw [← hk₀]
    rfl
  obtain ⟨hwoken, habed, hclock, hstates, hready⟩ := hticked.wakeSleepers hsorted hwake
  have hkeeps : ∀ a ∈ l, (k₁.processes a).wakeTime = (k.processes a).wakeTime := by
    intro a _
    rw [keeps_wakeSleepers offTurns_wakeTime hwake a, ← hk₀]
  rw [hdue] at hwoken habed hready
  refine ⟨hwoken, ?_, hoccupied₀.keep hclock.current hclock.idle fun p _ hrunning => ?_, hclock,
    fun p hp hle => hready p hp (decide_eq_true hle)⟩
  · have hasleep : k.asleepAfter fuel asleep .tick =
        asleep.filter fun p => !decide ((k.processes p).wakeTime ≤ k.currentTick + 1) := by
      unfold asleepAfter
      rw [hk₀]
      refine List.filter_congr fun p hp => ?_
      have hmem : p ∈ l := h.2.1.symm.subset hp
      simp only [hwoken, List.mem_filter, hmem, true_and, decide_eq_true_iff, decide_not]
    rw [hasleep]
    exact h.filter _ habed hkeeps
  · rw [hstates p (by rw [hrunning]; simp)]
    exact hrunning

theorem SleepQueue.prelude (h : k.SleepQueue asleep l) (hoccupied : k.Occupied)
    (hcall : k.Considerate asleep call) {again : Bool}
    (hprelude : k.prelude fuel call = some (k₁, again)) :
    (∃ l', k₁.SleepQueue (k.asleepAfter fuel asleep call) l') ∧
      (k₁.Occupied ∨ again = true ∧ k₁.Leaving) := by
  have hprepared := prepared_of_prelude h.1.linked (sparesSleepers_of_considerate h hoccupied hcall)
    hprelude
  have hstay : (∀ ticks, call ≠ .sleep ticks) → call ≠ .tick →
      k₁.SleepQueue asleep l ∧ (k₁.Occupied ∨ again = true ∧ k₁.Leaving) := by
    intro hsleep htick
    obtain ⟨habed, hleaving⟩ := h.effect hoccupied hcall hsleep htick hprelude hprepared
    refine ⟨h.congr habed fun a ha => ?_, hleaving⟩
    refine prelude_keeps offTurns_wakeTime (h.used ha) (fun ticks heq => ?_) hprelude
    exact absurd heq (hsleep ticks)
  cases preludes hprelude with
  | @ticked k₂ hwake =>
      obtain ⟨-, hqueue, hoccupied₂, -⟩ := h.wake hoccupied hwake
      have hview := view_expireSlice k₂
      have hclock := sameClock_expireSlice k₂
      refine ⟨⟨_, hqueue.congr ?_ fun a _ => keeps_expireSlice offTurns_wakeTime k₂ a⟩,
        .inl (hoccupied₂.of_view hclock.current hclock.idle hview)⟩
      rw [Abed, hview, hclock.idle]
      exact hqueue.1
  | sleepless hcurrent =>
      refine ⟨⟨l, ?_⟩, .inl hoccupied⟩
      rw [asleepAfter_sleep, hcurrent, Option.toList_none, List.append_nil]
      exact h
  | @asleep ticks p _ hcurrent hfall =>
      have hidle : k.idleProc ≠ some p := fun hidle => hcall (hcurrent.trans hidle.symm)
      obtain ⟨k₂, l₁, l₂, hfall', hclock, rfl, habed, hblocked, hearly, hlate, hwake⟩ :=
        h.1.fallAsleep h.sortedByWake ((hoccupied p hcurrent).resolve_right hidle) hidle ticks
      obtain rfl := Option.some_inj.mp (hfall.symm.trans hfall')
      refine ⟨⟨l₁ ++ p :: l₂, ?_⟩, .inr ⟨rfl, fun q hq => .inr (.inl ?_)⟩⟩
      · rw [asleepAfter_sleep, hcurrent, Option.toList_some]
        exact h.insert habed hearly hlate hwake
      · rw [hclock.current, hcurrent] at hq
        obtain rfl := Option.some_inj.mp hq
        exact hblocked
  | _ =>
      obtain ⟨hqueue, hrest⟩ := hstay (by simp) (by simp)
      exact ⟨⟨l, hqueue⟩, hrest⟩

theorem SleepQueue.schedule (h : k.SleepQueue asleep l) (hleaving : k.Leaving)
    (hrun : k.schedule = some k') : k'.SleepQueue asleep l ∧ k'.Occupied := by
  obtain ⟨k₁, hrun', habed, hoccupied, -⟩ := h.1.schedule hleaving
  obtain rfl := Option.some_inj.mp (hrun.symm.trans hrun')
  exact ⟨h.congr habed fun a _ => keeps_schedule offTurns_wakeTime hrun a, hoccupied⟩

theorem SleepQueue.step (h : k.SleepQueue asleep l) (hoccupied : k.Occupied)
    (hcall : k.Considerate asleep call) (hstep : k.step fuel call = some k') :
    (∃ l', k'.SleepQueue (k.asleepAfter fuel asleep call) l') ∧ k'.Occupied := by
  rw [step_eq_prelude] at hstep
  obtain ⟨⟨k₁, again⟩, hprelude, hrest⟩ := Option.bind_eq_some_iff.mp hstep
  obtain ⟨⟨l', hl'⟩, hcurrent⟩ := h.prelude hoccupied hcall hprelude
  cases again with
  | false =>
      obtain rfl := Option.some_inj.mp hrest
      refine ⟨⟨l', hl'⟩, ?_⟩
      simpa using hcurrent
  | true =>
      have hleaving : k₁.Leaving := by
        obtain hoccupied₁ | ⟨-, hleaving⟩ := hcurrent
        · exact hoccupied₁.leaving
        · exact hleaving
      obtain ⟨hqueue, hoccupied'⟩ := hl'.schedule hleaving hrest
      exact ⟨⟨l', hqueue⟩, hoccupied'⟩

theorem SleepQueue.safe (h : k.SleepQueue asleep l) (hoccupied : k.Occupied)
    (hcall : k.Considerate asleep call) : k.Safe call := by
  refine ⟨sparesSleepers_of_considerate h hoccupied hcall, fun fuel k₁ hprelude next hnext _ => ?_⟩
  obtain ⟨⟨l', hl'⟩, -⟩ := h.prelude hoccupied hcall hprelude
  obtain ⟨p, hp, hnotMem, -⟩ := hl'.1.findNextProcess
  obtain rfl := Option.some_inj.mp (hnext.symm.trans hp)
  exact View.Abed.sleep_ne hl'.1 hnotMem

/-- The states that calls which `ok` allows lead to from `k₀` on, with the processes asleep there. -/
inductive SleepRun (ok : Kernel → List ProcPtr → SchedCall → Prop) (k₀ : Kernel) :
    List ProcPtr → Kernel → Prop
  | refl : SleepRun ok k₀ [] k₀
  | step {asleep : List ProcPtr} {k k' : Kernel} {call : SchedCall} {fuel : Nat}
      (hrun : SleepRun ok k₀ asleep k) (hcall : ok k asleep call)
      (hstep : k.step fuel call = some k') : SleepRun ok k₀ (k.asleepAfter fuel asleep call) k'

theorem sleepQueue_boot (hk : k.Booted) (hidle : k.idleProc ≠ none) :
    k.SleepQueue [] [] ∧ k.Occupied := by
  obtain ⟨hcurrent, ⟨hnone, -⟩ | ⟨d, hd, hview⟩⟩ := boot_cases hk
  · exact absurd hnone hidle
  · refine ⟨⟨⟨linked_boot hk, backed_boot hk, ⟨d, hd, List.not_mem_nil⟩, ?_⟩, List.Perm.nil,
      List.Pairwise.nil⟩, fun p hp => ?_⟩
    · rw [hview]
      rfl
    · cases hcurrent.symm.trans hp

theorem SleepRun.sleepQueue {k₀ : Kernel} (hboot : k₀.Booted) (hidle : k₀.idleProc ≠ none)
    (hrun : SleepRun IssuesAwake k₀ asleep k) : (∃ l, k.SleepQueue asleep l) ∧ k.Occupied := by
  induction hrun with
  | refl =>
      obtain ⟨hqueue, hoccupied⟩ := sleepQueue_boot hboot hidle
      exact ⟨⟨[], hqueue⟩, hoccupied⟩
  | step _ hcall hstep ih =>
      obtain ⟨⟨l, hl⟩, hoccupied⟩ := ih
      exact hl.step hoccupied (hl.considerate hoccupied hcall) hstep

/-- **The sleep queue.** While the idle process does not sleep, the sleep queue holds exactly the processes
that sleep, by wake time and then in the order they went to sleep. Every further call returns; a tick hands
to `scheduler_add` exactly the sleepers that are due by the new tick, in this order, and leaves the rest as
it is. -/
theorem sleepQueue_of_run {k₀ : Kernel} (hboot : k₀.Booted) (hidle : k₀.idleProc ≠ none)
    (hrun : SleepRun IssuesAwake k₀ asleep k) :
    ∃ l, k.view.links.Traverses k.sleepQueue l ∧ l.Perm asleep ∧ l.Pairwise (k.Before asleep) ∧
      (∀ call, k.IssuesAwake asleep call → ∃ fuel k', k.step fuel call = some k') ∧
      ∀ fuel k', k.schedulerTick fuel = some k' →
        wokenSleepers { k with currentTick := k.currentTick + 1 } fuel =
          l.filter (fun p => (k.processes p).wakeTime ≤ k.currentTick + 1) ∧
        k'.view.links.Traverses k'.sleepQueue
          (l.filter fun p => !decide ((k.processes p).wakeTime ≤ k.currentTick + 1)) := by
  obtain ⟨⟨l, hl⟩, hoccupied⟩ := hrun.sleepQueue hboot hidle
  refine ⟨l, hl.1.sleep, hl.2.1, hl.2.2, fun call hcall => ?_, fun fuel k' htick => ?_⟩
  · exact exists_step hl.1.linked (hl.safe hoccupied (hl.considerate hoccupied hcall))
  · obtain ⟨k₁, hwake, hrest⟩ := Option.bind_eq_some_iff.mp htick
    obtain ⟨hwoken, hqueue, hoccupied₁, -⟩ := hl.wake hoccupied hwake
    refine ⟨hwoken, ?_⟩
    have hview := view_expireSlice k₁
    have hclock := sameClock_expireSlice k₁
    have hexpired : k₁.expireSlice.1.Abed
        (l.filter fun p => !decide ((k.processes p).wakeTime ≤ k.currentTick + 1)) := by
      rw [Abed, hview, hclock.idle]
      exact hqueue.1
    split at hrest
    · have hoccupied₂ := hoccupied₁.of_view hclock.current hclock.idle hview
      obtain ⟨k₂, hrun₂, habed, -⟩ := hexpired.schedule hoccupied₂.leaving
      obtain rfl := Option.some_inj.mp (hrest.symm.trans hrun₂)
      exact habed.sleep
    · obtain rfl := Option.some_inj.mp hrest
      exact hexpired.sleep

def sleepReplay (ok : Kernel → List ProcPtr → SchedCall → Prop)
    [∀ k asleep call, Decidable (ok k asleep call)] (k : Kernel) (asleep : List ProcPtr) :
    List SchedCall → Option (List ProcPtr × Kernel)
  | [] => some (asleep, k)
  | call :: calls =>
      if ok k asleep call then
        (k.step 65 call).bind fun k' => sleepReplay ok k' (k.asleepAfter 65 asleep call) calls
      else none

theorem SleepRun.replay {ok : Kernel → List ProcPtr → SchedCall → Prop}
    [∀ k asleep call, Decidable (ok k asleep call)] {k₀ : Kernel} (hrun : SleepRun ok k₀ asleep k)
    {calls : List SchedCall} {asleep' : List ProcPtr}
    (h : k.sleepReplay ok asleep calls = some (asleep', k')) : SleepRun ok k₀ asleep' k' := by
  induction calls generalizing k asleep with
  | nil =>
      obtain ⟨rfl, rfl⟩ := Prod.mk.inj (Option.some_inj.mp h)
      exact hrun
  | cons call calls ih =>
      rw [sleepReplay] at h
      split at h
      · rename_i hcall
        obtain ⟨k₁, hstep, hrest⟩ := Option.bind_eq_some_iff.mp h
        exact ih (.step hrun hcall hstep) hrest
      · cases h

/-- Process 1 goes to sleep before process 2 and wakes after it. -/
def napCalls : List SchedCall := [.spawn [65] 0 16, .spawn [66] 0 20, .start, .sleep 5, .sleep 3, .tick]

theorem sleepQueue_napCalls : ∃ k, sampleBoot.sleepReplay IssuesAwake [] napCalls = some ([1, 2], k) ∧
    ∃ l, k.view.links.Traverses k.sleepQueue l ∧ l.Perm [1, 2] ∧ l.Pairwise (k.Before [1, 2]) := by
  have heval : (sampleBoot.sleepReplay IssuesAwake [] napCalls).map Prod.fst = some [1, 2] := by
    decide +kernel
  obtain ⟨⟨asleep, k⟩, hreplay, rfl⟩ := Option.map_eq_some_iff.mp heval
  have hrun : SleepRun IssuesAwake sampleBoot [1, 2] k := SleepRun.replay .refl hreplay
  obtain ⟨l, hl, hperm, hsorted, -⟩ := sleepQueue_of_run booted_sampleBoot (by decide +kernel) hrun
  exact ⟨k, hreplay, l, hl, hperm, hsorted⟩

/-- The idle process stays current when it sleeps. If it sleeps again, it is put before itself, and the
queue never ends. -/
theorem not_sleepQueue_idleSleeps : ¬ ∀ k₀ asleep k, k₀.Booted → k₀.idleProc ≠ none →
    SleepRun Issues k₀ asleep k →
    ∃ l, k.view.links.Traverses k.sleepQueue l ∧ l.Perm asleep ∧ l.Pairwise (k.Before asleep) := by
  intro h
  have heval : ((sampleBoot.sleepReplay Issues [] [.start, .sleep 5, .sleep 3]).map fun r =>
      (r.2.sleepQueue, (r.2.processes 0).next)) = some (some 0, some 0) := by decide +kernel
  obtain ⟨⟨asleep, k⟩, hreplay, hstate⟩ := Option.map_eq_some_iff.mp heval
  obtain ⟨hqueue, hnext⟩ := Prod.mk.inj hstate
  have hcircle : ∀ l, ¬ k.view.links.Traverses (some 0) l := by
    intro l
    induction l with
    | nil => exact fun hl => by cases hl
    | cons p l ih =>
        intro hl
        obtain rfl : 0 = p := Option.some_inj.mp hl.1
        have hrest : k.view.links.Traverses (k.processes 0).next l := hl.2
        rw [hnext] at hrest
        exact ih hrest
  obtain ⟨l, hl, -⟩ :=
    h sampleBoot asleep k booted_sampleBoot (by decide +kernel) (SleepRun.replay .refl hreplay)
  rw [show k.sleepQueue = some 0 from hqueue] at hl
  exact hcircle l hl

end Kernel

end SimpleOs
