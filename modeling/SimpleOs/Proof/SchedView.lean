import SimpleOs.Lib.Links
import SimpleOs.Proc.Scheduler

/-!
# The queues of the scheduler

`View` is what the queues of the scheduler consist of: the links, who points to them, and for each
process its state and the queue of its priority. `Linked` is the invariant of the view. It says
nothing about which processes are queued: a process can be missing from its queue, but whoever is
linked is linked properly and to its own kind. All its clauses are about one node and its neighbours.
-/

namespace SimpleOs

structure View where
  links : Links ProcPtr
  state : ProcPtr → ProcState
  queue : ProcPtr → Fin 32
  ready : Fin 32 → Option ProcPtr
  bits : Fin 32 → Bool
  sleep : Option ProcPtr

namespace View

/-- Sleepers are linked to sleepers; ready processes to ready processes of the same queue. -/
structure Linked (v : View) : Prop where
  sound : v.links.Sound
  readyHead : ∀ i p, v.ready i = some p →
    v.links.prev p = none ∧ v.state p = .ready ∧ v.queue p = i
  sleepHead : ∀ p, v.sleep = some p → v.links.prev p = none ∧ v.state p = .blocked
  link : ∀ p q, v.links.next p = some q → v.state p = v.state q ∧
    (v.state p = .blocked ∨ v.state p = .ready ∧ v.queue p = v.queue q)
  sleepStart : ∀ p, v.state p = .blocked → v.links.prev p = none → v.links.next p ≠ none →
    v.sleep = some p

structure Unlinked (v : View) (p : ProcPtr) : Prop where
  isolated : v.links.Isolated p
  ready : ∀ i, v.ready i ≠ some p
  sleep : v.sleep ≠ some p

/-- The heads of the ready queues after `scheduler_remove`. A process without predecessor is taken for
the first of its queue, whether it is or not. -/
def readyWithout (v : View) (p : ProcPtr) : Fin 32 → Option ProcPtr :=
  if v.links.prev p = none then Function.update v.ready (v.queue p) (v.links.next p) else v.ready

def remove (v : View) (p : ProcPtr) : View :=
  { v with
    links := v.links.unlink p
    ready := v.readyWithout p
    bits := fun i => v.bits i && !(decide (i = v.queue p) && (v.readyWithout p i).isNone) }

def retype (v : View) (p : ProcPtr) (state : ProcState) (queue : Fin 32) : View :=
  { v with
    state := Function.update v.state p state
    queue := Function.update v.queue p queue }

def setState (v : View) (p : ProcPtr) (state : ProcState) : View :=
  { v with state := Function.update v.state p state }

variable {v v' : View} {p q t : ProcPtr} {s : ProcState} {i : Fin 32}

theorem Linked.unlinked_of_state (h : v.Linked) (hready : v.state p ≠ .ready)
    (hblocked : v.state p ≠ .blocked) : v.Unlinked p := by
  refine ⟨⟨?_, ?_⟩, fun i hi => hready (h.readyHead i p hi).2.1,
    fun hp => hblocked (h.sleepHead p hp).2⟩
  · cases hnext : v.links.next p with
    | none => rfl
    | some q => exact absurd (h.link p q hnext).2 (by simp [hready, hblocked])
  · cases hprev : v.links.prev p with
    | none => rfl
    | some q =>
        obtain ⟨hsame, hkind⟩ := h.link q p ((h.sound.inverse q p).mpr hprev)
        rw [hsame] at hkind
        simp [hready, hblocked] at hkind

theorem Linked.retype (h : v.Linked) (hp : v.Unlinked p) (s : ProcState) (i : Fin 32) :
    (v.retype p s i).Linked := by
  obtain ⟨hsound, hready, hsleep, hlink, hstart⟩ := h
  have hinto := fun a => hsound.next_isolated (a := a) hp.isolated
  obtain ⟨⟨hnext, hprev⟩, hnoReady, hnoSleep⟩ := hp
  refine ⟨hsound, fun j a ha => ?_, fun a ha => ?_, fun a b hab => ?_, fun a ha hpa hna => ?_⟩
  · have hne : a ≠ p := by
      rintro rfl
      exact hnoReady j ha
    simpa [View.retype, hne] using hready j a ha
  · have hne : a ≠ p := by
      rintro rfl
      exact hnoSleep ha
    simpa [View.retype, hne] using hsleep a ha
  · have ha : a ≠ p := by
      rintro rfl
      exact absurd (hnext.symm.trans hab) (by simp)
    have hb : b ≠ p := by
      rintro rfl
      exact hinto a hab
    simpa [View.retype, ha, hb] using hlink a b hab
  · have hne : a ≠ p := by
      rintro rfl
      exact hna hnext
    exact hstart a (by simpa [View.retype, hne] using ha) hpa hna

theorem Linked.setState (h : v.Linked) (hp : v.Unlinked p) (s : ProcState) :
    (v.setState p s).Linked := by
  have hretype := h.retype hp s (v.queue p)
  rwa [View.retype, Function.update_eq_self] at hretype

theorem Unlinked.setState (hp : v.Unlinked p) (q : ProcPtr) (s : ProcState) :
    (v.setState q s).Unlinked p := ⟨hp.isolated, hp.ready, hp.sleep⟩

/-- `p` does not head the sleep queue, or is alone in it and stays blocked. -/
def Removable (v : View) (p : ProcPtr) (s : ProcState) : Prop :=
  v.sleep = some p → v.links.next p = none ∧ s = .blocked

theorem Linked.remove (h : v.Linked) (hp : v.Removable p s) :
    ((v.remove p).setState p s).Linked := by
  have hsound := h.sound.unlink p
  obtain ⟨⟨hinv, -⟩, hready, hsleep, hlink, hstart⟩ := h
  refine ⟨hsound, fun j a ha => ?_, fun a ha => ?_, fun a b hab => ?_, fun a ha hpa hna => ?_⟩
  all_goals simp only [View.remove, readyWithout, View.setState, Links.unlink, Removable] at *
  -- the new head of `p`'s queue is its successor, which is ready because `p` heads no sleep list
  · grind
  · grind
  · grind
  -- a sleeper left without predecessor had `p` as one, and `p` would have headed the sleep list
  · grind

def InReady (v : View) (i : Fin 32) (p : ProcPtr) : Prop :=
  ∃ l, v.links.Traverses (v.ready i) l ∧ p ∈ l

def InSleep (v : View) (p : ProcPtr) : Prop := ∃ l, v.links.Traverses v.sleep l ∧ p ∈ l

theorem Linked.forall_ready (h : v.Linked) {l : List ProcPtr}
    (hl : v.links.Traverses (v.ready i) l) : ∀ p ∈ l, v.state p = .ready ∧ v.queue p = i := by
  refine hl.forall (fun a ha => ?_) fun a b ha hab => ?_
  · obtain ⟨-, hstate, hqueue⟩ := h.readyHead i a ha
    exact ⟨hstate, hqueue⟩
  · obtain ⟨hsame, hkind⟩ := h.link a b hab
    rw [ha.1] at hsame hkind
    obtain hkind | hkind := hkind
    · cases hkind
    · exact ⟨hsame.symm, hkind.2.symm.trans ha.2⟩

theorem Linked.forall_sleep (h : v.Linked) {l : List ProcPtr} (hl : v.links.Traverses v.sleep l) :
    ∀ p ∈ l, v.state p = .blocked := by
  refine hl.forall (fun a ha => (h.sleepHead a ha).2) fun a b ha hab => ?_
  rw [← (h.link a b hab).1]
  exact ha

theorem Linked.inReady_head (h : v.Linked) (hp : v.ready i = some p) : v.InReady i p := by
  obtain ⟨l, hl⟩ := h.sound.exists_traverses (v.ready i)
  refine ⟨l, hl, ?_⟩
  rw [hp] at hl
  exact hl.head_mem

theorem InReady.next (hp : v.InReady i p) (hnext : v.links.next p = some q) : v.InReady i q := by
  obtain ⟨l, hl, hmem⟩ := hp
  exact ⟨l, hl, hl.mem_of_next hmem hnext⟩

theorem Unlinked.not_inReady (hp : v.Unlinked p) (hs : v.links.Sound) : ¬ v.InReady i p := by
  rintro ⟨l, hl, hmem⟩
  obtain hhead | ⟨b, -, hnext⟩ := hl.eq_or_next hmem
  · exact hp.ready i hhead
  · exact hs.next_isolated hp.isolated hnext

def enqueueFirst (v : View) (p : ProcPtr) : View :=
  { v.setState p .ready with
    ready := Function.update v.ready (v.queue p) (some p)
    bits := Function.update v.bits (v.queue p) true }

def enqueueAfter (v : View) (t p : ProcPtr) : View :=
  { v.setState p .ready with links := v.links.insertAfter t p }

theorem Linked.enqueueFirst (h : v.Linked) (hp : v.Unlinked p) : (v.enqueueFirst p).Linked := by
  have hinto := fun a => h.sound.next_isolated (a := a) hp.isolated
  obtain ⟨hsound, hready, hsleep, hlink, hstart⟩ := h
  obtain ⟨⟨hnext, hprev⟩, hnoReady, hnoSleep⟩ := hp
  refine ⟨hsound, fun j a ha => ?_, fun a ha => ?_, fun a b hab => ?_, fun a ha hpa hna => ?_⟩
  all_goals simp only [View.enqueueFirst, View.setState, Function.update_apply] at *
  · grind
  · grind
  · grind
  · grind

theorem Linked.enqueueAfter (h : v.Linked) (hp : v.Unlinked p) (hne : p ≠ t)
    (ht : v.state t = .ready) (hqueue : v.queue t = v.queue p) (hlast : v.links.next t = none) :
    (v.enqueueAfter t p).Linked := by
  have hinto := fun a => h.sound.next_isolated (a := a) hp.isolated
  have hsound := h.sound.insertAfter hp.isolated hne
  obtain ⟨-, hready, hsleep, hlink, hstart⟩ := h
  obtain ⟨⟨hnext, hprev⟩, hnoReady, hnoSleep⟩ := hp
  refine ⟨hsound, fun j a ha => ?_, fun a ha => ?_, fun a b hab => ?_, fun a ha hpa hna => ?_⟩
  all_goals
    simp only [View.enqueueAfter, View.setState, Links.insertAfter, Function.update_apply] at *
  · grind
  · grind
  · grind
  · grind

/-- What `scheduler_add` does to a process that is in no list: `v'` has it at the end of its queue. -/
def Enqueued (v : View) (p : ProcPtr) (v' : View) : Prop :=
  v.ready (v.queue p) = none ∧ v' = v.enqueueFirst p ∨
    ∃ tail, v.InReady (v.queue p) tail ∧ v.links.next tail = none ∧ v' = v.enqueueAfter tail p

theorem Linked.enqueued (h : v.Linked) (hp : v.Unlinked p) (hv : v.Enqueued p v') : v'.Linked := by
  obtain ⟨-, rfl⟩ | ⟨tail, htail, hlast, rfl⟩ := hv
  · exact h.enqueueFirst hp
  · have hne : p ≠ tail := by
      rintro rfl
      exact hp.not_inReady h.sound htail
    obtain ⟨l, hl, hmem⟩ := htail
    obtain ⟨hstate, hqueue⟩ := h.forall_ready hl tail hmem
    exact h.enqueueAfter hp hne hstate hqueue hlast

theorem Enqueued.sleep_eq (hv : v.Enqueued p v') : v'.sleep = v.sleep := by
  obtain ⟨-, rfl⟩ | ⟨tail, -, -, rfl⟩ := hv <;> rfl

theorem Enqueued.state_eq (hv : v.Enqueued p v') :
    v'.state = Function.update v.state p .ready := by
  obtain ⟨-, rfl⟩ | ⟨tail, -, -, rfl⟩ := hv <;> rfl

theorem Enqueued.queue_eq (hv : v.Enqueued p v') : v'.queue = v.queue := by
  obtain ⟨-, rfl⟩ | ⟨tail, -, -, rfl⟩ := hv <;> rfl

theorem Enqueued.of_setState (hv : (v.setState p s).Enqueued p v') : v.Enqueued p v' := by
  obtain ⟨hnone, rfl⟩ | ⟨tail, htail, hlast, rfl⟩ := hv
  · refine .inl ⟨hnone, ?_⟩
    simp [View.enqueueFirst, View.setState]
  · refine .inr ⟨tail, htail, hlast, ?_⟩
    simp [View.enqueueAfter, View.setState]

/-- The current process is back in its queue if it was running. -/
def Requeued (v : View) (current : Option ProcPtr) (v' : View) : Prop :=
  (∃ c, current = some c ∧ v.state c = .running ∧ v.Enqueued c v') ∨
    (∀ c, current = some c → v.state c ≠ .running) ∧ v' = v

theorem Linked.requeued (h : v.Linked) {current : Option ProcPtr} (hv : v.Requeued current v') :
    v'.Linked := by
  obtain ⟨c, -, hstate, hv⟩ | ⟨-, rfl⟩ := hv
  · exact h.enqueued (h.unlinked_of_state (by simp [hstate]) (by simp [hstate])) hv
  · exact h

theorem Requeued.sleep_eq {current : Option ProcPtr} (hv : v.Requeued current v') :
    v'.sleep = v.sleep := by
  obtain ⟨c, -, -, hv⟩ | ⟨-, rfl⟩ := hv
  · exact hv.sleep_eq
  · rfl

theorem Linked.unlinked_remove (h : v.Linked) (hp : v.sleep ≠ some p) :
    (v.remove p).Unlinked p := by
  have hirr := h.sound.irrefl (a := p)
  have hready := h.readyHead
  refine ⟨⟨?_, ?_⟩, fun i hi => ?_, hp⟩
  · simp [View.remove, Links.unlink]
  · simp [View.remove, Links.unlink]
  · simp only [View.remove, readyWithout] at hi
    grind

def pop (v : View) (p : ProcPtr) : View :=
  { v with links := v.links.unlink p, sleep := v.links.next p }

theorem Linked.pop (h : v.Linked) (hp : v.sleep = some p) : (v.pop p).Linked := by
  have hsound := h.sound.unlink p
  obtain ⟨⟨hinv, -⟩, hready, hsleep, hlink, hstart⟩ := h
  refine ⟨hsound, fun j a ha => ?_, fun a ha => ?_, fun a b hab => ?_, fun a ha hpa hna => ?_⟩
  all_goals simp only [View.pop, Links.unlink] at *
  · grind
  · grind
  · grind
  · grind

theorem Linked.unlinked_pop (h : v.Linked) (hp : v.sleep = some p) : (v.pop p).Unlinked p := by
  have hirr := h.sound.irrefl (a := p)
  obtain ⟨-, hready, hsleep, -, -⟩ := h
  refine ⟨⟨?_, ?_⟩, fun i hi => ?_, hirr⟩
  · simp [View.pop, Links.unlink]
  · simp [View.pop, Links.unlink]
  · have hblocked := (hsleep p hp).2
    rw [(hready i p hi).2.1] at hblocked
    cases hblocked

/-- What the wake loop can do: take sleepers off the front and put them into their ready queues. -/
inductive Woken : View → View → Prop
  | refl (v : View) : Woken v v
  | wake {v v₁ v' : View} {p : ProcPtr} (hp : v.sleep = some p) (hadd : (v.pop p).Enqueued p v₁)
      (hrest : Woken v₁ v') : Woken v v'

theorem Linked.woken (h : v.Linked) (hv : v.Woken v') : v'.Linked := by
  induction hv with
  | refl v => exact h
  | wake hp hadd _ ih => exact ih ((h.pop hp).enqueued (h.unlinked_pop hp) hadd)

def blockedCount (v : View) : Nat := (Finset.univ.filter fun p => v.state p = .blocked).card

theorem Enqueued.blockedCount_lt (hv : v.Enqueued p v') (hp : v.state p = .blocked) :
    v'.blockedCount < v.blockedCount := by
  refine Finset.card_lt_card (Finset.ssubset_iff_of_subset ?_ |>.mpr ⟨p, ?_, ?_⟩)
  · intro q hq
    simp only [hv.state_eq, Function.update_apply, Finset.mem_filter] at hq ⊢
    grind
  · simp [hp]
  · simp [hv.state_eq]

def sleepFirst (v : View) (p : ProcPtr) : View :=
  { v with links := v.links.insertFront v.sleep p, sleep := some p }

def sleepAfter (v : View) (t p : ProcPtr) : View :=
  { v with links := v.links.insertAfter t p }

theorem Linked.sleepFirst (h : v.Linked) (hp : v.Unlinked p) (hstate : v.state p = .blocked) :
    (v.sleepFirst p).Linked := by
  have hinto := fun a => h.sound.next_isolated (a := a) hp.isolated
  have hsound := h.sound.insertFront hp.isolated (fun a ha => (h.sleepHead a ha).1) hp.sleep
  obtain ⟨-, hready, hsleep, hlink, hstart⟩ := h
  obtain ⟨⟨hnext, hprev⟩, hnoReady, hnoSleep⟩ := hp
  refine ⟨hsound, fun j a ha => ?_, fun a ha => ?_, fun a b hab => ?_, fun a ha hpa hna => ?_⟩
  all_goals simp only [View.sleepFirst, Links.insertFront] at *
  · grind
  · grind
  · grind
  · grind

theorem Linked.sleepAfter (h : v.Linked) (hp : v.Unlinked p) (hstate : v.state p = .blocked)
    (hne : p ≠ t) (ht : v.state t = .blocked) (hasleep : v.links.prev t = none → v.sleep = some t) :
    (v.sleepAfter t p).Linked := by
  have hinto := fun a => h.sound.next_isolated (a := a) hp.isolated
  have hsound := h.sound.insertAfter hp.isolated hne
  obtain ⟨⟨hinv, -⟩, hready, hsleep, hlink, hstart⟩ := h
  obtain ⟨⟨hnext, hprev⟩, hnoReady, hnoSleep⟩ := hp
  refine ⟨hsound, fun j a ha => ?_, fun a ha => ?_, fun a b hab => ?_, fun a ha hpa hna => ?_⟩
  all_goals simp only [View.sleepAfter, Links.insertAfter] at *
  · grind
  · grind
  · grind
  · grind

def PutToSleep (v : View) (p : ProcPtr) (v' : View) : Prop :=
  v' = v.sleepFirst p ∨ ∃ pos, v.InSleep pos ∧ v' = v.sleepAfter pos p

theorem Unlinked.not_inSleep (hp : v.Unlinked p) (hs : v.links.Sound) : ¬ v.InSleep p := by
  rintro ⟨l, hl, hmem⟩
  obtain hhead | ⟨b, -, hnext⟩ := hl.eq_or_next hmem
  · exact hp.sleep hhead
  · exact hs.next_isolated hp.isolated hnext

theorem Linked.putToSleep (h : v.Linked) (hp : v.Unlinked p) (hstate : v.state p = .blocked)
    (hv : v.PutToSleep p v') : v'.Linked := by
  obtain rfl | ⟨pos, hpos, rfl⟩ := hv
  · exact h.sleepFirst hp hstate
  · have hne : p ≠ pos := by
      rintro rfl
      exact hp.not_inSleep h.sound hpos
    obtain ⟨l, hl, hmem⟩ := hpos
    refine h.sleepAfter hp hstate hne (h.forall_sleep hl pos hmem) fun hprev => ?_
    obtain hhead | ⟨b, -, hnext⟩ := hl.eq_or_next hmem
    · exact hhead
    · rw [h.sound.inverse, hprev] at hnext
      cases hnext

theorem Linked.unlinked_of_blocked (h : v.Linked) (hp : v.state p = .blocked)
    (hout : ¬ v.InSleep p) : v.Unlinked p := by
  have hinside : ∀ q l, v.links.prev q = none → v.state q = .blocked →
      v.links.Traverses (some q) l → p ∈ l → v.links.next q = none ∧ l = [p] := by
    intro q l hq hstate hl hmem
    cases hnext : v.links.next q with
    | none =>
        cases l with
        | nil => simp at hmem
        | cons a l =>
            obtain rfl : q = a := Option.some_inj.mp hl.1
            have hnil := hl.2
            rw [hnext] at hnil
            cases l with
            | nil => exact ⟨rfl, by simpa [eq_comm] using hmem⟩
            | cons b l => cases hnil.1
    | some b =>
        have hhead := h.sleepStart q hstate hq (by simp [hnext])
        exact absurd ⟨l, hhead ▸ hl, hmem⟩ hout
  obtain ⟨q, l, hq, hstate, hl, hmem⟩ := h.sound.start_of (P := fun a => v.state a = .blocked) hp
    fun a b hab hb => (h.link a b hab).1.trans hb
  obtain ⟨hnext, rfl⟩ := hinside q l hq hstate hl hmem
  obtain rfl : q = p := Option.some_inj.mp hl.1
  refine ⟨⟨hnext, hq⟩, fun i hi => ?_, fun hsleep => hout ⟨[q], hsleep ▸ hl, hmem⟩⟩
  rw [(h.readyHead i q hi).2.1] at hstate
  cases hstate

/-- The 32 ready lists and the sleep list: properly linked, no process in two of them or twice in
one. -/
structure Lists (v : View) (ready : Fin 32 → List ProcPtr) (sleep : List ProcPtr) : Prop where
  readyList : ∀ i, v.links.Traverses (v.ready i) (ready i)
  sleepList : v.links.Traverses v.sleep sleep
  inverse : ∀ a b, v.links.next a = some b ↔ v.links.prev b = some a
  readyFirst : ∀ i a, v.ready i = some a → v.links.prev a = none
  sleepFirst : ∀ a, v.sleep = some a → v.links.prev a = none
  readyNodup : ∀ i, (ready i).Nodup
  sleepNodup : sleep.Nodup
  readyDisjoint : ∀ i j, i ≠ j → (ready i).Disjoint (ready j)
  sleepDisjoint : ∀ i, (ready i).Disjoint sleep

theorem Linked.exists_lists (h : v.Linked) : ∃ ready sleep, v.Lists ready sleep := by
  choose ready hready using fun i => h.sound.exists_traverses (v.ready i)
  obtain ⟨sleep, hsleep⟩ := h.sound.exists_traverses v.sleep
  refine ⟨ready, sleep, hready, hsleep, h.sound.inverse, fun i a ha => (h.readyHead i a ha).1,
    fun a ha => (h.sleepHead a ha).1, fun i => (hready i).nodup h.sound, hsleep.nodup h.sound,
    fun i j hij a hi hj => ?_, fun i a hi hs => ?_⟩
  · have hqueue := (h.forall_ready (hready i) a hi).2
    exact hij (hqueue.symm.trans (h.forall_ready (hready j) a hj).2)
  · have hstate := (h.forall_ready (hready i) a hi).1
    rw [h.forall_sleep hsleep a hs] at hstate
    cases hstate

end View

end SimpleOs
