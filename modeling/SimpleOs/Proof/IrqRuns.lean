import SimpleOs.Proof.IrqDelivery

/-!
# Every interrupt once

What the drivers have seen after a run of requests and interrupts is what was requested and taken: one tick
for each interrupt of the timer, and the bytes of the keyboard in the order in which they were sent. An
interrupt that can be delivered is taken sooner or later, but line 2 stays masked after booting, so that
those of the second controller cannot be delivered.
-/

namespace SimpleOs

open PortDevice Chipset

variable {σ : Type} {b : Board σ} {k : Drivers σ} {scancodes : List (BitVec 8)} {line : Nat}
  {frequency : BitVec 32} {events : List IrqEvent}

def IrqEvent.scancode? : IrqEvent → Option (BitVec 8)
  | .key scancode => some scancode
  | _ => none

/-- What the keyboard has sent. -/
def sentScancodes (events : List IrqEvent) : List (BitVec 8) := events.filterMap IrqEvent.scancode?

def IrqEvent.setEnabled (enabled : Nat → Bool) : IrqEvent → Nat → Bool
  | .enableIrq irq => Function.update enabled irq true
  | .disableIrq irq => Function.update enabled irq false
  | _ => enabled

/-- Which lines the calls of the drivers have left enabled. -/
def enabledAfter (events : List IrqEvent) : Nat → Bool :=
  events.foldl IrqEvent.setEnabled bootArbiter.enabled

theorem enabledAfter_concat (event : IrqEvent) :
    enabledAfter (events ++ [event]) = event.setEnabled (enabledAfter events) := List.foldl_concat ..

theorem sentScancodes_concat {event : IrqEvent} (h : event.scancode? = none) :
    sentScancodes (events ++ [event]) = sentScancodes events := by
  rw [sentScancodes, List.filterMap_append, List.filterMap_cons_none h]
  exact List.append_nil _

theorem count_concat {event : IrqEvent} {n : Fin 16} :
    (events ++ [event]).count (.request n) =
      events.count (.request n) + if event = .request n then 1 else 0 := by
  rw [List.count_append, List.count_singleton]
  simp only [beq_iff_eq]

/-- Line 2 is enabled by a call or not at all. -/
theorem enable_mem_of_enabledAfter (h : enabledAfter events 2 = true) : .enableIrq 2 ∈ events := by
  induction events using List.reverseRecOn with
  | nil => exact absurd h (by decide)
  | append_singleton events event ih =>
      rw [enabledAfter_concat] at h
      cases event with
      | enableIrq irq =>
          by_cases hirq : irq = 2
          · rw [hirq]
            exact List.mem_append_right _ (List.mem_singleton_self _)
          · have hne : 2 ≠ irq.val := fun heq => hirq (Fin.ext heq.symm)
            exact List.mem_append_left _ (ih ((Function.update_of_ne hne ..).symm.trans h))
      | disableIrq irq =>
          by_cases hirq : irq = 2
          · subst hirq
            have hoff : Function.update (enabledAfter events) 2 false 2 = true := h
            rw [Function.update_self] at hoff
            exact absurd hoff Bool.false_ne_true
          · have hne : 2 ≠ irq.val := fun heq => hirq (Fin.ext heq.symm)
            exact List.mem_append_left _ (ih ((Function.update_of_ne hne ..).symm.trans h))
      | request line => exact List.mem_append_left _ (ih h)
      | key scancode => exact List.mem_append_left _ (ih h)
      | interrupt => exact List.mem_append_left _ (ih h)

namespace Board

/-- What the drivers have seen after `events`, from the start with `scancodes` and `k`. -/
structure Accounts (b : Board σ) (scancodes : List (BitVec 8)) (k : Drivers σ)
    (events : List IrqEvent) : Prop where
  enabled : b.arbiter.enabled = enabledAfter events
  ticks : b.drivers.timerTicks = k.timerTicks + BitVec.ofNat 64 (b.taken.count 0)
  callback : b.drivers.timerCallback = k.timerCallback
  others : b.drivers.others = k.calledBack^[b.taken.count 0] k.others
  keys : ∃ handled, handled ++ b.scancodes = scancodes ++ sentScancodes events ∧
    handled.length = b.taken.count 1 ∧
    b.drivers.keyboard = handled.foldl Keyboard.keyboardHandler k.keyboard.keyboardInit
  waiting : b.arbiter.pending 1 = true → b.scancodes ≠ []
  requests : ∀ n : Fin 16, n ≠ 1 →
    b.taken.count n.val + (b.arbiter.pending n).toNat ≤ events.count (.request n)

theorem accounts_start : (start scancodes k).Accounts scancodes k [] where
  enabled := rfl
  ticks := (BitVec.add_zero _).symm
  callback := rfl
  others := rfl
  keys := ⟨[], (List.append_nil _).symm, rfl, rfl⟩
  waiting h := absurd h Bool.false_ne_true
  requests _ _ := le_rfl

/-- Events that the drivers do not notice. -/
theorem Accounts.unnoticed (h : b.Accounts scancodes k events) {event : IrqEvent} {a : Arbiter}
    (henabled : a.enabled = event.setEnabled b.arbiter.enabled) (hkey : event.scancode? = none)
    (hwaiting : a.pending 1 = b.arbiter.pending 1)
    (hrequests : ∀ n : Fin 16, n ≠ 1 → (a.pending n).toNat ≤
      (b.arbiter.pending n).toNat + if event = .request n then 1 else 0) :
    { b with arbiter := a }.Accounts scancodes k (events ++ [event]) where
  enabled := by rw [enabledAfter_concat, ← h.enabled, henabled]
  ticks := h.ticks
  callback := h.callback
  others := h.others
  keys := by
    rw [sentScancodes_concat hkey]
    exact h.keys
  waiting hpending := h.waiting (hwaiting ▸ hpending)
  requests n hn := by
    have hold := h.requests n hn
    have hnew := hrequests n hn
    rw [count_concat]
    change b.taken.count n.val + (a.pending n).toNat ≤ _
    omega

theorem Accounts.request (h : b.Accounts scancodes k events) (line : Fin 16) :
    (b.request line).Accounts scancodes k (events ++ [.request line]) := by
  rw [Board.request]
  split
  · exact h.unnoticed rfl rfl rfl fun n _ => Nat.le_add_right _ _
  · rename_i hother
    refine h.unnoticed rfl rfl ?_ fun n _ => ?_
    · rw [Arbiter.pending_request, if_neg fun heq => hother (.inl heq.symm)]
    · rw [Arbiter.pending_request]
      by_cases heq : line = n
      · rw [if_pos (congrArg Fin.val heq.symm), if_pos (congrArg IrqEvent.request heq)]
        exact Nat.le_add_left _ _
      · rw [if_neg fun hval => heq (Fin.ext hval.symm)]
        exact Nat.le_add_right _ _

theorem Accounts.key (h : b.Accounts scancodes k events) (scancode : BitVec 8) :
    (b.key scancode).Accounts scancodes k (events ++ [.key scancode]) where
  enabled := by
    rw [enabledAfter_concat, Board.key, apply_ite Arbiter.enabled]
    exact (ite_self _).trans h.enabled
  ticks := h.ticks
  callback := h.callback
  others := h.others
  keys := by
    obtain ⟨handled, hsent, hcount, hkeyboard⟩ := h.keys
    refine ⟨handled, ?_, hcount, hkeyboard⟩
    rw [sentScancodes, List.filterMap_append, ← sentScancodes, ← List.append_assoc, ← hsent,
      List.append_assoc]
    rfl
  waiting _ := List.append_ne_nil_of_right_ne_nil _ (List.cons_ne_nil _ _)
  requests n hn := by
    have hold := h.requests n hn
    have hpending : (b.key scancode).arbiter.pending n = b.arbiter.pending n := by
      rw [Board.key]
      split
      · exact Arbiter.pending_request.trans (if_neg fun heq => hn (Fin.ext heq))
      · rfl
    rw [count_concat, hpending]
    exact hold.trans (Nat.le_add_right _ _)

theorem serve_of_two_le (hline : 2 ≤ line) : b.serve line =
    { b with arbiter := b.arbiter.request line false, taken := b.taken ++ [line] } := by
  obtain ⟨n, rfl⟩ := Nat.exists_eq_add_of_le' hline
  rfl

theorem arbiter_serve_one : (b.serve 1).arbiter =
    if b.scancodes.tail = [] then b.arbiter.request 1 false
    else (b.arbiter.request 1 false).request 1 true := rfl

/-- Only the keyboard asks again while it is served. -/
theorem pending_serve {n : Nat} (hn : n ≠ 1) : (b.serve line).arbiter.pending n =
    if n = line then false else b.arbiter.pending n := by
  obtain rfl | rfl | hother : line = 0 ∨ line = 1 ∨ 2 ≤ line := by omega
  · exact Arbiter.pending_request
  · rw [arbiter_serve_one, if_neg hn]
    split
    · exact Arbiter.pending_request.trans (if_neg hn)
    · rw [Arbiter.pending_request, if_neg hn, Arbiter.pending_request, if_neg hn]
  · rw [serve_of_two_le hother]
    exact Arbiter.pending_request

theorem pending_serve_of_ne {n : Nat} (hne : n ≠ line) :
    (b.serve line).arbiter.pending n = b.arbiter.pending n := by
  by_cases hone : n = 1
  · obtain rfl | hother : line = 0 ∨ 2 ≤ line := by omega
    · exact Arbiter.pending_request.trans (if_neg hne)
    · rw [serve_of_two_le hother]
      exact Arbiter.pending_request.trans (if_neg hne)
  · rw [pending_serve hone, if_neg hne]

theorem enabled_serve : (b.serve line).arbiter.enabled = b.arbiter.enabled := by
  obtain rfl | rfl | hother : line = 0 ∨ line = 1 ∨ 2 ≤ line := by omega
  · rfl
  · rw [arbiter_serve_one]
    split <;> rfl
  · rw [serve_of_two_le hother]
    rfl

theorem taken_serve : (b.serve line).taken = b.taken ++ [line] := (vector_handle _ line).2

theorem waiting_serve (hwaiting : b.arbiter.pending 1 = true → b.scancodes ≠ []) :
    (b.serve line).arbiter.pending 1 = true → (b.serve line).scancodes ≠ [] := by
  intro hpending
  obtain rfl | rfl | hother : line = 0 ∨ line = 1 ∨ 2 ≤ line := by omega
  · exact hwaiting hpending
  · rw [arbiter_serve_one] at hpending
    intro hempty
    have hempty : b.scancodes.tail = [] := hempty
    rw [if_pos hempty, Arbiter.pending_request, if_pos rfl] at hpending
    exact Bool.false_ne_true hpending
  · rw [serve_of_two_le hother] at hpending ⊢
    exact hwaiting ((Arbiter.pending_request.trans (if_neg (by omega))).symm.trans hpending)

theorem Accounts.serve (h : b.Accounts scancodes k events) (hpending : b.arbiter.pending line = true) :
    (b.serve line).Accounts scancodes k (events ++ [.interrupt]) := by
  have hrequests : ∀ n : Fin 16, n ≠ 1 → (b.serve line).taken.count n.val +
      ((b.serve line).arbiter.pending n).toNat ≤
        (events ++ [IrqEvent.interrupt]).count (IrqEvent.request n) := by
    intro n hn
    have hold := h.requests n hn
    rw [taken_serve, List.count_append, List.count_singleton, count_concat,
      pending_serve fun heq => hn (Fin.ext heq)]
    by_cases heq : n.val = line
    · rw [if_pos heq, if_pos (beq_iff_eq.mpr heq.symm)]
      rw [heq, hpending] at hold
      rw [heq]
      exact hold
    · rw [if_neg heq, if_neg fun hbeq => heq (beq_iff_eq.mp hbeq).symm]
      exact hold
  have hcount : ∀ n, n ≠ line → (b.serve line).taken.count n = b.taken.count n := by
    intro n hne
    rw [taken_serve, List.count_append, List.count_singleton,
      if_neg fun hbeq => hne (beq_iff_eq.mp hbeq).symm]
    rfl
  have hself : (b.serve line).taken.count line = b.taken.count line + 1 := by
    rw [taken_serve, List.count_append, List.count_singleton_self]
  have hsame : enabledAfter (events ++ [.interrupt]) = enabledAfter events := enabledAfter_concat _
  have henabled : (b.serve line).arbiter.enabled = enabledAfter (events ++ [.interrupt]) :=
    enabled_serve.trans (h.enabled.trans hsame.symm)
  have hkeys : sentScancodes (events ++ [.interrupt]) = sentScancodes events := sentScancodes_concat rfl
  obtain ⟨handled, hsent, hlength, hkeyboard⟩ := h.keys
  obtain rfl | rfl | hother : line = 0 ∨ line = 1 ∨ 2 ≤ line := by omega
  · have hone := hcount 1 (by decide)
    refine ⟨henabled, ?_, h.callback, ?_, ⟨handled, hkeys ▸ hsent, hone ▸ hlength, hkeyboard⟩,
      h.waiting, hrequests⟩
    · rw [hself, BitVec.ofNat_add, ← BitVec.add_assoc, ← h.ticks]
      rfl
    · rw [hself, Function.iterate_succ_apply', ← h.others, ← calledBack_congr h.callback]
      rfl
  · have hzero := hcount 0 (by decide)
    obtain ⟨scancode, rest, hscancodes⟩ := List.exists_cons_of_ne_nil (h.waiting hpending)
    have hrest : (b.serve 1).scancodes = rest := congrArg List.tail hscancodes
    refine ⟨henabled, hzero ▸ h.ticks, h.callback, hzero ▸ h.others, ⟨handled ++ [scancode], ?_, ?_, ?_⟩,
      waiting_serve h.waiting, hrequests⟩
    · rw [hrest, hkeys, ← hsent, hscancodes, List.append_assoc, List.singleton_append]
    · rw [hself, List.length_append, hlength, List.length_singleton]
    · rw [List.foldl_concat, ← hkeyboard]
      exact congrArg (fun l => b.drivers.keyboard.keyboardHandler (l.headD 0)) hscancodes
  · have hone := hcount 1 (by omega)
    have hzero := hcount 0 (by omega)
    have hwaiting : (b.serve line).arbiter.pending 1 = true → (b.serve line).scancodes ≠ [] :=
      waiting_serve h.waiting
    rw [serve_of_two_le hother] at hone hzero henabled hrequests hwaiting ⊢
    exact ⟨henabled, hzero ▸ h.ticks, h.callback, hzero ▸ h.others,
      ⟨handled, hkeys ▸ hsent, hone ▸ hlength, hkeyboard⟩, hwaiting, hrequests⟩

theorem deliverable_of_next {a : Arbiter} (h : a.next = some line) : line < 16 ∧ line ≠ 2 ∧
    a.pending line = true ∧ a.enabled line = true ∧ (8 ≤ line → a.enabled 2 = true) := by
  have hmem := List.mem_of_find?_eq_some h
  have horder : ∀ n ∈ Arbiter.order, n < 16 ∧ n ≠ 2 := by decide
  have hdeliverable := List.find?_some h
  rw [Arbiter.deliverable, Bool.and_eq_true, Bool.and_eq_true, Bool.or_eq_true,
    decide_eq_true_eq] at hdeliverable
  obtain ⟨⟨hpending, henabled⟩, hcascade⟩ := hdeliverable
  exact ⟨(horder line hmem).1, (horder line hmem).2, hpending, henabled,
    fun hslave => hcascade.resolve_left (by omega)⟩

theorem Accounts.step (h : b.Accounts scancodes k events) (event : IrqEvent) :
    (b.step event).Accounts scancodes k (events ++ [event]) := by
  cases event with
  | request line => exact h.request line
  | key scancode => exact h.key scancode
  | interrupt =>
      rw [Board.step, Board.interrupt]
      cases hnext : b.arbiter.next with
      | none => exact h.unnoticed rfl rfl rfl fun n _ => Nat.le_add_right _ _
      | some line => exact h.serve (deliverable_of_next hnext).2.2.1
  | enableIrq irq => exact h.unnoticed rfl rfl rfl fun n _ => Nat.le_add_right _ _
  | disableIrq irq => exact h.unnoticed rfl rfl rfl fun n _ => Nat.le_add_right _ _

theorem accounts_run (scancodes : List (BitVec 8)) (k : Drivers σ) (events : List IrqEvent) :
    ((start scancodes k).run events).Accounts scancodes k events := by
  induction events using List.reverseRecOn with
  | nil => exact accounts_start
  | append_singleton events event ih =>
      rw [Board.run, List.foldl_concat]
      exact ih.step event

theorem taken_step (b : Board σ) (event : IrqEvent) : (b.step event).taken = b.taken ∨
    ∃ line, b.arbiter.next = some line ∧ (b.step event).taken = b.taken ++ [line] := by
  cases event with
  | request line =>
      refine .inl ?_
      rw [Board.step, Board.request]
      split <;> rfl
  | key scancode => exact .inl rfl
  | enableIrq irq => exact .inl rfl
  | disableIrq irq => exact .inl rfl
  | interrupt =>
      rw [Board.step, Board.interrupt]
      cases b.arbiter.next with
      | none => exact .inl rfl
      | some line => exact .inr ⟨line, rfl, taken_serve⟩

/-- The second controller has been heard only after a call has enabled line 2. -/
theorem slave_run (scancodes : List (BitVec 8)) (k : Drivers σ) (events : List IrqEvent) :
    ∀ line ∈ ((start scancodes k).run events).taken, 8 ≤ line → .enableIrq 2 ∈ events := by
  induction events using List.reverseRecOn with
  | nil => exact fun _ hmem => absurd hmem List.not_mem_nil
  | append_singleton events event ih =>
      intro line hmem hslave
      rw [Board.run, List.foldl_concat] at hmem
      obtain hsame | ⟨line', hnext, htaken⟩ := taken_step ((start scancodes k).run events) event
      · exact List.mem_append_left _ (ih line (hsame ▸ hmem) hslave)
      · obtain hold | hnew := List.mem_append.mp (htaken ▸ hmem)
        · exact List.mem_append_left _ (ih line hold hslave)
        · have hcascade := (deliverable_of_next hnext).2.2.2.2
          rw [← List.mem_singleton.mp hnew, (accounts_run scancodes k events).enabled] at hcascade
          exact List.mem_append_left _ (enable_mem_of_enabledAfter (hcascade hslave))

/-- A keyboard that has sent a byte before booting is never heard again. -/
structure Stuck (b : Board σ) : Prop where
  waiting : b.scancodes ≠ []
  unrequested : b.arbiter.pending 1 = false
  unheard : 1 ∉ b.taken

theorem Stuck.step (h : b.Stuck) (event : IrqEvent) : (b.step event).Stuck := by
  cases event with
  | request line =>
      rw [Board.step, Board.request]
      split
      · exact h
      · rename_i hother
        refine ⟨h.waiting, ?_, h.unheard⟩
        rw [Arbiter.pending_request, if_neg fun heq => hother (.inl heq.symm)]
        exact h.unrequested
  | key scancode =>
      rw [Board.step, Board.key, if_neg h.waiting]
      exact ⟨List.append_ne_nil_of_left_ne_nil h.waiting _, h.unrequested, h.unheard⟩
  | enableIrq irq => exact ⟨h.waiting, h.unrequested, h.unheard⟩
  | disableIrq irq => exact ⟨h.waiting, h.unrequested, h.unheard⟩
  | interrupt =>
      rw [Board.step, Board.interrupt]
      cases hnext : b.arbiter.next with
      | none => exact h
      | some line =>
          have hne : 1 ≠ line := by
            rintro rfl
            exact Bool.false_ne_true (h.unrequested.symm.trans (deliverable_of_next hnext).2.2.1)
          have hpending : (b.arbiter.request line false).pending 1 = false :=
            Arbiter.pending_request.trans ((if_neg hne).trans h.unrequested)
          have htaken : 1 ∉ b.taken ++ [line] := by
            rw [List.mem_append, List.mem_singleton]
            exact not_or.mpr ⟨h.unheard, hne⟩
          obtain rfl | rfl | hother : line = 0 ∨ line = 1 ∨ 2 ≤ line := by omega
          · exact ⟨h.waiting, hpending, htaken⟩
          · exact absurd rfl hne
          · obtain ⟨n, rfl⟩ := Nat.exists_eq_add_of_le' hother
            exact ⟨h.waiting, hpending, htaken⟩

theorem Stuck.run (h : b.Stuck) (events : List IrqEvent) : (b.run events).Stuck := by
  induction events generalizing b with
  | nil => exact h
  | cons event events ih => exact ih (h.step event)

/-- How many interrupts there are to take at most. -/
def backlog (b : Board σ) : Nat :=
  ((Finset.range 16).filter fun n => n ≠ 1 ∧ b.arbiter.pending n = true).card + b.scancodes.length

theorem backlog_le (b : Board σ) : b.backlog ≤ 15 + b.scancodes.length := by
  refine Nat.add_le_add_right ?_ _
  have hsubset : ((Finset.range 16).filter fun n => n ≠ 1 ∧ b.arbiter.pending n = true) ⊆
      (Finset.range 16).erase 1 := fun n hn => by
    obtain ⟨hrange, hne, -⟩ := Finset.mem_filter.mp hn
    exact Finset.mem_erase.mpr ⟨hne, hrange⟩
  exact (Finset.card_le_card hsubset).trans (by decide)

theorem backlog_serve (hline : line < 16) (hpending : b.arbiter.pending line = true)
    (hwaiting : b.arbiter.pending 1 = true → b.scancodes ≠ []) :
    (b.serve line).backlog < b.backlog := by
  have hsubset : ((Finset.range 16).filter fun n => n ≠ 1 ∧ (b.serve line).arbiter.pending n = true) ⊆
      (Finset.range 16).filter fun n => n ≠ 1 ∧ b.arbiter.pending n = true := by
    intro n hn
    rw [Finset.mem_filter] at hn ⊢
    obtain ⟨hrange, hne, hserved⟩ := hn
    rw [pending_serve hne] at hserved
    exact ⟨hrange, hne, (ite_eq_iff'.mp hserved).2 fun heq => by simp [heq] at hserved⟩
  rw [backlog, backlog]
  by_cases hone : line = 1
  · subst hone
    have hshorter : (b.serve 1).scancodes.length < b.scancodes.length := by
      obtain ⟨scancode, rest, hscancodes⟩ := List.exists_cons_of_ne_nil (hwaiting hpending)
      rw [show (b.serve 1).scancodes = rest from congrArg List.tail hscancodes, hscancodes]
      exact Nat.lt_succ_self _
    exact Nat.add_lt_add_of_le_of_lt (Finset.card_le_card hsubset) hshorter
  · have hscancodes : (b.serve line).scancodes = b.scancodes := by
      obtain rfl | rfl | hother : line = 0 ∨ line = 1 ∨ 2 ≤ line := by omega
      · rfl
      · exact absurd rfl hone
      · rw [serve_of_two_le hother]
    rw [hscancodes]
    refine Nat.add_lt_add_right (Finset.card_lt_card ?_) _
    refine (Finset.ssubset_iff_of_subset hsubset).mpr ⟨line, ?_, ?_⟩
    · exact Finset.mem_filter.mpr ⟨Finset.mem_range.mpr hline, hone, hpending⟩
    · rw [Finset.mem_filter, pending_serve hone, if_pos rfl]
      exact fun hmem => Bool.false_ne_true hmem.2.2

/-- Each interrupt takes one line, and leaves the others as they are. -/
theorem exists_drained (hwaiting : b.arbiter.pending 1 = true → b.scancodes ≠ []) :
    ∃ n ≤ b.backlog, ∃ taken, (b.run (List.replicate n .interrupt)).arbiter.next = none ∧
      (b.run (List.replicate n .interrupt)).taken = b.taken ++ taken ∧
      ∀ line ∈ Arbiter.order, b.arbiter.deliverable line = true → line ∈ taken := by
  induction hb : b.backlog using Nat.strong_induction_on generalizing b with
  | _ m ih =>
  cases hnext : b.arbiter.next with
  | none =>
      refine ⟨0, Nat.zero_le _, [], hnext, (List.append_nil _).symm, fun line hmem hline => ?_⟩
      exact absurd hline (List.find?_eq_none.mp hnext line hmem)
  | some line =>
      obtain ⟨hlt, -, hpending, -, -⟩ := deliverable_of_next hnext
      have hless := backlog_serve hlt hpending hwaiting
      obtain ⟨n, hn, taken, hdrained, htaken, hall⟩ :=
        ih _ (hb ▸ hless) (waiting_serve hwaiting) rfl
      have hrun : b.run (List.replicate (n + 1) .interrupt) =
          (b.serve line).run (List.replicate n .interrupt) := by
        rw [List.replicate_succ, Board.run, List.foldl_cons, Board.step, Board.interrupt, hnext]
        rfl
      refine ⟨n + 1, by omega, line :: taken, hrun ▸ hdrained, ?_, fun line' hmem hline' => ?_⟩
      · rw [hrun, htaken, taken_serve, List.append_assoc, List.singleton_append]
      · by_cases heq : line' = line
        · rw [heq]
          exact List.mem_cons_self
        · refine List.mem_cons_of_mem line (hall line' hmem ?_)
          rw [Arbiter.deliverable, pending_serve_of_ne heq, enabled_serve]
          exact hline'

end Board

namespace Irqs

/-- **Every interrupt once.** However requests, keys, interrupts and calls of `pic_enable_irq` and
`pic_disable_irq` follow each other after booting with a frequency other than 0: if the callback of the
timer returns, the handler never halts the processor, it leaves no interrupt in service, the ticks and the
calls of the callback are the interrupts of the timer, the keyboard driver has been given the bytes that the
keyboard has sent, in order and one for each of its interrupts, and no interrupt of another device is taken
more often than it was requested. -/
theorem every_interrupt_once (c : Chipset) (hreturns : k.CallbackReturns) (hfrequency : frequency ≠ 0)
    (events : List IrqEvent) : ∃ m, bootRun c k frequency events = some m ∧
      m.chipset.pics.master.isr = 0 ∧ m.chipset.pics.slave.isr = 0 ∧
      m.drivers.timerTicks = k.timerTicks + BitVec.ofNat 64 (m.taken.count 0) ∧
      m.drivers.others = k.calledBack^[m.taken.count 0] k.others ∧
      (∃ handled, handled ++ m.chipset.scancodes = c.scancodes ++ sentScancodes events ∧
        handled.length = m.taken.count 1 ∧
        m.drivers.keyboard = handled.foldl Keyboard.keyboardHandler k.keyboard.keyboardInit) ∧
      ∀ n : Fin 16, n ≠ 1 → m.taken.count n.val ≤ events.count (.request n) := by
  obtain ⟨m, hrun, hfollows⟩ := follows_bootRun c hreturns hfrequency events
  have h := Board.accounts_run c.scancodes k events
  refine ⟨m, hrun, hfollows.pics.service.1, hfollows.pics.service.2, ?_⟩
  rw [hfollows.taken, hfollows.drivers, hfollows.scancodes]
  exact ⟨h.ticks, h.others, h.keys, fun n hn => (Nat.le_add_right _ _).trans (h.requests n hn)⟩

/-- The callback counts, and returns. -/
def countingDrivers : Drivers Nat :=
  ⟨0, some fun n => some (n + 1), ⟨fun _ => 0, 0, 0, ⟨false, false, false, false, false⟩⟩, 0⟩

theorem every_interrupt_once_counting : ∃ m, bootRun firmwareChipset countingDrivers timerFrequency
    [.request 0, .interrupt, .key 0x1E, .interrupt, .request 0, .interrupt] = some m ∧
      m.taken.count 0 = 2 ∧ m.drivers.others = 2 := by
  have hreturns : countingDrivers.CallbackReturns := by
    rintro callback ⟨⟩ others
    exact Option.some_ne_none _
  obtain ⟨m, hrun, -, -, -, hothers, -⟩ := every_interrupt_once firmwareChipset hreturns
    (show timerFrequency ≠ 0 by decide)
    [.request 0, .interrupt, .key 0x1E, .interrupt, .request 0, .interrupt]
  have htaken : (bootRun firmwareChipset countingDrivers timerFrequency
      [.request 0, .interrupt, .key 0x1E, .interrupt, .request 0, .interrupt]).map
        (fun m => m.taken.count 0) = some 2 := by decide +kernel
  rw [hrun, Option.map_some, Option.some_inj] at htaken
  rw [htaken] at hothers
  exact ⟨m, hrun, htaken, hothers⟩

/-- The request register of a line. -/
def requested (m : Irqs σ) (line : Nat) : Bool :=
  if line < 8 then m.chipset.pics.master.irr.getLsbD line else m.chipset.pics.slave.irr.getLsbD (line - 8)

theorem Follows.requested {m : Irqs σ} {b : Board σ} (h : m.Follows b) (hline : line < 16)
    (hne : line ≠ 2) : m.requested line = b.arbiter.pending line := by
  rw [Irqs.requested]
  split
  · rename_i hmaster
    exact h.pics.masterRequests line hmaster hne
  · rename_i hslave
    rw [h.pics.slaveRequests (line - 8) (by omega), Nat.add_sub_cancel' (by omega)]

/-- **What interrupts.** After every run the next interrupt is the first, in the order of the priorities, of
those that are requested, that the calls of the drivers have left enabled and, if they are of the second
controller, for which these calls have left line 2 enabled as well. Booting leaves line 2 disabled. -/
theorem interrupt_taken_iff (c : Chipset) (hreturns : k.CallbackReturns) (hfrequency : frequency ≠ 0)
    (events : List IrqEvent) : ∃ m m', bootRun c k frequency events = some m ∧
      m.step .interrupt = some m' ∧
      m'.taken = m.taken ++ (Arbiter.order.find? fun line => m.requested line &&
        enabledAfter events line && (decide (line < 8) || enabledAfter events 2)).toList := by
  obtain ⟨m, hrun, hfollows⟩ := follows_bootRun c hreturns hfrequency events
  have haccounts := Board.accounts_run c.scancodes k events
  obtain ⟨m', hstep, hfollows'⟩ := hfollows.step (hreturns.congr haccounts.callback) .interrupt
  refine ⟨m, m', hrun, hstep, ?_⟩
  have horder : ∀ n ∈ Arbiter.order, n < 16 ∧ n ≠ 2 := by decide
  have hnext : Arbiter.order.find? (fun line => m.requested line && enabledAfter events line &&
      (decide (line < 8) || enabledAfter events 2)) =
      ((Board.start c.scancodes k).run events).arbiter.next := by
    refine List.find?_congr fun line hmem => ?_
    rw [Arbiter.deliverable, haccounts.enabled,
      hfollows.requested (horder line hmem).1 (horder line hmem).2]
  rw [hnext, hfollows'.taken, hfollows.taken, Board.step, Board.interrupt]
  cases ((Board.start c.scancodes k).run events).arbiter.next with
  | none => exact (List.append_nil _).symm
  | some line => exact Board.taken_serve

theorem zeroDrivers_callbackReturns : zeroDrivers.CallbackReturns := fun _ hcallback => by
  cases hcallback

/-- The timer goes before the keyboard. -/
theorem interrupt_taken_iff_timer : ∃ m m', bootRun firmwareChipset zeroDrivers timerFrequency
    [.key 0x1E, .request 0] = some m ∧ m.step .interrupt = some m' ∧ m'.taken = m.taken ++ [0] := by
  obtain ⟨m, m', hrun, hstep, htaken⟩ := interrupt_taken_iff firmwareChipset
    zeroDrivers_callbackReturns (show timerFrequency ≠ 0 by decide) [.key 0x1E, .request 0]
  have hfirst : (bootRun firmwareChipset zeroDrivers timerFrequency [.key 0x1E, .request 0]).map
      (fun m => Arbiter.order.find? fun line => m.requested line &&
        enabledAfter [.key 0x1E, .request 0] line &&
          (decide (line < 8) || enabledAfter [.key 0x1E, .request 0] 2)) = some (some 0) := by
    decide +kernel
  rw [hrun, Option.map_some, Option.some_inj] at hfirst
  rw [hfirst] at htaken
  exact ⟨m, m', hrun, hstep, htaken⟩

/-- **The second controller is not heard.** Whatever is requested and enabled, no interrupt of the lines 8 to
15 is ever taken unless a call enables line 2: booting masks it, and enabling a line of the second
controller does not. -/
theorem slave_taken (c : Chipset) (k : Drivers σ) (hfrequency : frequency ≠ 0) {m : Irqs σ}
    (hrun : bootRun c k frequency events = some m) (htwo : .enableIrq 2 ∉ events) :
    ∀ line ∈ m.taken, line < 8 := by
  have hfollows := follows_of_bootRun hfrequency hrun
  intro line hmem
  rw [hfollows.taken] at hmem
  by_contra hslave
  exact htwo (Board.slave_run c.scancodes k events line hmem (Nat.le_of_not_lt hslave))

/-- The network card asks for an interrupt of line 11, which is enabled. -/
theorem slave_taken_networkCard : ∃ m, bootRun firmwareChipset zeroDrivers timerFrequency
    [.enableIrq 11, .request 11, .interrupt] = some m ∧ ∀ line ∈ m.taken, line < 8 := by
  have hfrequency : timerFrequency ≠ 0 := by decide
  obtain ⟨m, hrun, -⟩ := follows_bootRun firmwareChipset zeroDrivers_callbackReturns hfrequency
    [.enableIrq 11, .request 11, .interrupt]
  exact ⟨m, hrun, slave_taken firmwareChipset zeroDrivers hfrequency hrun (by decide)⟩

/-- **No request is left behind.** In every state that is reached, after as many interrupts as there are
requests and unread bytes at most, there is none to take any more, and each line that had a request which
could be delivered has been served. -/
theorem requests_drain (c : Chipset) (hreturns : k.CallbackReturns) (hfrequency : frequency ≠ 0)
    (events : List IrqEvent) : ∃ m, bootRun c k frequency events = some m ∧
      ∃ n ≤ 15 + m.chipset.scancodes.length, ∃ m' taken,
        m.run (List.replicate n .interrupt) = some m' ∧ m'.chipset.pics.accept = none ∧
          m'.taken = m.taken ++ taken ∧
          ∀ line < 16, line ≠ 2 → m.requested line = true → enabledAfter events line = true →
            (8 ≤ line → enabledAfter events 2 = true) → line ∈ taken := by
  obtain ⟨m, hrun, hfollows⟩ := follows_bootRun c hreturns hfrequency events
  have haccounts := Board.accounts_run c.scancodes k events
  obtain ⟨n, hn, taken, hnone, htaken, hall⟩ := Board.exists_drained haccounts.waiting
  obtain ⟨m', hdrain, hdrained⟩ :=
    hfollows.run (hreturns.congr haccounts.callback) (List.replicate n .interrupt)
  refine ⟨m, hrun, n, ?_, m', taken, hdrain, hdrained.pics.accept_none hnone, ?_, ?_⟩
  · rw [hfollows.scancodes]
    exact hn.trans (Board.backlog_le _)
  · rw [hdrained.taken, htaken, hfollows.taken]
  · intro line hline hne hrequested henabled hcascade
    have horder : ∀ n < 16, n ≠ 2 → n ∈ Arbiter.order := by decide
    refine hall line (horder line hline hne) ?_
    rw [Arbiter.deliverable, haccounts.enabled, ← hfollows.requested hline hne, hrequested, henabled,
      Bool.true_and, Bool.true_and, Bool.or_eq_true, decide_eq_true_eq]
    by_cases hmaster : line < 8
    · exact .inl hmaster
    · exact .inr (hcascade (Nat.le_of_not_lt hmaster))

/-- The timer and the keyboard wait. -/
theorem requests_drain_two : ∃ m, bootRun firmwareChipset zeroDrivers timerFrequency
    [.request 0, .key 0x1E] = some m ∧ ∃ n ≤ 15 + m.chipset.scancodes.length, ∃ m' taken,
      m.run (List.replicate n .interrupt) = some m' ∧ m'.taken = m.taken ++ taken ∧
        0 ∈ taken ∧ 1 ∈ taken := by
  obtain ⟨m, hrun, n, hn, m', taken, hdrain, -, htaken, hall⟩ := requests_drain firmwareChipset
    zeroDrivers_callbackReturns (show timerFrequency ≠ 0 by decide) [.request 0, .key 0x1E]
  have hrequested : (bootRun firmwareChipset zeroDrivers timerFrequency [.request 0, .key 0x1E]).map
      (fun m => (m.requested 0, m.requested 1)) = some (true, true) := by decide +kernel
  rw [hrun, Option.map_some, Option.some_inj, Prod.mk.injEq] at hrequested
  exact ⟨m, hrun, n, hn, m', taken, hdrain, htaken,
    hall 0 (by decide) (by decide) hrequested.1 (by decide) (by decide),
    hall 1 (by decide) (by decide) hrequested.2 (by decide) (by decide)⟩

/-- **A byte before booting silences the keyboard.** An interrupt of the keyboard can be taken in some run if
and only if it had sent nothing that was not read before booting. -/
theorem keyboard_heard_iff (c : Chipset) (k : Drivers σ) (hfrequency : frequency ≠ 0) :
    (∃ events m, bootRun c k frequency events = some m ∧ 1 ∈ m.taken) ↔ c.scancodes = [] := by
  constructor
  · rintro ⟨events, m, hrun, hmem⟩
    have hfollows := follows_of_bootRun hfrequency hrun
    by_contra hscancodes
    have hstuck : (Board.start c.scancodes k).Stuck := ⟨hscancodes, rfl, List.not_mem_nil⟩
    exact (hstuck.run events).unheard (hfollows.taken ▸ hmem)
  · intro hempty
    have hpressed := (follows_booted c k frequency).key 0x1E
    have hnext : ((Board.start c.scancodes k).key 0x1E).arbiter.next = some 1 := by
      rw [hempty]
      exact (by decide : (bootArbiter.request 1 true).next = some 1)
    obtain ⟨m, hstep, hfollows⟩ := hpressed.interrupt fun htimer => by cases hnext.symm.trans htimer
    refine ⟨[.key 0x1E, .interrupt], m, ?_, ?_⟩
    · rw [bootRun_eq hfrequency]
      exact congrArg (fun o => o >>= pure) hstep
    · rw [hfollows.taken, Board.interrupt, hnext]
      exact List.mem_singleton_self 1

theorem keyboard_heard_iff_firmware : ∃ events m,
    bootRun firmwareChipset zeroDrivers timerFrequency events = some m ∧ 1 ∈ m.taken :=
  (keyboard_heard_iff firmwareChipset zeroDrivers (show timerFrequency ≠ 0 by decide)).mpr rfl

end Irqs

end SimpleOs
