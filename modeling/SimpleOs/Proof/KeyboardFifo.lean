import SimpleOs.Drivers.Keyboard

/-!
# The keyboard buffer is a queue

The interrupt handler moves the head, the consumer moves the tail, and nobody takes a lock. What the
consumer has read of the head can be out of date, but the queue only grows behind its back: once it has
seen a character, there is one, and the first one stays the first until the tail is moved. The last
free cell is never used, so a full ring is not taken for an empty one.
-/

namespace SimpleOs

variable {k : Keyboard} {q : List (BitVec 8)} {c : BitVec 8} {s : KeyboardSystem}
  {phase : Phase} {call : KeyboardCall} {operands : Operands} {headFirst : Bool}
  {events : List KeyboardEvent}

namespace Keyboard

/-- The characters between tail and head. -/
def contents (k : Keyboard) : List (BitVec 8) :=
  Ring.contents k.keyBuffer keyboardBufferSize k.bufferTail
    ((k.bufferHead + keyboardBufferSize - k.bufferTail) % keyboardBufferSize)

structure Holds (k : Keyboard) (q : List (BitVec 8)) : Prop where
  tail_lt : k.bufferTail < keyboardBufferSize
  length_lt : q.length < keyboardBufferSize
  head : k.bufferHead = (k.bufferTail + q.length) % keyboardBufferSize
  cells : Ring.contents k.keyBuffer keyboardBufferSize k.bufferTail q.length = q

theorem Holds.contents_eq (h : k.Holds q) : k.contents = q := by
  rw [contents, h.head, Ring.length_sub_mod h.tail_lt h.length_lt, h.cells]

theorem Holds.head_ne_tail (h : k.Holds q) (hq : q ≠ []) : k.bufferHead ≠ k.bufferTail := by
  have hpos := List.length_pos_of_ne_nil hq
  have hlt := h.length_lt
  have htail := h.tail_lt
  rw [h.head]
  rw [keyboardBufferSize] at *
  omega

theorem Holds.ne_nil (h : k.Holds q) (hne : k.bufferHead ≠ k.bufferTail) : q ≠ [] := by
  rintro rfl
  apply hne
  rw [h.head, List.length_nil, Nat.add_zero, Nat.mod_eq_of_lt h.tail_lt]

theorem Holds.next_eq_tail_iff (h : k.Holds q) :
    (k.bufferHead + 1) % keyboardBufferSize = k.bufferTail ↔ q.length = 255 := by
  have hlt := h.length_lt
  have htail := h.tail_lt
  rw [h.head]
  rw [keyboardBufferSize] at *
  omega

theorem bufferPut_of_full (h : k.Holds q) (hfull : q.length = 255) (c : BitVec 8) :
    k.bufferPut c = k :=
  if_neg (not_not.mpr (h.next_eq_tail_iff.mpr hfull))

theorem bufferPut_eq (h : k.Holds q) (hroom : q.length ≠ 255) (c : BitVec 8) : k.bufferPut c =
    { k with
      keyBuffer := Function.update k.keyBuffer k.bufferHead c
      bufferHead := (k.bufferHead + 1) % keyboardBufferSize } :=
  if_pos fun heq => hroom (h.next_eq_tail_iff.mp heq)

theorem Holds.bufferPut (h : k.Holds q) (hroom : q.length ≠ 255) (c : BitVec 8) :
    (k.bufferPut c).Holds (q ++ [c]) := by
  have hlength : q.length + 1 < keyboardBufferSize := by
    have hlt := h.length_lt
    rw [keyboardBufferSize] at *
    omega
  rw [bufferPut_eq h hroom]
  refine ⟨h.tail_lt, ?_, ?_, ?_⟩
  · rwa [List.length_append, List.length_singleton]
  · change (k.bufferHead + 1) % keyboardBufferSize = _
    rw [h.head, Nat.mod_add_mod, List.length_append, List.length_singleton, Nat.add_assoc]
  · change Ring.contents (Function.update k.keyBuffer k.bufferHead c) _ _ _ = _
    rw [h.head, List.length_append, List.length_singleton, Ring.contents_push h.length_lt, h.cells]

theorem Holds.advance (h : k.Holds (c :: q)) :
    { k with bufferTail := (k.bufferTail + 1) % keyboardBufferSize }.Holds q := by
  have hcells := h.cells
  rw [List.length_cons, Ring.contents_cons, List.cons.injEq] at hcells
  refine ⟨Nat.mod_lt _ (by decide), Nat.lt_of_succ_lt h.length_lt, ?_, hcells.2⟩
  change k.bufferHead = ((k.bufferTail + 1) % keyboardBufferSize + q.length) % keyboardBufferSize
  rw [h.head, Nat.mod_add_mod, List.length_cons, Nat.add_assoc, Nat.add_comm 1]

theorem Holds.char_tail (h : k.Holds (c :: q)) : k.keyBuffer k.bufferTail = c := by
  have hcells := h.cells
  rw [List.length_cons, Ring.contents_cons, List.cons.injEq, Nat.mod_eq_of_lt h.tail_lt] at hcells
  exact hcells.1

/-- Whether `buffer_put` stores the character shows in the head. -/
theorem bufferHead_bufferPut_ne_iff (h : k.Holds q) :
    (k.bufferPut c).bufferHead ≠ k.bufferHead ↔ q.length < 255 := by
  by_cases hfull : q.length = 255
  · rw [bufferPut_of_full h hfull]
    exact iff_of_false (fun hne => hne rfl) (by omega)
  · rw [bufferPut_eq h hfull]
    have hlt := h.length_lt
    have hhead := h.head
    rw [keyboardBufferSize] at *
    refine iff_of_true (fun heq => ?_) (by omega)
    change (k.bufferHead + 1) % 256 = k.bufferHead at heq
    omega

end Keyboard

namespace KeyboardSystem

/-- What the comparison of `buffer_get` may already have read. -/
def Operands.Differ (k : Keyboard) : Operands → Prop
  | .none => True
  | .head value => value ≠ k.bufferTail
  | .tail value => value = k.bufferTail

/-- What the comparison of `keyboard_available` may already have read: the head may have moved since. -/
def Operands.Seen (k : Keyboard) (q : List (BitVec 8)) : Operands → Prop
  | .none => True
  | .head value => value ≠ k.bufferTail → q ≠ []
  | .tail value => value = k.bufferTail

/-- What the consumer knows of the characters in the buffer. -/
def Knows (k : Keyboard) (q : List (BitVec 8)) : Phase → Prop
  | .available operands => Operands.Seen k q operands
  | .get operands => q ≠ [] ∧ Operands.Differ k operands
  | .index => q ≠ []
  | .char tail => q ≠ [] ∧ tail = k.bufferTail
  | .next c => q.head? = some c
  | .advance c tail => q.head? = some c ∧ tail = k.bufferTail

/-- The accesses up to the one that hands over the next character, if there is one. -/
def Phase.left : Phase → Nat
  | .available .none => 8
  | .available _ => 7
  | .get .none => 6
  | .get _ => 5
  | .index => 4
  | .char _ => 3
  | .next _ => 2
  | .advance .. => 1

theorem Phase.left_pos : 0 < Phase.left phase := by
  unfold Phase.left
  split <;> decide

theorem Phase.left_le : Phase.left phase ≤ 8 := by
  unfold Phase.left
  split <;> decide

/-- The consumer does not remember the head of an empty buffer. -/
def Phase.Hopeful (k : Keyboard) : Phase → Prop
  | .available (.head value) => value ≠ k.bufferTail
  | _ => True

theorem Phase.Hopeful.congr {k' : Keyboard} (h : Phase.Hopeful k phase)
    (htail : k'.bufferTail = k.bufferTail) : Phase.Hopeful k' phase := by
  unfold Phase.Hopeful at *
  rwa [htail]

/-- The consumer learns nothing wrong from characters that arrive. -/
theorem Knows.append {k' : Keyboard} (h : Knows k q phase) (htail : k'.bufferTail = k.bufferTail)
    (more : List (BitVec 8)) : Knows k' (q ++ more) phase := by
  have hne : q ≠ [] → q ++ more ≠ [] := fun hq => List.append_ne_nil_of_left_ne_nil hq more
  have hhead : ∀ c, q.head? = some c → (q ++ more).head? = some c := fun c hc => by
    rw [List.head?_append, hc, Option.some_or]
  cases phase with
  | available operands =>
      cases operands with
      | none => trivial
      | head value =>
          intro hvalue
          rw [htail] at hvalue
          exact hne (h hvalue)
      | tail value => exact Eq.trans h htail.symm
  | get operands =>
      refine ⟨hne h.1, ?_⟩
      cases operands with
      | none => trivial
      | head value =>
          intro hvalue
          exact h.2 (hvalue.trans htail)
      | tail value => exact Eq.trans h.2 htail.symm
  | index => exact hne h
  | char tail => exact ⟨hne h.1, h.2.trans htail.symm⟩
  | next c => exact hhead c h
  | advance c tail => exact ⟨hhead c h.1, h.2.trans htail.symm⟩

structure Invariant (s : KeyboardSystem) (q : List (BitVec 8)) : Prop where
  holds : s.keyboard.Holds q
  accepted : s.accepted = s.returned ++ q
  knows : ∀ call phase, s.consumer = some (call, phase) → Knows s.keyboard q phase

theorem Invariant.start (k : Keyboard) : (start k).Invariant [] where
  holds := ⟨show 0 < 256 by decide, show 0 < 256 by decide, rfl, rfl⟩
  accepted := rfl
  knows := fun _ _ hconsumer => by cases hconsumer

theorem Invariant.arrive (h : s.Invariant q) {k' : Keyboard} {more : List (BitVec 8)}
    (hholds : k'.Holds (q ++ more)) (htail : k'.bufferTail = s.keyboard.bufferTail) :
    { s with keyboard := k', accepted := s.accepted ++ more }.Invariant (q ++ more) where
  holds := hholds
  accepted := by rw [h.accepted, List.append_assoc]
  knows := fun call phase hconsumer => (h.knows call phase hconsumer).append htail more

/-- An interrupt puts characters behind those that are there, and the consumer does not notice. -/
theorem Invariant.scancode (h : s.Invariant q) (value : BitVec 8) :
    ∃ more, (s.step (.scancode value)).Invariant (q ++ more) ∧
      (s.step (.scancode value)).keyboard.bufferTail = s.keyboard.bufferTail := by
  have hmodifiers : ∀ m, { s.keyboard with modifiers := m }.Holds q := fun m =>
    ⟨h.holds.tail_lt, h.holds.length_lt, h.holds.head, h.holds.cells⟩
  cases hkey : s.keyboard.modifiers.keyPress value with
  | mk m pressed =>
      cases pressed with
      | none =>
          have hstep : s.step (.scancode value) =
              { s with
                keyboard := { s.keyboard with modifiers := m }
                accepted := s.accepted ++ [] } := by
            simp only [step, Keyboard.keyboardHandler, hkey, List.append_nil]
          rw [hstep]
          refine ⟨[], h.arrive ?_ rfl, rfl⟩
          rw [List.append_nil]
          exact hmodifiers m
      | some c =>
          have hstored := Keyboard.bufferHead_bufferPut_ne_iff (c := c) h.holds
          by_cases hfull : q.length = 255
          · have hstep : s.step (.scancode value) =
                { s with
                  keyboard := { s.keyboard with modifiers := m }
                  accepted := s.accepted ++ [] } := by
              simp only [step, Keyboard.keyboardHandler, hkey, List.append_nil,
                Keyboard.bufferPut_of_full (hmodifiers m) hfull]
              rw [if_neg (by rw [hstored]; omega)]
            rw [hstep]
            refine ⟨[], h.arrive ?_ rfl, rfl⟩
            rw [List.append_nil]
            exact hmodifiers m
          · have hlt := h.holds.length_lt
            have hstep : s.step (.scancode value) =
                { s with
                  keyboard := { s.keyboard with modifiers := m }.bufferPut c
                  accepted := s.accepted ++ [c] } := by
              simp only [step, Keyboard.keyboardHandler, hkey]
              rw [if_pos (hstored.mpr (by rw [keyboardBufferSize] at hlt; omega))]
            have htail : ({ s.keyboard with modifiers := m }.bufferPut c).bufferTail =
                s.keyboard.bufferTail := by
              rw [Keyboard.bufferPut_eq (hmodifiers m) hfull]
            rw [hstep]
            exact ⟨[c], h.arrive ((hmodifiers m).bufferPut hfull c) htail, htail⟩

theorem Invariant.goOn (h : s.Invariant q) {consumer : Option (KeyboardCall × Phase)}
    (hknows : ∀ call phase, consumer = some (call, phase) → Knows s.keyboard q phase) :
    { s with consumer := consumer }.Invariant q :=
  ⟨h.holds, h.accepted, hknows⟩

theorem Invariant.goTo (h : s.Invariant q) (hknows : Knows s.keyboard q phase) :
    { s with consumer := some (call, phase) }.Invariant q := by
  apply h.goOn
  rintro call' phase' hconsumer
  obtain ⟨-, rfl⟩ := Prod.mk.inj (Option.some_inj.mp hconsumer)
  exact hknows

/-- The first character is handed over when the tail has moved past it. -/
theorem Invariant.receive (h : s.Invariant (c :: q)) (call : KeyboardCall) :
    ({ s with
      keyboard :=
        { s.keyboard with
          bufferTail := (s.keyboard.bufferTail + 1) % keyboardBufferSize } }.receive call c).Invariant
      q := by
  refine ⟨h.holds.advance, ?_, ?_⟩
  · change s.accepted = s.returned ++ [c] ++ q
    rw [h.accepted, List.append_assoc, List.singleton_append]
  · intro call' phase' hconsumer
    have hphase : phase' = .available .none := by
      cases call with
      | getchar => cases hconsumer
      | read n count =>
          simp only [KeyboardSystem.receive] at hconsumer
          split at hconsumer
          · exact (Prod.mk.inj (Option.some_inj.mp hconsumer)).2.symm
          · cases hconsumer
    rw [hphase]
    trivial

theorem Operands.Seen.compare (h : Operands.Seen k q operands) (hholds : k.Holds q)
    (headFirst : Bool) :
    (∀ next, compare k headFirst operands = .inl next → Operands.Seen k q next) ∧
      (compare k headFirst operands = .inr true → q ≠ []) := by
  cases operands with
  | none =>
      refine ⟨?_, fun heq => by cases heq⟩
      rintro next ⟨⟩
      cases headFirst with
      | true => exact hholds.ne_nil
      | false => exact rfl
  | head value =>
      refine ⟨fun next heq => (by cases heq), fun heq => h ?_⟩
      exact of_decide_eq_true (Sum.inr.inj heq)
  | tail value =>
      refine ⟨fun next heq => (by cases heq), fun heq => hholds.ne_nil ?_⟩
      have hvalue : value = k.bufferTail := h
      rw [← hvalue]
      exact of_decide_eq_true (Sum.inr.inj heq)

/-- `buffer_get` never finds the buffer empty. -/
theorem Operands.Differ.compare (h : Operands.Differ k operands) (hholds : k.Holds q) (hq : q ≠ [])
    (headFirst : Bool) :
    (∀ next, compare k headFirst operands = .inl next → Operands.Differ k next) ∧
      compare k headFirst operands ≠ .inr false := by
  cases operands with
  | none =>
      refine ⟨?_, fun heq => by cases heq⟩
      rintro next ⟨⟩
      cases headFirst with
      | true => exact hholds.head_ne_tail hq
      | false => exact rfl
  | head value =>
      refine ⟨fun next heq => (by cases heq), fun heq => ?_⟩
      exact of_decide_eq_false (Sum.inr.inj heq) h
  | tail value =>
      refine ⟨fun next heq => (by cases heq), fun heq => ?_⟩
      have hvalue : value = k.bufferTail := h
      rw [hvalue] at heq
      exact of_decide_eq_false (Sum.inr.inj heq) (hholds.head_ne_tail hq)

/-- `keyboard_getchar` looks again, `keyboard_read` returns. -/
def afterEmpty : KeyboardCall → Option (KeyboardCall × Phase)
  | .getchar => some (.getchar, .available .none)
  | .read .. => none

/-- The access leads on in the call: one access fewer is left, and a buffer that holds something stays
worth waiting for. -/
def LeadsOn (s : KeyboardSystem) (q : List (BitVec 8)) (call : KeyboardCall) (phase : Phase)
    (headFirst : Bool) : Prop :=
  ∃ phase', s.access headFirst = { s with consumer := some (call, phase') } ∧
    Knows s.keyboard q phase' ∧ Phase.left phase = Phase.left phase' + 1 ∧
    (q ≠ [] → Phase.Hopeful s.keyboard phase')

theorem Invariant.access_available {operands : Operands} (h : s.Invariant q)
    (hconsumer : s.consumer = some (call, .available operands)) (headFirst : Bool) :
    s.LeadsOn q call (.available operands) headFirst ∨
      ((q ≠ [] → ¬ Phase.Hopeful s.keyboard (.available operands)) ∧
        7 ≤ Phase.left (.available operands) ∧
        s.access headFirst = { s with consumer := afterEmpty call }) := by
  have hknows := h.knows call _ hconsumer
  obtain ⟨keyboard, consumer, accepted, returned⟩ := s
  obtain rfl : consumer = some (call, .available operands) := hconsumer
  obtain ⟨hnext, htrue⟩ := Operands.Seen.compare hknows h.holds headFirst
  cases operands with
  | none =>
      refine .inl ⟨_, rfl, hnext _ rfl, ?_, fun hne => ?_⟩
      · cases headFirst <;> rfl
      · cases headFirst with
        | true => exact h.holds.head_ne_tail hne
        | false => trivial
  | head value =>
      by_cases hvalue : value = keyboard.bufferTail
      · refine .inr ⟨fun _ hopeful => hopeful hvalue, Nat.le_refl 7, ?_⟩
        have hfound : compare keyboard headFirst (.head value) = .inr false :=
          congrArg Sum.inr (decide_eq_false (not_not.mpr hvalue))
        cases call <;> simp only [KeyboardSystem.access, hfound, afterEmpty]
      · have hfound : compare keyboard headFirst (.head value) = .inr true :=
          congrArg Sum.inr (decide_eq_true hvalue)
        exact .inl ⟨.get .none, by simp only [KeyboardSystem.access, hfound],
          ⟨htrue hfound, trivial⟩, rfl, fun _ => trivial⟩
  | tail value =>
      by_cases hhead : keyboard.bufferHead = value
      · refine .inr
          ⟨fun hne _ => h.holds.head_ne_tail hne (hhead.trans hknows), Nat.le_refl 7, ?_⟩
        have hfound : compare keyboard headFirst (.tail value) = .inr false :=
          congrArg Sum.inr (decide_eq_false (not_not.mpr hhead))
        cases call <;> simp only [KeyboardSystem.access, hfound, afterEmpty]
      · have hfound : compare keyboard headFirst (.tail value) = .inr true :=
          congrArg Sum.inr (decide_eq_true hhead)
        exact .inl ⟨.get .none, by simp only [KeyboardSystem.access, hfound],
          ⟨htrue hfound, trivial⟩, rfl, fun _ => trivial⟩

/-- `buffer_get` is only called on a buffer that holds something, so its own test does not fail. -/
theorem Invariant.access_get {operands : Operands} (h : s.Invariant q)
    (hconsumer : s.consumer = some (call, .get operands)) (headFirst : Bool) :
    s.LeadsOn q call (.get operands) headFirst := by
  obtain ⟨hne, hdiffer⟩ := h.knows call _ hconsumer
  obtain ⟨keyboard, consumer, accepted, returned⟩ := s
  obtain rfl : consumer = some (call, .get operands) := hconsumer
  obtain ⟨hnext, hfalse⟩ := Operands.Differ.compare hdiffer h.holds hne headFirst
  cases hcompare : compare keyboard headFirst operands with
  | inl next =>
      refine ⟨.get next, by simp only [KeyboardSystem.access, hcompare],
        ⟨hne, hnext next hcompare⟩, ?_, fun _ => trivial⟩
      cases operands with
      | none =>
          cases hcompare
          cases headFirst <;> rfl
      | head value => cases hcompare
      | tail value => cases hcompare
  | inr found =>
      obtain rfl : found = true := by
        cases found with
        | true => rfl
        | false => exact absurd hcompare hfalse
      refine ⟨.index, by simp only [KeyboardSystem.access, hcompare], hne, ?_, fun _ => trivial⟩
      cases operands with
      | none => cases hcompare
      | head value => rfl
      | tail value => rfl

/-- What one access of the consumer does: it comes closer to the next character, takes it, or finds that
there is none. -/
theorem Invariant.access_cases (h : s.Invariant q) (hconsumer : s.consumer = some (call, phase))
    (headFirst : Bool) :
    s.LeadsOn q call phase headFirst ∨
      (∃ c rest, q = c :: rest ∧ Phase.left phase = 1 ∧
        s.access headFirst =
          { s with
            keyboard :=
              { s.keyboard with
                bufferTail := (s.keyboard.bufferTail + 1) % keyboardBufferSize } }.receive call c) ∨
      ((q ≠ [] → ¬ Phase.Hopeful s.keyboard phase) ∧ 7 ≤ Phase.left phase ∧
        s.access headFirst = { s with consumer := afterEmpty call }) := by
  have hknows := h.knows call phase hconsumer
  cases phase with
  | available operands => exact (h.access_available hconsumer headFirst).imp_right .inr
  | get operands => exact .inl (h.access_get hconsumer headFirst)
  | index =>
      refine .inl ⟨.char s.keyboard.bufferTail, ?_, ⟨hknows, rfl⟩, rfl, fun _ => trivial⟩
      simp only [KeyboardSystem.access, hconsumer]
  | char tail =>
      obtain ⟨hne, rfl⟩ := hknows
      obtain ⟨c, rest, rfl⟩ := List.exists_cons_of_ne_nil hne
      refine .inl ⟨.next (s.keyboard.keyBuffer s.keyboard.bufferTail), ?_,
        congrArg some h.holds.char_tail.symm, rfl, fun _ => trivial⟩
      simp only [KeyboardSystem.access, hconsumer]
  | next c =>
      refine .inl ⟨.advance c s.keyboard.bufferTail, ?_, ⟨hknows, rfl⟩, rfl, fun _ => trivial⟩
      simp only [KeyboardSystem.access, hconsumer]
  | advance c tail =>
      obtain ⟨hhead, rfl⟩ := hknows
      obtain ⟨rest, rfl⟩ := List.head?_eq_some_iff.mp hhead
      refine .inr (.inl ⟨c, rest, rfl, rfl, ?_⟩)
      simp only [KeyboardSystem.access, hconsumer]

theorem Invariant.access (h : s.Invariant q) (headFirst : Bool) :
    ∃ q', (s.access headFirst).Invariant q' := by
  cases hconsumer : s.consumer with
  | none =>
      rw [show s.access headFirst = s by rw [KeyboardSystem.access, hconsumer]]
      exact ⟨q, h⟩
  | some current =>
      obtain ⟨call, phase⟩ := current
      obtain ⟨phase', heq, hknows, -⟩ | ⟨c, rest, rfl, -, heq⟩ | ⟨-, -, heq⟩ :=
        h.access_cases hconsumer headFirst
      · exact ⟨q, heq ▸ h.goTo hknows⟩
      · exact ⟨rest, heq ▸ h.receive call⟩
      · rw [heq]
        cases call with
        | getchar => exact ⟨q, h.goTo trivial⟩
        | read n count => exact ⟨q, h.goOn fun call phase hnone => by cases hnone⟩

theorem Invariant.step (h : s.Invariant q) (event : KeyboardEvent) :
    ∃ q', (s.step event).Invariant q' := by
  cases event with
  | scancode value =>
      obtain ⟨more, h', -⟩ := h.scancode value
      exact ⟨q ++ more, h'⟩
  | getchar =>
      simp only [KeyboardSystem.step]
      split
      · exact ⟨q, h.goTo trivial⟩
      · exact ⟨q, h⟩
  | read n =>
      simp only [KeyboardSystem.step]
      split
      · exact ⟨q, h.goTo trivial⟩
      · exact ⟨q, h⟩
  | access headFirst => exact h.access headFirst

theorem Invariant.run (h : s.Invariant q) (events : List KeyboardEvent) :
    ∃ q', (s.run events).Invariant q' := by
  induction events generalizing s q with
  | nil => exact ⟨q, h⟩
  | cons event events ih =>
      obtain ⟨q', h'⟩ := h.step event
      exact ih h'

/-- An access of the consumer or an interrupt: no new call. -/
def KeyboardEvent.InCall : KeyboardEvent → Prop
  | .scancode _ | .access _ => True
  | .getchar | .read _ => False

theorem inCall_cases {event : KeyboardEvent} (h : KeyboardEvent.InCall event) :
    (∃ value, event = .scancode value) ∨ ∃ headFirst, event = .access headFirst := by
  cases event with
  | scancode value => exact .inl ⟨value, rfl⟩
  | access headFirst => exact .inr ⟨headFirst, rfl⟩
  | getchar => exact h.elim
  | read n => exact h.elim

def KeyboardEvent.isAccess : KeyboardEvent → Bool
  | .access _ => true
  | _ => false

/-- The accesses of the consumer in `events`. -/
def accesses (events : List KeyboardEvent) : Nat := events.countP KeyboardEvent.isAccess

@[simp] theorem accesses_nil : accesses [] = 0 := rfl

@[simp] theorem accesses_access (headFirst : Bool) (events : List KeyboardEvent) :
    accesses (.access headFirst :: events) = accesses events + 1 :=
  List.countP_cons_of_pos rfl

/-- Interrupts do not call the driver's functions. -/
theorem run_of_none (hconsumer : s.consumer = none)
    (hevents : ∀ event ∈ events, KeyboardEvent.InCall event) :
    (s.run events).consumer = none ∧ (s.run events).returned = s.returned := by
  induction events generalizing s with
  | nil => exact ⟨hconsumer, rfl⟩
  | cons event events ih =>
      obtain ⟨hevent, hrest⟩ := List.forall_mem_cons.mp hevents
      obtain ⟨value, rfl⟩ | ⟨headFirst, rfl⟩ := inCall_cases hevent
      · exact ih hconsumer hrest
      · have hstep : s.step (.access headFirst) = s := by
          rw [KeyboardSystem.step, KeyboardSystem.access, hconsumer]
        rw [run, List.foldl_cons, hstep]
        exact ih hconsumer hrest

/-- While there is a character, `keyboard_getchar` comes closer to it with every access. -/
theorem Invariant.getchar (h : s.Invariant (c :: q))
    (hconsumer : s.consumer = some (.getchar, phase)) (hopeful : Phase.Hopeful s.keyboard phase)
    (hevents : ∀ event ∈ events, KeyboardEvent.InCall event)
    (hleft : Phase.left phase ≤ accesses events) :
    (s.run events).consumer = none ∧ (s.run events).returned = s.returned ++ [c] := by
  induction events generalizing s q phase with
  | nil => exact absurd hleft (Nat.not_le.mpr Phase.left_pos)
  | cons event events ih =>
      obtain ⟨hevent, hrest⟩ := List.forall_mem_cons.mp hevents
      obtain ⟨value, rfl⟩ | ⟨headFirst, rfl⟩ := inCall_cases hevent
      · obtain ⟨more, h', htail⟩ := h.scancode value
        exact ih h' hconsumer (hopeful.congr htail) hrest hleft
      · rw [accesses_access] at hleft
        change ((s.access headFirst).run events).consumer = none ∧
          ((s.access headFirst).run events).returned = _
        obtain ⟨phase', heq, hknows, hphase, hhopeful⟩ | ⟨c', rest, hcons, -, heq⟩ | ⟨hempty, -⟩ :=
          h.access_cases hconsumer headFirst
        · rw [heq]
          exact ih (h.goTo hknows) rfl (hhopeful (List.cons_ne_nil c q)) hrest (by omega)
        · obtain rfl : c = c' := (List.cons.inj hcons).1
          rw [heq]
          exact run_of_none rfl hrest
        · exact absurd hopeful (hempty (List.cons_ne_nil c q))

/-- It may have to forget first that the buffer was empty. -/
theorem Invariant.getchar_waiting (h : s.Invariant (c :: q))
    (hconsumer : s.consumer = some (.getchar, phase))
    (hevents : ∀ event ∈ events, KeyboardEvent.InCall event) (haccesses : 9 ≤ accesses events) :
    (s.run events).consumer = none ∧ (s.run events).returned = s.returned ++ [c] := by
  induction events generalizing s q with
  | nil => exact absurd haccesses (by decide)
  | cons event events ih =>
      obtain ⟨hevent, hrest⟩ := List.forall_mem_cons.mp hevents
      obtain ⟨value, rfl⟩ | ⟨headFirst, rfl⟩ := inCall_cases hevent
      · obtain ⟨more, h', -⟩ := h.scancode value
        exact ih h' hconsumer hrest haccesses
      · rw [accesses_access] at haccesses
        have hleft : ∀ {phase}, Phase.left phase ≤ accesses events := fun {phase} =>
          Nat.le_trans Phase.left_le (Nat.le_of_succ_le_succ haccesses)
        change ((s.access headFirst).run events).consumer = none ∧
          ((s.access headFirst).run events).returned = _
        obtain ⟨phase', heq, hknows, -, hhopeful⟩ | ⟨c', rest, hcons, -, heq⟩ | ⟨-, -, heq⟩ :=
          h.access_cases hconsumer headFirst
        · rw [heq]
          exact (h.goTo hknows).getchar rfl (hhopeful (List.cons_ne_nil c q)) hrest hleft
        · obtain rfl : c = c' := (List.cons.inj hcons).1
          rw [heq]
          exact run_of_none rfl hrest
        · rw [heq]
          have hhopeful' : Phase.Hopeful s.keyboard (.available .none) := trivial
          exact Invariant.getchar (h.goTo trivial) rfl hhopeful' hrest hleft

/-- The first of `q` and more is taken: what is left is the rest of `q` and more. -/
theorem exists_take_of_append_eq_cons {rest rest' : List (BitVec 8)} (h : q ++ rest = c :: rest') :
    ∃ q' rest'', rest' = q' ++ rest'' ∧
      ∀ m got, q'.take m <+: got → q.take (m + 1) <+: c :: got := by
  obtain ⟨rfl, -⟩ | ⟨q', rfl, rfl⟩ := List.append_eq_cons_iff.mp h
  · exact ⟨[], rest', rfl, fun m got _ => List.nil_prefix⟩
  · exact ⟨q', rest, rfl, fun m got hgot => List.cons_prefix_cons.mpr ⟨rfl, hgot⟩⟩

/-- `keyboard_read` goes on until it has what it was asked for or the buffer is empty: it does not miss
the characters `q` that are there already. -/
theorem Invariant.read {n count : Nat} {rest : List (BitVec 8)} (h : s.Invariant (q ++ rest))
    (hconsumer : s.consumer = some (.read n count, phase))
    (hopeful : q ≠ [] → Phase.Hopeful s.keyboard phase) (hcount : count < n)
    (hevents : ∀ event ∈ events, KeyboardEvent.InCall event)
    (hleft : Phase.left phase + 8 * (n - count - 1) ≤ accesses events) :
    ∃ got, (s.run events).consumer = none ∧ (s.run events).returned = s.returned ++ got ∧
      got.length ≤ n - count ∧ q.take (n - count) <+: got := by
  induction events generalizing s q rest phase count with
  | nil =>
      have hpos : 0 < Phase.left phase := Phase.left_pos
      exact absurd hleft (by rw [accesses_nil]; omega)
  | cons event events ih =>
      obtain ⟨hevent, hrest⟩ := List.forall_mem_cons.mp hevents
      obtain ⟨value, rfl⟩ | ⟨headFirst, rfl⟩ := inCall_cases hevent
      · obtain ⟨more, h', htail⟩ := h.scancode value
        rw [List.append_assoc] at h'
        exact ih h' hconsumer (fun hq => (hopeful hq).congr htail) hcount hrest hleft
      · rw [accesses_access] at hleft
        change ∃ got, ((s.access headFirst).run events).consumer = none ∧
          ((s.access headFirst).run events).returned = _ ∧ _
        obtain ⟨phase', heq, hknows, hphase, hhopeful⟩ | ⟨c, rest', hcons, hphase, heq⟩ |
          ⟨hempty, -, heq⟩ := h.access_cases hconsumer headFirst
        · rw [heq]
          exact ih (h.goTo hknows) rfl (fun hq => hhopeful (List.append_ne_nil_of_left_ne_nil hq rest))
            hcount hrest (by omega)
        · obtain ⟨q', rest'', rfl, hq⟩ := exists_take_of_append_eq_cons hcons
          rw [hcons] at h
          have hreceive := h.receive (.read n count)
          rw [heq]
          by_cases hmore : count + 1 < n
          · rw [KeyboardSystem.receive, if_pos hmore] at hreceive ⊢
            obtain ⟨got, hnone, hreturned, hlength, hprefix⟩ :=
              ih hreceive rfl (fun _ => trivial) hmore hrest (by simp only [Phase.left]; omega)
            refine ⟨c :: got, hnone, ?_, ?_, ?_⟩
            · rw [hreturned, List.append_assoc, List.singleton_append]
            · rw [List.length_cons]
              omega
            · rw [show n - count = n - (count + 1) + 1 by omega]
              exact hq _ _ hprefix
          · rw [KeyboardSystem.receive, if_neg hmore]
            have hlast : n - count = 0 + 1 := by omega
            refine ⟨[c], (run_of_none rfl hrest).1, (run_of_none rfl hrest).2, ?_, ?_⟩
            · rw [hlast, List.length_singleton]
            · rw [hlast]
              exact hq 0 [] List.nil_prefix
        · obtain rfl : q = [] := by
            by_contra hq
            exact hempty (List.append_ne_nil_of_left_ne_nil hq rest) (hopeful hq)
          rw [heq]
          obtain ⟨hnone, hreturned⟩ := run_of_none (s := { s with consumer := none }) rfl hrest
          refine ⟨[], hnone, ?_, Nat.zero_le _, ?_⟩
          · rw [List.append_nil]
            exact hreturned
          · rw [List.take_nil]

/-- What the two calls return that a consumer can make, whatever interrupts come between its accesses. -/
structure Delivers (s : KeyboardSystem) : Prop where
  /-- `keyboard_getchar` on a buffer that is not empty returns the first character. -/
  getchar : ∀ c q events, s.consumer = none → s.keyboard.contents = c :: q →
    (∀ event ∈ events, KeyboardEvent.InCall event) → 8 ≤ accesses events →
    ((s.step .getchar).run events).consumer = none ∧
      ((s.step .getchar).run events).returned = s.returned ++ [c]
  /-- One that waits returns the first character that comes. -/
  waiting : ∀ phase c q events, s.consumer = some (.getchar, phase) → s.keyboard.contents = c :: q →
    (∀ event ∈ events, KeyboardEvent.InCall event) → 9 ≤ accesses events →
    (s.run events).consumer = none ∧ (s.run events).returned = s.returned ++ [c]
  /-- `keyboard_read` returns the first characters, up to `n` of them. -/
  read : ∀ n events, s.consumer = none → (∀ event ∈ events, KeyboardEvent.InCall event) →
    8 * n ≤ accesses events →
    ∃ got, ((s.step (.read n)).run events).consumer = none ∧
      ((s.step (.read n)).run events).returned = s.returned ++ got ∧
      got.length ≤ n ∧ s.keyboard.contents.take n <+: got

theorem Invariant.delivers (h : s.Invariant q) : s.Delivers where
  getchar c rest events hconsumer hcontents hevents hleft := by
    obtain rfl : q = c :: rest := h.holds.contents_eq.symm.trans hcontents
    have hstep : s.step .getchar = { s with consumer := some (.getchar, .available .none) } :=
      if_pos hconsumer
    rw [hstep]
    have hhopeful : Phase.Hopeful s.keyboard (.available .none) := trivial
    exact Invariant.getchar (h.goTo trivial) rfl hhopeful hevents hleft
  waiting phase c rest events hconsumer hcontents hevents haccesses := by
    obtain rfl : q = c :: rest := h.holds.contents_eq.symm.trans hcontents
    exact h.getchar_waiting hconsumer hevents haccesses
  read n events hconsumer hevents hleft := by
    rw [h.holds.contents_eq]
    obtain hn | hn := Nat.eq_zero_or_pos n
    · have hstep : s.step (.read n) = s := if_neg fun hcall => Nat.ne_of_gt hcall.2 hn
      obtain ⟨hnone, hreturned⟩ := run_of_none hconsumer hevents
      rw [hstep, hn]
      refine ⟨[], hnone, ?_, Nat.le_refl 0, List.nil_prefix⟩
      rw [hreturned, List.append_nil]
    · have hstep : s.step (.read n) = { s with consumer := some (.read n 0, .available .none) } :=
        if_pos ⟨hconsumer, hn⟩
      have hstart : { s with consumer := some (.read n 0, .available .none) }.Invariant (q ++ []) := by
        rw [List.append_nil]
        exact h.goTo trivial
      rw [hstep]
      have hhopeful : q ≠ [] → Phase.Hopeful s.keyboard (.available .none) := fun _ => trivial
      exact Invariant.read hstart rfl hhopeful hn hevents
        (by simp only [Phase.left]; omega)

/-- **The keyboard buffer is a bounded queue.** Whatever the interleaving, the characters stored by
`buffer_put` are those the consumer has been given, followed by those in the buffer; one more is stored
exactly if fewer than 255 have not been taken; and the consumer gets them: `keyboard_getchar` the first
one, `keyboard_read` the first `n`. -/
theorem keyboard_refines_queue (k : Keyboard) (events : List KeyboardEvent) :
    ((start k).run events).accepted =
        ((start k).run events).returned ++ ((start k).run events).keyboard.contents ∧
      (∀ c, (((start k).run events).keyboard.bufferPut c).bufferHead ≠
          ((start k).run events).keyboard.bufferHead ↔
        ((start k).run events).accepted.length - ((start k).run events).returned.length < 255) ∧
      ((start k).run events).Delivers := by
  obtain ⟨q, hq⟩ := (Invariant.start k).run events
  refine ⟨?_, fun c => ?_, hq.delivers⟩
  · rw [hq.holds.contents_eq, hq.accepted]
  · rw [Keyboard.bufferHead_bufferPut_ne_iff hq.holds, hq.accepted, List.length_append,
      Nat.add_sub_cancel_left]

end KeyboardSystem

end SimpleOs
