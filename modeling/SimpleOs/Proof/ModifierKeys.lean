import SimpleOs.Lib.Prefix
import SimpleOs.Drivers.Keyboard

/-!
# Modifiers and the keys that are held

The driver has one flag for each kind of modifier and is told of the keys one byte at a time. Control and
Alt are one key each, and their flags follow them. The two shift keys share a flag, which is cleared by
whichever of them is released first.
-/

namespace SimpleOs

/-- A key, by the code of scancode set 1 that it sends when it goes down. No key has the code `0x60`:
with the bit for a release it would be the prefix. -/
structure PhysicalKey where
  extended : Bool
  code : BitVec 8
  code_lt : code.toNat < 0x80
  code_ne : code ≠ 0x60
deriving DecidableEq

inductive KeyEvent where
  | press (key : PhysicalKey)
  | again (key : PhysicalKey)
  | release (key : PhysicalKey)
deriving DecidableEq

def KeyEvent.key : KeyEvent → PhysicalKey
  | .press key => key
  | .again key => key
  | .release key => key

namespace PhysicalKey

def leftShift : PhysicalKey := ⟨false, scancodeLShift, by decide, by decide⟩
def rightShift : PhysicalKey := ⟨false, scancodeRShift, by decide, by decide⟩
def leftCtrl : PhysicalKey := ⟨false, scancodeLCtrl, by decide, by decide⟩
def leftAlt : PhysicalKey := ⟨false, scancodeLAlt, by decide, by decide⟩

/-- The bytes of a key that goes down, and of one that is released. -/
def sends (key : PhysicalKey) (down : Bool) : List (BitVec 8) :=
  (if key.extended then [scancodeExtended] else []) ++
    [if down then key.code else key.code ||| scancodeRelease]

end PhysicalKey

/-- The driver, and the keys that are held. -/
structure Typing where
  keyboard : Keyboard
  held : PhysicalKey → Bool

namespace Typing

/-- A key that is not held neither repeats nor is released. -/
def event (s : Typing) : KeyEvent → Typing
  | .press key => ⟨(key.sends true).foldl Keyboard.keyboardHandler s.keyboard,
      Function.update s.held key true⟩
  | .again key =>
      if s.held key then { s with keyboard := (key.sends true).foldl Keyboard.keyboardHandler s.keyboard }
      else s
  | .release key =>
      if s.held key then
        ⟨(key.sends false).foldl Keyboard.keyboardHandler s.keyboard,
          Function.update s.held key false⟩
      else s

def run (s : Typing) (events : List KeyEvent) : Typing := events.foldl event s

/-- After `keyboard_init`, with the static variables zeroed before. -/
def start : Typing where
  keyboard := (Keyboard.mk (fun _ => 0) 0 0 ⟨false, false, false, false, false⟩).keyboardInit
  held := fun _ => false

def modifiers (s : Typing) : Modifiers := s.keyboard.modifiers

structure Follows (s : Typing) : Prop where
  shift : s.modifiers.shiftPressed = (s.held .leftShift || s.held .rightShift)
  ctrl : s.modifiers.ctrlPressed = s.held .leftCtrl
  alt : s.modifiers.altPressed = s.held .leftAlt
  extended : s.modifiers.extendedScancode = false

/-- One of the shift keys is released while both are held. -/
def ReleasesOneShift (s : Typing) (e : KeyEvent) : Prop :=
  s.held .leftShift = true ∧ s.held .rightShift = true ∧
    (e = .release .leftShift ∨ e = .release .rightShift)

end Typing

variable {m : Modifiers} {c : BitVec 8} {key : PhysicalKey} {s : Typing} {e : KeyEvent}

theorem make_code (hc : c.toNat < 0x80) : c ≠ scancodeExtended ∧ c &&& scancodeRelease = 0 := by
  revert c
  decide +kernel

theorem break_code (hc : c.toNat < 0x80) (hne : c ≠ 0x60) :
    c ||| scancodeRelease ≠ scancodeExtended ∧ (c ||| scancodeRelease) &&& scancodeRelease ≠ 0 ∧
      (c ||| scancodeRelease) &&& 0x7F = c := by
  revert c
  decide +kernel

namespace Modifiers

theorem keyPress_prefix (m : Modifiers) :
    (m.keyPress scancodeExtended).1 = { m with extendedScancode := true } := by
  rw [keyPress, if_pos rfl]

/-- The byte after the prefix only ends it. -/
theorem keyPress_extended (hc : c ≠ scancodeExtended) (hm : m.extendedScancode = true) :
    (m.keyPress c).1 = { m with extendedScancode := false } := by
  rw [keyPress, if_neg hc]
  simp only [hm]
  split
  · rfl
  · rfl

/-- What a key without the prefix does when it goes down or is released. -/
def told (m : Modifiers) (c : BitVec 8) (down : Bool) : Modifiers :=
  if c = scancodeLShift ∨ c = scancodeRShift then { m with shiftPressed := down }
  else if c = scancodeLCtrl then { m with ctrlPressed := down }
  else if c = scancodeLAlt then { m with altPressed := down }
  else if c = scancodeCapsLock ∧ down = true then { m with capslockOn := !m.capslockOn }
  else m

theorem keyPress_down (hc : c.toNat < 0x80) (hm : m.extendedScancode = false) :
    (m.keyPress c).1 = m.told c true := by
  obtain ⟨hmarked, hrelease⟩ := make_code hc
  rw [keyPress, if_neg hmarked, if_neg (not_not_intro hrelease), if_neg (by rw [hm]; decide), told]
  split_ifs <;> first | rfl | simp_all

theorem keyPress_up (hc : c.toNat < 0x80) (hne : c ≠ 0x60) (hm : m.extendedScancode = false) :
    (m.keyPress (c ||| scancodeRelease)).1 = m.told c false := by
  obtain ⟨hmarked, hrelease, hcode⟩ := break_code hc hne
  rw [keyPress, if_neg hmarked, if_pos hrelease]
  dsimp only
  rw [if_neg (by rw [hm]; decide), hcode, told]
  split_ifs <;> first | rfl | simp_all

theorem ends_prefix (hm : m.extendedScancode = false) :
    { { m with extendedScancode := true } with extendedScancode := false } = m := by
  cases m
  cases hm
  rfl

end Modifiers

theorem modifiers_keyboardHandler (k : Keyboard) (c : BitVec 8) :
    (k.keyboardHandler c).modifiers = (k.modifiers.keyPress c).1 := by
  rw [Keyboard.keyboardHandler]
  cases k.modifiers.keyPress c with
  | mk m pressed =>
      cases pressed with
      | none => rfl
      | some c =>
          simp only [Keyboard.bufferPut]
          split
          · rfl
          · rfl

/-- What the bytes of a key do: nothing, if they start with the prefix. -/
theorem modifiers_sends {k : Keyboard} (hk : k.modifiers.extendedScancode = false)
    (key : PhysicalKey) (down : Bool) :
    ((key.sends down).foldl Keyboard.keyboardHandler k).modifiers =
      if key.extended then k.modifiers
      else k.modifiers.told key.code down := by
  rw [PhysicalKey.sends]
  by_cases hext : key.extended = true
  · have hcode : (if down then key.code else key.code ||| scancodeRelease) ≠ scancodeExtended := by
      cases down with
      | true => exact (make_code key.code_lt).1
      | false => exact (break_code key.code_lt key.code_ne).1
    rw [if_pos hext, if_pos hext, List.singleton_append, List.foldl_cons, List.foldl_cons,
      List.foldl_nil, modifiers_keyboardHandler, modifiers_keyboardHandler,
      Modifiers.keyPress_prefix, Modifiers.keyPress_extended hcode rfl, Modifiers.ends_prefix hk]
  · rw [if_neg hext, if_neg hext, List.nil_append, List.foldl_cons, List.foldl_nil,
      modifiers_keyboardHandler]
    cases down with
    | true => exact Modifiers.keyPress_down key.code_lt hk
    | false => exact Modifiers.keyPress_up key.code_lt key.code_ne hk

namespace Typing

def goTo (s : Typing) (key : PhysicalKey) (down : Bool) : Typing :=
  ⟨(key.sends down).foldl Keyboard.keyboardHandler s.keyboard, Function.update s.held key down⟩

theorem event_cases (s : Typing) (e : KeyEvent) :
    ((∃ key, (∀ k, e ≠ .release k) ∧ s.event e = s.goTo key true) ∨
      ∃ key, e = .release key ∧ s.held key = true ∧ s.event e = s.goTo key false) ∨
    ((∀ key, e = .release key → s.held key = false) ∧ s.event e = s) := by
  cases e with
  | press key => exact Or.inl (Or.inl ⟨key, nofun, rfl⟩)
  | again key =>
      rw [event]
      split
      · rename_i hheld
        refine Or.inl (Or.inl ⟨key, nofun, ?_⟩)
        rw [goTo, Function.update_eq_self_iff.mpr hheld.symm]
      · exact Or.inr ⟨nofun, rfl⟩
  | release key =>
      rw [event]
      split
      · rename_i hheld
        exact Or.inl (Or.inr ⟨key, rfl, hheld, rfl⟩)
      · rename_i hfree
        refine Or.inr ⟨fun k hk => ?_, rfl⟩
        cases hk
        exact Bool.eq_false_iff.mpr hfree

/-- The handler sets exactly the flags that a key is for. -/
theorem flags_told (m : Modifiers) (key : PhysicalKey) (down : Bool) :
    let m' := if key.extended then m else m.told key.code down
    m'.shiftPressed = (if key = .leftShift ∨ key = .rightShift then down else m.shiftPressed) ∧
    m'.ctrlPressed = (if key = .leftCtrl then down else m.ctrlPressed) ∧
    m'.altPressed = (if key = .leftAlt then down else m.altPressed) ∧
    m'.extendedScancode = m.extendedScancode := by
  obtain ⟨extended, code, hlt, hne⟩ := key
  simp only [PhysicalKey.leftShift, PhysicalKey.rightShift, PhysicalKey.leftCtrl,
    PhysicalKey.leftAlt, PhysicalKey.mk.injEq]
  cases extended with
  | true => simp
  | false =>
      rw [if_neg (by decide), Modifiers.told]
      by_cases hshift : code = scancodeLShift ∨ code = scancodeRShift
      · obtain rfl | rfl := hshift <;> simp +decide
      by_cases hctrl : code = scancodeLCtrl
      · subst hctrl
        simp +decide
      by_cases halt : code = scancodeLAlt
      · subst halt
        simp +decide
      · obtain ⟨hleft, hright⟩ := not_or.mp hshift
        rw [if_neg hshift, if_neg hctrl, if_neg halt]
        split
        · simp [hleft, hright, hctrl, halt]
        · simp [hleft, hright, hctrl, halt]

theorem held_goTo (s : Typing) (key : PhysicalKey) (down : Bool) :
    (s.goTo key down).held = Function.update s.held key down := rfl

theorem flags_goTo (hm : s.modifiers.extendedScancode = false) (key : PhysicalKey) (down : Bool) :
    (s.goTo key down).modifiers =
      if key.extended then s.modifiers else s.modifiers.told key.code down :=
  modifiers_sends hm key down

/-- A flag of its own follows its key, whatever is released. -/
structure Inv (s : Typing) : Prop where
  ctrl : s.modifiers.ctrlPressed = s.held .leftCtrl
  alt : s.modifiers.altPressed = s.held .leftAlt
  extended : s.modifiers.extendedScancode = false

def ShiftFollows (s : Typing) : Prop :=
  s.modifiers.shiftPressed = (s.held .leftShift || s.held .rightShift)

theorem follows_iff (s : Typing) : s.Follows ↔ s.Inv ∧ s.ShiftFollows :=
  ⟨fun h => ⟨⟨h.ctrl, h.alt, h.extended⟩, h.shift⟩,
    fun ⟨h, hshift⟩ => ⟨hshift, h.ctrl, h.alt, h.extended⟩⟩

theorem Inv.goTo (h : s.Inv) (key : PhysicalKey) (down : Bool) : (s.goTo key down).Inv := by
  obtain ⟨-, hctrl, halt, hext⟩ := flags_told s.modifiers key down
  rw [← flags_goTo h.extended] at hctrl halt hext
  refine ⟨?_, ?_, hext.trans h.extended⟩
  · rw [hctrl, h.ctrl, held_goTo, Function.update_apply]
    exact if_congr eq_comm rfl rfl
  · rw [halt, h.alt, held_goTo, Function.update_apply]
    exact if_congr eq_comm rfl rfl

theorem Inv.event (h : s.Inv) (e : KeyEvent) : (s.event e).Inv := by
  obtain (⟨key, -, heq⟩ | ⟨key, -, -, heq⟩) | ⟨-, heq⟩ := s.event_cases e
  · rw [heq]
    exact h.goTo key true
  · rw [heq]
    exact h.goTo key false
  · rwa [heq]

/-- The flag that two keys share follows them unless the other one is still held. -/
theorem shiftFollows_goTo_iff (h : s.Inv) (hshift : s.ShiftFollows) (key : PhysicalKey)
    (down : Bool) : (s.goTo key down).ShiftFollows ↔
      (down = true ∨ (key = .leftShift → s.held .rightShift = false) ∧
        (key = .rightShift → s.held .leftShift = false)) := by
  have hflag := (flags_told s.modifiers key down).1
  have hne : PhysicalKey.leftShift ≠ .rightShift := by decide
  rw [← flags_goTo h.extended] at hflag
  rw [ShiftFollows, hflag, held_goTo]
  by_cases hleft : key = .leftShift
  · subst hleft
    rw [if_pos (Or.inl rfl), Function.update_self, Function.update_of_ne hne.symm]
    cases down with
    | true => simp
    | false => cases hother : s.held .rightShift <;> simp [hne]
  by_cases hright : key = .rightShift
  · subst hright
    rw [if_pos (Or.inr rfl), Function.update_self, Function.update_of_ne hne]
    cases down with
    | true => simp
    | false => cases hother : s.held .leftShift <;> simp [hne.symm]
  · rw [if_neg (not_or.mpr ⟨hleft, hright⟩), Function.update_of_ne (Ne.symm hleft),
      Function.update_of_ne (Ne.symm hright)]
    exact iff_of_true hshift (Or.inr ⟨fun heq => absurd heq hleft, fun heq => absurd heq hright⟩)

theorem shiftFollows_event_iff (h : s.Inv) (hshift : s.ShiftFollows) (e : KeyEvent) :
    (s.event e).ShiftFollows ↔ ¬ s.ReleasesOneShift e := by
  obtain (⟨key, hdown, heq⟩ | ⟨key, rfl, hheld, heq⟩) | ⟨hfree, heq⟩ := s.event_cases e
  · rw [heq, shiftFollows_goTo_iff h hshift]
    exact iff_of_true (Or.inl rfl) fun ⟨_, _, hrelease⟩ => hrelease.elim (hdown _) (hdown _)
  · rw [heq, shiftFollows_goTo_iff h hshift, ReleasesOneShift, KeyEvent.release.injEq,
      KeyEvent.release.injEq]
    by_cases hleft : key = .leftShift
    · subst hleft
      simp [hheld, (by decide : PhysicalKey.leftShift ≠ .rightShift)]
    by_cases hright : key = .rightShift
    · subst hright
      simp [hheld, (by decide : PhysicalKey.rightShift ≠ .leftShift)]
    · simp [hleft, hright]
  · rw [heq]
    refine iff_of_true hshift ?_
    rintro ⟨hleft, hright, rfl | rfl⟩
    · exact Bool.false_ne_true ((hfree _ rfl).symm.trans hleft)
    · exact Bool.false_ne_true ((hfree _ rfl).symm.trans hright)

theorem Inv.start : start.Inv := ⟨rfl, rfl, rfl⟩

theorem Inv.modifiers_event (h : s.Inv) (hext : e.key.extended = true) :
    (s.event e).modifiers = s.modifiers := by
  have hsent : ∀ key down, key.extended = true → (s.goTo key down).modifiers = s.modifiers :=
    fun key down hkey => (flags_goTo h.extended key down).trans (if_pos hkey)
  cases e with
  | press key => exact hsent key true hext
  | again key =>
      rw [Typing.event]
      split
      · exact hsent key true hext
      · rfl
  | release key =>
      rw [Typing.event]
      split
      · exact hsent key false hext
      · rfl

/-- **Modifiers follow the keys** in every state of a run, and no key with the prefix changes one, exactly
if a shift key is never released while the other one is held. -/
theorem modifiers_follow_iff (events : List KeyEvent) :
    ((∀ pre, pre <+: events → (start.run pre).Follows) ∧
      ∀ pre e, pre ++ [e] <+: events → e.key.extended = true →
        (start.run (pre ++ [e])).modifiers = (start.run pre).modifiers) ↔
    ∀ pre e, pre ++ [e] <+: events → ¬ (start.run pre).ReleasesOneShift e := by
  have hinv : ∀ (s : Typing) (e : KeyEvent), s.Inv → (s.event e).Inv := fun _ e h => h.event e
  have hall : ∀ pre, (start.run pre).Inv := fun pre => Prefix.inv_foldl hinv Inv.start pre
  have hextended : ∀ pre e, pre ++ [e] <+: events → e.key.extended = true →
      (start.run (pre ++ [e])).modifiers = (start.run pre).modifiers := fun pre e _ hext => by
    rw [run, List.foldl_append]
    exact (hall pre).modifiers_event hext
  have hfollows : ∀ pre, (start.run pre).Follows ↔ (start.run pre).ShiftFollows := fun pre =>
    (follows_iff _).trans (and_iff_right (hall pre))
  rw [and_iff_left hextended]
  simp only [hfollows]
  exact Prefix.forall_prefix_iff hinv (fun s e h hshift => shiftFollows_event_iff h hshift e) Inv.start
    rfl events

/-- Both shift keys go down and the right one is released. The left one is still held. -/
theorem not_follows_bothShifts :
    let s := start.run [.press .leftShift, .press .rightShift, .release .rightShift]
    s.held .leftShift = true ∧ s.modifiers.shiftPressed = false ∧ ¬ s.Follows := by
  intro s
  have hheld : s.held .leftShift = true := by decide
  have hflag : s.modifiers.shiftPressed = false := by decide
  refine ⟨hheld, hflag, fun hfollows => ?_⟩
  have hshift := hfollows.shift
  rw [hflag, hheld] at hshift
  exact absurd hshift (by decide)

end Typing

end SimpleOs
