import SimpleOs.Lib.CString
import SimpleOs.Lib.Fields

/-!
# Text in memory

The bytes that stand at an address, as a list, and the loops that read a string: up to its terminator, or
for as long as its characters have a property. A loop is given a number of turns; `none` says that it
would go on.
-/

namespace ByteMemory

variable {m m' : ByteMemory} {p x : Nat} {b c : BitVec 8} {l l' : List (BitVec 8)}

/-- The bytes `l` stand at `p`. -/
def Holds (m : ByteMemory) : Nat → List (BitVec 8) → Prop
  | _, [] => True
  | p, c :: l => m p = c ∧ Holds m (p + 1) l

/-- The string `l` stands at `p`, and its terminator. -/
structure StringAt (m : ByteMemory) (p : Nat) (l : List (BitVec 8)) : Prop where
  holds : m.Holds p (l ++ [0])
  nonzero : 0 ∉ l

theorem holds_append : m.Holds p (l ++ l') ↔ m.Holds p l ∧ m.Holds (p + l.length) l' := by
  induction l generalizing p with
  | nil => exact (iff_of_eq (true_and _)).symm
  | cons c l ih =>
      rw [List.cons_append, Holds, Holds, ih, List.length_cons, and_assoc, Nat.add_right_comm,
        Nat.add_assoc]

theorem Holds.congr (h : m.Holds p l) (hsame : ∀ x, p ≤ x → x < p + l.length → m' x = m x) :
    m'.Holds p l := by
  induction l generalizing p with
  | nil => trivial
  | cons c l ih =>
      rw [List.length_cons] at hsame
      exact ⟨(hsame p le_rfl (by omega)).trans h.1, ih h.2 fun x hle hlt => hsame x (by omega) (by omega)⟩

theorem Holds.update (h : m.Holds p l) (hx : x < p ∨ p + l.length ≤ x) :
    Holds (Function.update m x b) p l := by
  apply h.congr
  intro y hle hlt
  exact Function.update_of_ne (by omega) _ _

/-- A character is put behind the others. -/
theorem Holds.snoc (h : m.Holds p l) : Holds (Function.update m (p + l.length) c) p (l ++ [c]) :=
  holds_append.mpr ⟨h.update (Or.inr le_rfl), Function.update_self _ _ _, trivial⟩

theorem Holds.getD {i : Nat} (h : m.Holds p l) (hi : i < l.length) : m (p + i) = l.getD i 0 := by
  induction l generalizing p i with
  | nil => exact absurd hi (Nat.not_lt_zero i)
  | cons c l ih =>
      cases i with
      | zero => exact h.1
      | succ i =>
          have htail := ih h.2 (Nat.lt_of_succ_lt_succ hi)
          rwa [Nat.add_assoc, Nat.add_comm 1 i] at htail

theorem holds_of_getD (h : ∀ i < l.length, m (p + i) = l.getD i 0) : m.Holds p l := by
  induction l generalizing p with
  | nil => trivial
  | cons c l ih =>
      refine ⟨h 0 (Nat.succ_pos _), ih fun i hi => ?_⟩
      rw [Nat.add_assoc, Nat.add_comm 1 i, h (i + 1) (Nat.succ_lt_succ hi)]
      rfl

/-- A memory that starts with `l` and is 0 from there on. -/
def ofList (l : List (BitVec 8)) : ByteMemory := fun i => l.getD i 0

theorem stringAt_ofList (h : 0 ∉ l) : (ofList l).StringAt 0 l := by
  refine ⟨holds_of_getD fun i hi => ?_, h⟩
  rw [Nat.zero_add, ofList]
  by_cases hlt : i < l.length
  · rw [List.getD_append _ _ _ _ hlt]
  · rw [List.length_append, List.length_singleton] at hi
    rw [List.getD_append_right _ _ _ _ (Nat.le_of_not_lt hlt), List.getD_eq_default _ _ (Nat.le_of_not_lt hlt),
      show i - l.length = 0 by omega]
    rfl

/-- The first character, or the terminator. -/
theorem StringAt.head (h : m.StringAt p l) : m p = l.headD 0 := by
  cases l with
  | nil => exact h.holds.1
  | cons c l => exact h.holds.1

theorem StringAt.zero_iff (h : m.StringAt p l) : m p = 0 ↔ l = [] := by
  rw [h.head]
  cases l with
  | nil => exact iff_of_true rfl rfl
  | cons c l => exact iff_of_false (fun hc => h.nonzero (hc ▸ List.mem_cons_self)) (List.cons_ne_nil c l)

/-- A character is put before a string. -/
theorem StringAt.cons (h : m.StringAt (p + 1) l) (hc : c ≠ 0) :
    StringAt (Function.update m p c) p (c :: l) := by
  refine ⟨⟨Function.update_self p c m, h.holds.update (Or.inl (Nat.lt_succ_self p))⟩, ?_⟩
  rw [List.mem_cons, not_or]
  exact ⟨Ne.symm hc, h.nonzero⟩

/-- The end of a string is a string. -/
theorem StringAt.append_right (h : m.StringAt p (l ++ l')) : m.StringAt (p + l.length) l' := by
  obtain ⟨hholds, hzero⟩ := h
  rw [List.append_assoc] at hholds
  rw [List.mem_append, not_or] at hzero
  exact ⟨(holds_append.mp hholds).2, hzero.2⟩

theorem StringAt.congr (h : m.StringAt p l) (hsame : ∀ x, p ≤ x → x ≤ p + l.length → m' x = m x) :
    m'.StringAt p l := by
  refine ⟨h.holds.congr fun x hle hlt => hsame x hle ?_, h.nonzero⟩
  rw [List.length_append, List.length_singleton] at hlt
  omega

/-- What is read at an index up to the terminator. -/
theorem StringAt.getD {i : Nat} (h : m.StringAt p l) (hi : i ≤ l.length) : m (p + i) = l.getD i 0 := by
  have hread := h.holds.getD (i := i) (by rw [List.length_append, List.length_singleton]; omega)
  rw [hread]
  obtain rfl | hlt := Nat.eq_or_lt_of_le hi
  · rw [List.getD_append_right _ _ _ _ le_rfl, Nat.sub_self, List.getD_eq_default _ _ le_rfl]
    rfl
  · rw [List.getD_append _ _ _ _ hlt]

end ByteMemory

namespace Traced

open ByteMemory

variable {Buffer : Type} {buffer : Buffer} {m : ByteMemory} {p n : Nat} {c : BitVec 8}
  {l l' : List (BitVec 8)} {P : BitVec 8 → Bool} {ok : Access Buffer → Prop}

/-- The string at `p`. -/
def loadString (buffer : Buffer) (m : ByteMemory) (p : Nat) :
    Nat → Traced Buffer (Option (List (BitVec 8)))
  | 0 => pure none
  | n + 1 => do
      let c ← load buffer m p 8
      if c = 0 then pure (some [])
      else do
        let s ← loadString buffer m (p + 1) n
        pure (s.map (c :: ·))

/-- The first address from `p` on whose character does not have the property. -/
def scanWhile (P : BitVec 8 → Bool) (buffer : Buffer) (m : ByteMemory) (p : Nat) :
    Nat → Traced Buffer (Option Nat)
  | 0 => pure none
  | n + 1 => do
      let c ← load buffer m p 8
      if P c then scanWhile P buffer m (p + 1) n else pure (some p)

theorem returns_loadString (h : m.StringAt p l) (hn : l.length < n) (hp : p + l.length < 2 ^ 64)
    (hok : ∀ i ≤ l.length, ok ⟨.load, buffer, p + i, 1⟩) :
    (loadString buffer m p n).Returns (some l) ok := by
  induction n generalizing p l with
  | zero => exact absurd hn (Nat.not_lt_zero _)
  | succ n ih =>
      rw [loadString]
      refine Returns.load_bind (hok 0 (Nat.zero_le _)) ?_
      rw [field_byte (by omega)]
      cases l with
      | nil =>
          rw [if_pos h.holds.1]
          exact Returns.pure _
      | cons c l =>
          obtain ⟨⟨hhead, htail⟩, hzero⟩ := h
          rw [List.mem_cons, not_or] at hzero
          rw [List.length_cons] at hn hp hok
          have hrest : (loadString buffer m (p + 1) n).Returns (some l) ok := by
            refine ih ⟨htail, hzero.2⟩ (by omega) (by omega) fun i hi => ?_
            rw [Nat.add_assoc, Nat.add_comm 1 i]
            exact hok (i + 1) (Nat.succ_le_succ hi)
          rw [hhead, if_neg (Ne.symm hzero.1)]
          exact hrest.bind (Returns.pure _)

theorem returns_scanWhile (h : m.Holds p (l ++ [c])) (hl : ∀ b ∈ l, P b = true) (hc : P c = false)
    (hn : l.length < n) (hp : p + l.length < 2 ^ 64)
    (hok : ∀ i ≤ l.length, ok ⟨.load, buffer, p + i, 1⟩) :
    (scanWhile P buffer m p n).Returns (some (p + l.length)) ok := by
  induction n generalizing p l with
  | zero => exact absurd hn (Nat.not_lt_zero _)
  | succ n ih =>
      rw [scanWhile]
      refine Returns.load_bind (hok 0 (Nat.zero_le _)) ?_
      rw [field_byte (by omega)]
      cases l with
      | nil =>
          rw [h.1, if_neg (Bool.eq_false_iff.mp hc)]
          exact Returns.pure _
      | cons b l =>
          rw [List.length_cons] at hn hp hok
          rw [h.1, if_pos (hl b List.mem_cons_self), List.length_cons, Nat.add_comm l.length,
            ← Nat.add_assoc]
          refine ih h.2 (fun b' hb' => hl b' (List.mem_cons_of_mem b hb')) (by omega) (by omega)
            fun i hi => ?_
          rw [Nat.add_assoc, Nat.add_comm 1 i]
          exact hok (i + 1) (Nat.succ_le_succ hi)

/-- A string is scanned up to the first character without the property, or its terminator. -/
theorem returns_scanWhile_string (h : m.StringAt p (l ++ l')) (hl : ∀ b ∈ l, P b = true)
    (hstop : ∀ b ∈ l'.head?, P b = false) (hzero : P 0 = false) (hn : l.length < n)
    (hp : p + l.length < 2 ^ 64) (hok : ∀ i ≤ l.length, ok ⟨.load, buffer, p + i, 1⟩) :
    (scanWhile P buffer m p n).Returns (some (p + l.length)) ok := by
  have hholds := h.holds
  cases l' with
  | nil =>
      rw [List.append_nil] at hholds
      exact returns_scanWhile hholds hl hzero hn hp hok
  | cons b l' =>
      rw [List.append_assoc, List.cons_append, List.append_cons] at hholds
      exact returns_scanWhile (holds_append.mp hholds).1 hl (hstop b rfl) hn hp hok

end Traced
