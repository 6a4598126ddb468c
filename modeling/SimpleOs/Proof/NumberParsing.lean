import SimpleOs.Lib.Numeral
import SimpleOs.Numerals

/-!
# Parsing of numbers

`parse_uint` takes a string as a number exactly if it is one or more decimal digits, or one of the
prefixes `0x` and `0X` and any number of hexadecimal digits. The digits may be missing, and the value is
reduced to 64 bits. So the two prefixes alone, and numbers from `2 ^ 64` on, are all that it takes
wrongly.
-/

namespace SimpleOs

variable {base d n v : Nat} {b c x : BitVec 8} {l : Text} {ds ds' : List Nat} {s : CString}

/-- `c` stands for the digit `d`. -/
def IsDigit (base : Nat) (c : BitVec 8) (d : Nat) : Prop :=
  d < base ∧ (c = ascii (Nat.digitChar d) ∨ c = ascii (Nat.digitChar d).toUpper)

instance (base : Nat) (c : BitVec 8) (d : Nat) : Decidable (IsDigit base c d) :=
  inferInstanceAs (Decidable (_ ∧ _))

/-- The numerals of `n`, in either base. -/
inductive Denotes : Text → Nat → Prop
  | decimal {l : Text} {ds : List Nat} (hne : l ≠ []) (hdigits : List.Forall₂ (IsDigit 10) l ds) :
      Denotes l (Numeral.value 10 ds)
  | hex {x : BitVec 8} {l : Text} {ds : List Nat} (hx : x = ascii 'x' ∨ x = ascii 'X') (hne : l ≠ [])
      (hdigits : List.Forall₂ (IsDigit 16) l ds) : Denotes (ascii '0' :: x :: l) (Numeral.value 16 ds)

/-- `parse_uint` accepts `s` exactly if it is the numeral of a 64-bit number, and returns that. -/
def ParsesExactly (s : CString) : Prop :=
  ((parseUint (some s)).2 = true ↔ ∃ n < 2 ^ 64, Denotes s.bytes n) ∧
    ∀ n < 2 ^ 64, Denotes s.bytes n → (parseUint (some s)).1.toNat = n

theorem exists_of_charBetween {low high : Char} (h : charBetween c low high) (hle : low ≤ high)
    (hhigh : high.toNat < 128) : ∃ i ≤ high.toNat - low.toNat, c = BitVec.ofNat 8 (low.toNat + i) := by
  have hlow : low.toNat ≤ high.toNat := hle
  have hlowInt : (ascii low).toInt = low.toNat := by
    rw [ascii, BitVec.toInt_eq_toNat_cond, BitVec.toNat_ofNat, Nat.mod_eq_of_lt (by omega),
      if_pos (by omega)]
  have hhighInt : (ascii high).toInt = high.toNat := by
    rw [ascii, BitVec.toInt_eq_toNat_cond, BitVec.toNat_ofNat, Nat.mod_eq_of_lt (by omega),
      if_pos (by omega)]
  rw [charBetween, hlowInt, hhighInt, BitVec.toInt_eq_toNat_cond] at h
  have hc := c.isLt
  have hrange : low.toNat ≤ c.toNat ∧ c.toNat ≤ high.toNat := by
    split at h <;> omega
  refine ⟨c.toNat - low.toNat, by omega, ?_⟩
  rw [Nat.add_sub_cancel' hrange.1, BitVec.ofNat_toNat, BitVec.setWidth_eq]

theorem isDigit_of_digitOf (hbase : base = 10 ∨ base = 16) (h : digitOf base c = some b) :
    IsDigit base c b.toNat := by
  rw [digitOf] at h
  split at h
  · rename_i hrange
    obtain ⟨i, hi, rfl⟩ := exists_of_charBetween hrange (by decide) (by decide)
    obtain rfl := Option.some.inj h
    clear h hrange
    obtain rfl | rfl := hbase <;> revert i <;> decide
  · split at h
    · rename_i hrange
      obtain ⟨i, hi, rfl⟩ := exists_of_charBetween hrange.2 (by decide) (by decide)
      obtain rfl := Option.some.inj h
      obtain rfl := hrange.1
      clear h hrange hbase
      revert i
      decide
    · split at h
      · rename_i hrange
        obtain ⟨i, hi, rfl⟩ := exists_of_charBetween hrange.2 (by decide) (by decide)
        obtain rfl := Option.some.inj h
        obtain rfl := hrange.1
        clear h hrange hbase
        revert i
        decide
      · cases h

theorem IsDigit.digitOf (hbase : base = 10 ∨ base = 16) (h : IsDigit base c d) :
    digitOf base c = some (BitVec.ofNat 8 d) := by
  obtain ⟨hd, hc⟩ := h
  obtain rfl | rfl := hbase <;> obtain rfl | rfl := hc <;> revert d <;> decide

theorem IsDigit.unique (hbase : base = 10 ∨ base = 16) {d' : Nat} (h : IsDigit base c d)
    (h' : IsDigit base c d') : d = d' := by
  have heq := (h.digitOf hbase).symm.trans (h'.digitOf hbase)
  have htoNat := congrArg BitVec.toNat (Option.some.inj heq)
  have hd := h.1
  have hd' := h'.1
  rw [BitVec.toNat_ofNat, BitVec.toNat_ofNat] at htoNat
  omega

theorem digits_unique (hbase : base = 10 ∨ base = 16) (h : List.Forall₂ (IsDigit base) l ds)
    (h' : List.Forall₂ (IsDigit base) l ds') : ds = ds' := by
  induction h generalizing ds' with
  | nil =>
      cases h'
      rfl
  | cons hd _ ih =>
      cases h' with
      | cons hd' htail => rw [hd.unique hbase hd', ih htail]

/-- The second character of a prefix is not a decimal digit. -/
theorem not_decimal_marked (hx : x = ascii 'x' ∨ x = ascii 'X') :
    ¬List.Forall₂ (IsDigit 10) (c :: x :: l) ds := by
  intro h
  cases h with
  | cons _ htail =>
      cases htail with
      | cons hd _ =>
          have hsome := hd.digitOf (Or.inl rfl)
          have hnone : digitOf 10 x = none := by
            obtain rfl | rfl := hx <;> decide
          rw [hnone] at hsome
          cases hsome

theorem parseDigits_digits (hbase : base = 10 ∨ base = 16) (h : List.Forall₂ (IsDigit base) l ds) :
    parseDigits base l (BitVec.ofNat 64 v) =
      (BitVec.ofNat 64 (ds.foldl (fun v d => v * base + d) v), true) := by
  induction h generalizing v with
  | nil => rfl
  | @cons c d l ds hd _ ih =>
      have hlt := hd.1
      have hdigit : (BitVec.ofNat 8 d).setWidth 64 = BitVec.ofNat 64 d :=
        BitVec.setWidth_ofNat_of_le_of_lt (by decide) (by omega)
      rw [parseDigits, hd.digitOf hbase]
      dsimp only
      rw [hdigit, ← BitVec.ofNat_mul, ← BitVec.ofNat_add, ih]
      rfl

/-- Only digits are accepted. -/
theorem digits_of_parseDigits (hbase : base = 10 ∨ base = 16) {value : BitVec 64}
    (h : (parseDigits base l value).2 = true) : ∃ ds, List.Forall₂ (IsDigit base) l ds := by
  induction l generalizing value with
  | nil => exact ⟨[], .nil⟩
  | cons c l ih =>
      rw [parseDigits] at h
      cases hdigit : digitOf base c with
      | none =>
          rw [hdigit] at h
          cases h
      | some digit =>
          rw [hdigit] at h
          obtain ⟨ds, hds⟩ := ih h
          exact ⟨digit.toNat :: ds, .cons (isDigit_of_digitOf hbase hdigit) hds⟩

theorem parseDigits_value (hbase : base = 10 ∨ base = 16) (h : List.Forall₂ (IsDigit base) l ds) :
    parseDigits base l 0#64 = (BitVec.ofNat 64 (Numeral.value base ds), true) := by
  rw [show 0#64 = BitVec.ofNat 64 0 from rfl, parseDigits_digits hbase h, Numeral.foldl_eq, Nat.zero_mul,
    Nat.zero_add]

theorem parseUint_hex (hs : s.bytes = ascii '0' :: x :: l) (hx : x = ascii 'x' ∨ x = ascii 'X') :
    parseUint (some s) = parseDigits 16 l 0#64 := by
  rw [parseUint, CString.byte, CString.byte, hs, List.getD_cons_zero, if_neg (by decide)]
  exact if_pos ⟨rfl, hx⟩

theorem parseUint_decimal (hne : s.bytes ≠ [])
    (hs : ∀ x l, s.bytes = ascii '0' :: x :: l → x ≠ ascii 'x' ∧ x ≠ ascii 'X') :
    parseUint (some s) = parseDigits 10 s.bytes 0#64 := by
  have hfirst : s.byte 0 ≠ 0 := CString.byte_ne_zero (List.length_pos_of_ne_nil hne)
  rw [parseUint, if_neg hfirst, if_neg]
  rintro ⟨hzero, hx⟩
  rw [CString.byte] at hzero
  rw [CString.byte] at hx
  rcases hbytes : s.bytes with _ | ⟨c, _ | ⟨x, l⟩⟩
  · exact hne hbytes
  · rw [hbytes] at hx
    have hend : ¬(0#8 = ascii 'x' ∨ 0#8 = ascii 'X') := by decide
    exact hend hx
  · rw [hbytes] at hzero hx
    obtain rfl : c = ascii '0' := hzero
    obtain ⟨hlower, hupper⟩ := hs x l hbytes
    exact hx.elim hlower hupper

theorem parseUint_of_denotes (h : Denotes s.bytes n) :
    parseUint (some s) = (BitVec.ofNat 64 n, true) := by
  generalize hbytes : s.bytes = l at h
  cases h with
  | decimal hne hdigits =>
      rw [parseUint_decimal (hbytes ▸ hne), hbytes, parseDigits_value (Or.inl rfl) hdigits]
      intro x tail heq
      rw [← hbytes, heq] at hdigits
      exact not_or.mp fun hx => not_decimal_marked hx hdigits
  | hex hx hne hdigits => rw [parseUint_hex hbytes hx, parseDigits_value (Or.inr rfl) hdigits]

/-- A string is the numeral of one number at most. -/
theorem Denotes.unique {m n : Nat} (hm : Denotes l m) (hn : Denotes l n) : m = n := by
  cases hm with
  | decimal hne hdigits =>
      cases hn with
      | decimal _ hdigits' => rw [digits_unique (Or.inl rfl) hdigits hdigits']
      | hex hx _ _ => exact absurd hdigits (not_decimal_marked hx)
  | hex hx hne hdigits =>
      cases hn with
      | decimal _ hdigits' => exact absurd hdigits' (not_decimal_marked hx)
      | hex _ _ hdigits' => rw [digits_unique (Or.inr rfl) hdigits hdigits']

/-- The prefixes without a digit are accepted as well. -/
theorem parseUint_ok_iff : (parseUint (some s)).2 = true ↔
    (∃ n, Denotes s.bytes n) ∨ s.bytes = [ascii '0', ascii 'x'] ∨ s.bytes = [ascii '0', ascii 'X'] := by
  constructor
  · intro h
    by_cases hne : s.bytes = []
    · rw [parseUint, CString.byte, hne, List.getD_nil, if_pos rfl] at h
      cases h
    by_cases hmarked : ∃ x l, s.bytes = ascii '0' :: x :: l ∧ (x = ascii 'x' ∨ x = ascii 'X')
    · obtain ⟨x, l, hbytes, hx⟩ := hmarked
      rw [parseUint_hex hbytes hx] at h
      obtain ⟨ds, hds⟩ := digits_of_parseDigits (Or.inr rfl) h
      rw [hbytes]
      by_cases hl : l = []
      · subst hl
        exact Or.inr (hx.imp (by rintro rfl; rfl) (by rintro rfl; rfl))
      · exact Or.inl ⟨_, .hex hx hl hds⟩
    · have hplain : ∀ x l, s.bytes = ascii '0' :: x :: l → x ≠ ascii 'x' ∧ x ≠ ascii 'X' :=
        fun x l hbytes => not_or.mp fun hx => hmarked ⟨x, l, hbytes, hx⟩
      rw [parseUint_decimal hne hplain] at h
      obtain ⟨ds, hds⟩ := digits_of_parseDigits (Or.inl rfl) h
      exact Or.inl ⟨_, .decimal hne hds⟩
  · rintro (⟨n, h⟩ | hbytes | hbytes)
    · rw [parseUint_of_denotes h]
    · rw [parseUint_hex hbytes (Or.inl rfl)]
      rfl
    · rw [parseUint_hex hbytes (Or.inr rfl)]
      rfl

theorem not_denotes_marker (hx : x = ascii 'x' ∨ x = ascii 'X') : ¬Denotes [ascii '0', x] n := by
  intro h
  cases h with
  | decimal _ hdigits => exact not_decimal_marked hx hdigits
  | hex _ hne _ => exact hne rfl

theorem parsesExactly_iff (s : CString) : ParsesExactly s ↔
    (s.bytes ≠ [ascii '0', ascii 'x'] ∧ s.bytes ≠ [ascii '0', ascii 'X']) ∧
      ∀ n, Denotes s.bytes n → n < 2 ^ 64 := by
  constructor
  · rintro ⟨hok, -⟩
    rw [parseUint_ok_iff] at hok
    refine ⟨⟨fun hbytes => ?_, fun hbytes => ?_⟩, fun n hn => ?_⟩
    · obtain ⟨n, -, hn⟩ := hok.mp (Or.inr (Or.inl hbytes))
      exact not_denotes_marker (Or.inl rfl) (hbytes ▸ hn)
    · obtain ⟨n, -, hn⟩ := hok.mp (Or.inr (Or.inr hbytes))
      exact not_denotes_marker (Or.inr rfl) (hbytes ▸ hn)
    · obtain ⟨m, hlt, hm⟩ := hok.mp (Or.inl ⟨n, hn⟩)
      rwa [hn.unique hm]
  · rintro ⟨⟨hlower, hupper⟩, hlt⟩
    refine ⟨?_, fun n hn hdenotes => ?_⟩
    · rw [parseUint_ok_iff]
      constructor
      · rintro (⟨n, hn⟩ | hbytes | hbytes)
        · exact ⟨n, hlt n hn, hn⟩
        · exact absurd hbytes hlower
        · exact absurd hbytes hupper
      · rintro ⟨n, -, hn⟩
        exact Or.inl ⟨n, hn⟩
    · rw [parseUint_of_denotes hdenotes, BitVec.toNat_ofNat, Nat.mod_eq_of_lt hn]

def hexPrefix : CString := ⟨"0x".toList.map ascii, by decide⟩

/-- The prefix alone is accepted, as 0. -/
theorem not_parsesExactly_hexPrefix :
    parseUint (some hexPrefix) = (0#64, true) ∧ ¬ParsesExactly hexPrefix := by
  refine ⟨by decide, fun h => ?_⟩
  obtain ⟨n, -, hn⟩ := h.1.mp (by decide)
  exact not_denotes_marker (Or.inl rfl) hn

end SimpleOs
