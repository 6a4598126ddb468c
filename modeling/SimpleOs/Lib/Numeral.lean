import Mathlib

/-!
# Numerals

Lists of digits, most significant first. The numeral of a number has no leading zero, except that of 0,
which is a single one; a numeral of fixed width has as many as are missing.
-/

namespace Numeral

variable {b d k n v w : Nat} {ds ds' : List Nat}

def value (b : Nat) (ds : List Nat) : Nat := Nat.ofDigits b ds.reverse

/-- The numeral of `n` without its digit if `n` is 0. -/
def digits (b n : Nat) : List Nat := (Nat.digits b n).reverse

def numeral (b n : Nat) : List Nat := if n = 0 then [0] else digits b n

def padded (b k n : Nat) : List Nat := (Nat.digitsAppend b k n).reverse

theorem value_cons : value b (d :: ds) = d * b ^ ds.length + value b ds := by
  rw [value, List.reverse_cons, Nat.ofDigits_append, Nat.ofDigits_singleton, List.length_reverse,
    Nat.add_comm, Nat.mul_comm]
  rfl

/-- A value is computed digit after digit, from the first one on. -/
theorem foldl_eq (v : Nat) (ds : List Nat) :
    ds.foldl (fun v d => v * b + d) v = v * b ^ ds.length + value b ds := by
  induction ds generalizing v with
  | nil => exact (Nat.mul_one v).symm
  | cons d ds ih =>
      rw [List.foldl_cons, ih, value_cons, List.length_cons, Nat.add_mul, Nat.add_assoc, pow_succ',
        Nat.mul_assoc]

theorem value_digits (b n : Nat) : value b (digits b n) = n := by
  rw [value, digits, List.reverse_reverse, Nat.ofDigits_digits]

theorem value_numeral (b n : Nat) : value b (numeral b n) = n := by
  rw [numeral]
  split
  · rename_i hzero
    rw [hzero, value, List.reverse_singleton, Nat.ofDigits_singleton]
  · exact value_digits b n

theorem digits_succ (hb : 1 < b) (hn : n ≠ 0) : digits b n = digits b (n / b) ++ [n % b] := by
  rw [digits, Nat.digits_def' hb (Nat.pos_of_ne_zero hn), List.reverse_cons]
  rfl

theorem numeral_ne_nil (b n : Nat) : numeral b n ≠ [] := by
  rw [numeral]
  split
  · exact List.cons_ne_nil 0 []
  · rename_i hn
    rwa [digits, Ne, List.reverse_eq_nil_iff, Nat.digits_eq_nil_iff_eq_zero]

theorem lt_of_mem_numeral (hb : 1 < b) (hd : d ∈ numeral b n) : d < b := by
  rw [numeral] at hd
  split at hd
  · rw [List.mem_singleton.mp hd]
    omega
  · rw [digits, List.mem_reverse] at hd
    exact Nat.digits_lt_base hb hd

/-- A numeral of several digits does not start with a zero. -/
theorem head?_numeral (h : (numeral b n).head? = some 0) : numeral b n = [0] := by
  rw [numeral] at h ⊢
  split
  · rfl
  · rename_i hn
    rw [if_neg hn, digits, List.head?_reverse] at h
    exact absurd (List.getLast_of_mem_getLast? h) (Nat.getLast_digit_ne_zero b hn)

theorem length_digits_le (hb : 1 < b) (hn : n < b ^ k) : (digits b n).length ≤ k := by
  rw [digits, List.length_reverse]
  exact (Nat.digits_length_le_iff hb n).mpr hn

theorem length_numeral_le (hb : 1 < b) (hk : 0 < k) (hn : n < b ^ k) : (numeral b n).length ≤ k := by
  rw [numeral]
  split
  · exact hk
  · exact length_digits_le hb hn

theorem padded_eq (b k n : Nat) :
    padded b (k + 1) n = List.replicate (k + 1 - (numeral b n).length) 0 ++ numeral b n := by
  rw [padded, Nat.digitsAppend, List.reverse_append, List.reverse_replicate, numeral]
  split
  · rename_i hzero
    subst hzero
    rw [Nat.digits_zero, List.reverse_nil, List.append_nil]
    exact List.replicate_succ'
  · rw [digits, List.length_reverse]

/-- The last digit is split off. -/
theorem padded_succ (hb : 1 < b) : padded b (k + 1) n = padded b k (n / b) ++ [n % b] := by
  by_cases hn : n = 0
  · subst hn
    rw [Nat.zero_div, Nat.zero_mod, padded, padded, Nat.digitsAppend, Nat.digitsAppend,
      Nat.digits_zero, List.nil_append, List.nil_append, List.length_nil, List.reverse_replicate,
      List.reverse_replicate]
    exact List.replicate_succ'
  · rw [padded, padded, Nat.digitsAppend, Nat.digitsAppend,
      Nat.digits_def' hb (Nat.pos_of_ne_zero hn), List.cons_append, List.reverse_cons,
      List.length_cons, Nat.add_sub_add_right]

theorem padded_zero (b : Nat) : padded b 0 0 = [] := by
  rw [padded, Nat.digitsAppend, Nat.digits_zero]
  rfl

end Numeral
