import SimpleOs.Lib.ByteMemory

/-!
# Checksums in one's complement

The sum of the 16-bit words of a stretch of memory, and the carries added back to it. With `M` for
`2 ^ w - 1`, adding back the carries of a sum in words of `w` bits gives its residue modulo `M`, with `M`
in place of 0 unless the sum is 0. So a sum and its complement add up to `M`.
-/

/-- A sum with its carries added back. -/
def endAround (M s : Nat) : Nat := if s = 0 then 0 else (s - 1) % M + 1

variable {M s : Nat}

theorem endAround_le (hM : 0 < M) : endAround M s ≤ M := by
  rw [endAround]
  split
  · exact Nat.zero_le M
  · exact Nat.mod_lt _ hM

theorem endAround_of_le (h : s ≤ M) : endAround M s = s := by
  rw [endAround]
  split
  · rename_i hzero
    exact hzero.symm
  · rw [Nat.mod_eq_of_lt (by omega)]
    omega

/-- One carry is added back. -/
theorem endAround_carry {b q r : Nat} (hb : b = M + 1) :
    endAround M (b * q + r) = endAround M (q + r) := by
  subst hb
  rw [endAround, endAround]
  by_cases hzero : q + r = 0
  · obtain ⟨rfl, rfl⟩ := Nat.add_eq_zero_iff.mp hzero
    rfl
  · have hsum : (M + 1) * q + r ≠ 0 := by
      rw [Nat.add_mul, Nat.one_mul]
      omega
    rw [if_neg hsum, if_neg hzero]
    have hsplit : (M + 1) * q + r - 1 = q + r - 1 + M * q := by
      rw [Nat.add_mul, Nat.one_mul]
      omega
    rw [hsplit, Nat.add_mul_mod_self_left]

/-- A sum and its complement. -/
theorem endAround_add_complement (hM : 0 < M) (s : Nat) :
    endAround M (s + (M - endAround M s)) = M := by
  by_cases hzero : s = 0
  · have hnone : endAround M 0 = 0 := if_pos rfl
    rw [hzero, hnone, Nat.sub_zero, Nat.zero_add]
    exact endAround_of_le le_rfl
  · have hdiv := Nat.div_add_mod (s - 1) M
    have hlt := Nat.mod_lt (s - 1) hM
    have hfull : s + (M - endAround M s) = M * ((s - 1) / M) + M := by
      rw [endAround, if_neg hzero]
      omega
    have hpred : M * ((s - 1) / M) + M - 1 = M - 1 + M * ((s - 1) / M) := by omega
    rw [hfull, endAround, if_neg (by omega), hpred, Nat.add_mul_mod_self_left,
      Nat.mod_eq_of_lt (by omega)]
    omega

namespace ByteMemory

variable {m m' : ByteMemory} {p len v : Nat}

/-- The sum of the little-endian words of 16 bits from `p` on; an odd byte at the end is a word. -/
def wordSum (m : ByteMemory) : Nat → Nat → Nat
  | p, len + 2 => m.read p 2 + wordSum m (p + 2) len
  | p, 1 => m.read p 1
  | _, 0 => 0

theorem wordSum_le (m : ByteMemory) (p len : Nat) : m.wordSum p len ≤ 65535 * ((len + 1) / 2) := by
  fun_induction wordSum m p len with
  | case1 p len ih =>
      have hword : m.read p 2 < 65536 := read_lt m p 2
      omega
  | case2 p =>
      have hbyte : m.read p 1 < 256 := read_lt m p 1
      omega
  | case3 p => exact Nat.zero_le _

theorem wordSum_congr (h : ∀ i < len, m ((p + i) % 2 ^ 64) = m' ((p + i) % 2 ^ 64)) :
    m.wordSum p len = m'.wordSum p len := by
  fun_induction wordSum m p len with
  | case1 p len ih =>
      rw [wordSum, read_congr fun i hi => h i (by omega), ih fun i hi => ?_]
      rw [Nat.add_assoc]
      exact h (2 + i) (by omega)
  | case2 p => exact read_congr h
  | case3 p => rfl

/-- Writing one of the words, where there was 0, adds it to the sum. -/
theorem wordSum_write {j : Nat} (hj : 2 * j + 2 ≤ len) (hroom : p + len ≤ 2 ^ 64)
    (hzero : m.read (p + 2 * j) 2 = 0) (hv : v < 65536) :
    (m.write (p + 2 * j) 2 v).wordSum p len = m.wordSum p len + v := by
  induction j generalizing p len with
  | zero =>
      obtain ⟨len, rfl⟩ := Nat.exists_eq_add_of_le' hj
      have hzero : m.read p 2 = 0 := hzero
      have htail : (m.write p 2 v).wordSum (p + 2) len = m.wordSum (p + 2) len := by
        apply wordSum_congr
        intro i hi
        apply write_apply_of_outside
        intro k hk
        rw [Nat.mod_eq_of_lt (by omega), Nat.mod_eq_of_lt (by omega)]
        omega
      change (m.write p 2 v).wordSum p (len + 2) = _
      have hmod : v % 256 ^ 2 = v := Nat.mod_eq_of_lt hv
      rw [wordSum, wordSum, htail, hzero, read_write_self (by decide), hmod, Nat.zero_add,
        Nat.add_comm]
  | succ j ih =>
      obtain ⟨len, rfl⟩ := Nat.exists_eq_add_of_le' (show 2 ≤ len by omega)
      have hnext : p + 2 * (j + 1) = p + 2 + 2 * j := by omega
      have hhead : (m.write (p + 2 * (j + 1)) 2 v).read p 2 = m.read p 2 :=
        read_write_of_apart (apart_of_le (by omega) (by omega) (Or.inl (by omega)))
      rw [wordSum, wordSum, hhead, hnext, ih (by omega) (by omega) (hnext ▸ hzero), Nat.add_assoc]

end ByteMemory
