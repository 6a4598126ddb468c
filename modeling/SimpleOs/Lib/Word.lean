import SimpleOs.Lib.ByteMemory

/-!
# Wrapping 64-bit arithmetic on natural numbers
-/

def wadd (a b : Nat) : Nat := (a + b) % 2 ^ 64

def wsub (a b : Nat) : Nat := (a + (2 ^ 64 - b % 2 ^ 64)) % 2 ^ 64

/-- Bitwise `x & ~7`. -/
def alignDown (x : Nat) : Nat := x &&& (2 ^ 64 - 8)

/-- Bitwise `x & ~(align - 1)`. -/
def clearBelow (align x : Nat) : Nat := x &&& (2 ^ 64 - 1 - (align - 1))

variable {a b k x : Nat}

theorem wadd_lt (a b : Nat) : wadd a b < 2 ^ 64 := Nat.mod_lt _ (by decide)

theorem wadd_of_lt (h : a + b < 2 ^ 64) : wadd a b = a + b := Nat.mod_eq_of_lt h

theorem wsub_of_le (hle : b ≤ a) (hlt : a < 2 ^ 64) : wsub a b = a - b := by
  unfold wsub
  rw [Nat.mod_eq_of_lt (lt_of_le_of_lt hle hlt)]
  omega

theorem clearBelow_eq (hk : k ≤ 64) (hx : x < 2 ^ 64) :
    clearBelow (2 ^ k) x = x / 2 ^ k * 2 ^ k := by
  apply Nat.eq_of_testBit_eq
  intro i
  have hpos := Nat.two_pow_pos k
  have hsplit : 2 ^ (64 - k) * 2 ^ k = 2 ^ 64 := by rw [← pow_add, Nat.sub_add_cancel hk]
  have hmask : 2 ^ 64 - 1 - (2 ^ k - 1) = (2 ^ (64 - k) - 1) <<< k := by
    rw [Nat.shiftLeft_eq, Nat.sub_mul, hsplit]
    omega
  have hright : x / 2 ^ k * 2 ^ k = (x >>> k) <<< k := by
    rw [Nat.shiftRight_eq_div_pow, Nat.shiftLeft_eq]
  rw [clearBelow, hmask, hright, Nat.testBit_and, Nat.testBit_shiftLeft, Nat.testBit_shiftLeft,
    Nat.testBit_shiftRight, Nat.testBit_two_pow_sub_one]
  by_cases hlow : i < k
  · simp [Nat.not_le.mpr hlow]
  · rw [show k + (i - k) = i by omega]
    by_cases hhigh : i < 64
    · have hmem : i - k < 64 - k := by omega
      simp [hmem, Bool.and_comm]
    · have hzero : x.testBit i = false :=
        Nat.testBit_lt_two_pow (lt_of_lt_of_le hx (Nat.pow_le_pow_right (by decide) (by omega)))
      simp [hzero]

theorem alignDown_eq (h : x < 2 ^ 64) : alignDown x = x / 8 * 8 := clearBelow_eq (k := 3) (by decide) h
