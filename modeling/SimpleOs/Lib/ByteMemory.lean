import Mathlib

/-!
# Byte-addressed memory

A flat memory of `2 ^ 64` bytes, read and written in little-endian groups. Addresses wrap: the byte
after the last one is the first one, which is what a 64-bit address computation does.
-/

/-- The contents of memory. Only the addresses below `2 ^ 64` are ever read or written. -/
abbrev ByteMemory := Nat → BitVec 8

namespace ByteMemory

def zero : ByteMemory := fun _ => 0

/-- The little-endian value of the `n` bytes at `a`. -/
def read (m : ByteMemory) (a : Nat) : Nat → Nat
  | 0 => 0
  | n + 1 => (m (a % 2 ^ 64)).toNat + 256 * read m (a + 1) n

def write (m : ByteMemory) (a : Nat) : Nat → Nat → ByteMemory
  | 0, _ => m
  | n + 1, v => write (Function.update m (a % 2 ^ 64) (BitVec.ofNat 8 v)) (a + 1) n (v / 256)

/-- No byte of the `n` at `a` is one of the `k` at `b`. -/
def Apart (a n b k : Nat) : Prop :=
  ∀ i < n, ∀ j < k, (a + i) % 2 ^ 64 ≠ (b + j) % 2 ^ 64

instance (a n b k : Nat) : Decidable (Apart a n b k) :=
  inferInstanceAs (Decidable (∀ i < n, ∀ j < k, _))

def bytes (a n : Nat) : Set Nat := {x | ∃ i < n, (a + i) % 2 ^ 64 = x}

variable {m m' : ByteMemory} {a b n k v w x : Nat}

theorem apart_of_le (ha : a + n ≤ 2 ^ 64) (hb : b + k ≤ 2 ^ 64)
    (h : a + n ≤ b ∨ b + k ≤ a) : Apart a n b k := by
  intro i hi j hj heq
  rw [Nat.mod_eq_of_lt (by omega), Nat.mod_eq_of_lt (by omega)] at heq
  omega

theorem read_lt (m : ByteMemory) (a n : Nat) : read m a n < 256 ^ n := by
  induction n generalizing a with
  | zero => simp [read]
  | succ n ih =>
      have hbyte := (m (a % 2 ^ 64)).isLt
      have htail := ih (a + 1)
      rw [read, pow_succ]
      omega

theorem read_congr (h : ∀ i < n, m ((a + i) % 2 ^ 64) = m' ((b + i) % 2 ^ 64)) :
    read m a n = read m' b n := by
  induction n generalizing a b with
  | zero => rfl
  | succ n ih =>
      have hhead : m (a % 2 ^ 64) = m' (b % 2 ^ 64) := by simpa using h 0 (by omega)
      rw [read, read, hhead]
      congr 2
      refine ih fun i hi => ?_
      have hnext := h (i + 1) (by omega)
      rwa [show a + (i + 1) = a + 1 + i by omega, show b + (i + 1) = b + 1 + i by omega] at hnext

theorem read_of_zero (h : ∀ i < n, m ((a + i) % 2 ^ 64) = 0) : read m a n = 0 := by
  induction n generalizing a with
  | zero => rfl
  | succ n ih =>
      have hhead : m (a % 2 ^ 64) = 0 := by simpa using h 0 (by omega)
      rw [read, hhead, ih fun i hi => ?_]
      · rfl
      · have hnext := h (i + 1) (by omega)
        rwa [show a + (i + 1) = a + 1 + i by omega] at hnext

theorem testBit_read {i : Nat} (hi : i < n) :
    (read m a n).testBit (8 * i) = (m ((a + i) % 2 ^ 64)).getLsbD 0 := by
  induction n generalizing a i with
  | zero => exact absurd hi (Nat.not_lt_zero i)
  | succ n ih =>
      rw [read, Nat.add_comm, show 256 = 2 ^ 8 from rfl, Nat.testBit_two_pow_mul_add _ (BitVec.isLt _)]
      cases i with
      | zero => rfl
      | succ i =>
          rw [if_neg (by omega), show 8 * (i + 1) - 8 = 8 * i by omega, ih (by omega),
            show a + 1 + i = a + (i + 1) by omega]

theorem write_congr (ha : a % 2 ^ 64 = b % 2 ^ 64) (hv : v % 256 ^ n = w % 256 ^ n) :
    write m a n v = write m b n w := by
  induction n generalizing m a b v w with
  | zero => rfl
  | succ n ih =>
      rw [pow_succ'] at hv
      have hhead : BitVec.ofNat 8 v = BitVec.ofNat 8 w := by
        apply BitVec.eq_of_toNat_eq
        rw [BitVec.toNat_ofNat, BitVec.toNat_ofNat, ← Nat.mod_mul_right_mod v 256 (256 ^ n), hv,
          Nat.mod_mul_right_mod]
      have htail : v / 256 % 256 ^ n = w / 256 % 256 ^ n := by
        rw [← Nat.mod_mul_right_div_self, hv, Nat.mod_mul_right_div_self]
      rw [write, write, ha, hhead]
      exact ih (by omega) htail

theorem write_apply_of_outside (h : ∀ i < n, (a + i) % 2 ^ 64 ≠ x) :
    write m a n v x = m x := by
  induction n generalizing m a v with
  | zero => rfl
  | succ n ih =>
      rw [write, ih]
      · exact Function.update_of_ne (by simpa using (h 0 (by omega)).symm) _ _
      · intro i hi
        have hnext := h (i + 1) (by omega)
        rwa [show a + (i + 1) = a + 1 + i by omega] at hnext

theorem write_apply_of_notMem (h : x ∉ bytes a n) : write m a n v x = m x :=
  write_apply_of_outside fun i hi heq => h ⟨i, hi, heq⟩

theorem Apart.disjoint (h : Apart a n b k) : Disjoint (bytes a n) (bytes b k) := by
  rw [Set.disjoint_left]
  rintro x ⟨i, hi, rfl⟩ ⟨j, hj, heq⟩
  exact h i hi j hj heq.symm

theorem read_write_of_apart (h : Apart a n b k) :
    read (write m b k v) a n = read m a n :=
  read_congr fun i hi => write_apply_of_outside fun j hj heq => h i hi j hj heq.symm

/-- The first bytes of what was written. -/
theorem read_write_prefix (hk : k ≤ n) (hn : n ≤ 2 ^ 64) :
    read (write m a n v) a k = v % 256 ^ k := by
  induction n generalizing m a v k with
  | zero =>
      obtain rfl := Nat.le_zero.mp hk
      simp [read, Nat.mod_one]
  | succ n ih =>
      cases k with
      | zero => simp [read, Nat.mod_one]
      | succ k =>
          have hhead : write (Function.update m (a % 2 ^ 64) (BitVec.ofNat 8 v)) (a + 1) n (v / 256)
              (a % 2 ^ 64) = BitVec.ofNat 8 v := by
            rw [write_apply_of_outside, Function.update_self]
            intro i hi heq
            omega
          rw [write, read, hhead, ih (by omega) (by omega), pow_succ, mul_comm (256 ^ k), Nat.mod_mul]
          simp

theorem read_write_self (hn : n ≤ 2 ^ 64) : read (write m a n v) a n = v % 256 ^ n :=
  read_write_prefix le_rfl hn

end ByteMemory
