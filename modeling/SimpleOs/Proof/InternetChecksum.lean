import SimpleOs.Lib.Checksum
import SimpleOs.Lib.Fields
import SimpleOs.Net.Packet

/-!
# The Internet checksum

`ip_checksum` takes the complement of a sum of words. Stored in a word of the same stretch that was 0, it
makes the sum come out full, and the checksum of the stretch 0.
-/

namespace SimpleOs

open Traced

variable {buffer : Buffer} {m m' : ByteMemory} {data o p len : Nat}

theorem toNat_sumWords (sum : BitVec 32) : (sumWords buffer m p len sum).value.toNat =
    (sum.toNat + m.wordSum p len) % 2 ^ 32 := by
  fun_induction sumWords buffer m p len sum with
  | case1 p len sum ih =>
      have hword : m.read p 2 < 65536 := ByteMemory.read_lt m p 2
      have hload : ((m.field p 16).setWidth 32).toNat = m.read p 2 := by
        rw [BitVec.toNat_setWidth_of_le (by decide), ByteMemory.field, BitVec.toNat_ofNat]
        exact Nat.mod_eq_of_lt hword
      rw [value_bind, value_load, ih, BitVec.toNat_add, hload, ByteMemory.wordSum]
      omega
  | case2 p sum =>
      have hbyte : m.read p 1 < 256 := ByteMemory.read_lt m p 1
      have hload : ((m.field p 8).setWidth 32).toNat = m.read p 1 := by
        rw [BitVec.toNat_setWidth_of_le (by decide), ByteMemory.field, BitVec.toNat_ofNat]
        exact Nat.mod_eq_of_lt hbyte
      rw [value_bind, value_load, value_pure, BitVec.toNat_add, hload, ByteMemory.wordSum]
  | case3 p sum => exact (Nat.mod_eq_of_lt sum.isLt).symm

theorem toNat_foldCarries (sum : BitVec 32) :
    (foldCarries sum).toNat = endAround 65535 sum.toNat := by
  fun_induction foldCarries sum with
  | case1 sum hnone =>
      have hhigh : sum.toNat / 65536 = 0 := by
        have hshift := congrArg BitVec.toNat hnone
        rwa [BitVec.toNat_ushiftRight, Nat.shiftRight_eq_div_pow] at hshift
      exact (endAround_of_le (by omega)).symm
  | case2 sum hcarry ih =>
      rw [ih, toNat_carries, Nat.add_comm, ← endAround_carry (b := 65536) rfl, Nat.div_add_mod]

/-- Up to 65535 bytes, the sum of 32 bits does not wrap. -/
theorem toNat_sumWords_zero (buffer : Buffer) (m : ByteMemory) (data : Nat) (hlen : len ≤ 65535) :
    (sumWords buffer m data len 0#32).value.toNat = m.wordSum data len := by
  have hbound := m.wordSum_le data len
  rw [toNat_sumWords]
  exact (congrArg (· % 2 ^ 32) (Nat.zero_add _)).trans (Nat.mod_eq_of_lt (by omega))

theorem toNat_ipChecksum (buffer : Buffer) {len : BitVec 32} (hlen : len.toNat ≤ 65535) :
    (ipChecksum buffer m data len).value.toNat =
      65535 - endAround 65535 (m.wordSum data len.toNat) := by
  have hint : len.toInt.toNat = len.toNat := by
    rw [BitVec.toInt_eq_toNat_of_lt (by omega), Int.toNat_natCast]
  have hsum := toNat_sumWords_zero buffer m data hlen
  have hfold := toNat_foldCarries (sumWords buffer m data len.toNat 0#32).value
  have hle := endAround_le (M := 65535) (by decide) (s := m.wordSum data len.toNat)
  rw [hsum] at hfold
  rw [ipChecksum, value_bind, value_pure, hint, BitVec.toNat_not, BitVec.toNat_setWidth, hfold,
    Nat.mod_eq_of_lt (by omega)]

theorem ipChecksum_congr {len : BitVec 32} (hlen : len.toNat ≤ 65535)
    (h : ∀ x, data ≤ x → x < data + len.toNat → m x = m' x) (hroom : data + len.toNat ≤ 2 ^ 64) :
    (ipChecksum buffer m data len).value = (ipChecksum buffer m' data len).value := by
  apply BitVec.eq_of_toNat_eq
  have hsum : m.wordSum data len.toNat = m'.wordSum data len.toNat := by
    apply ByteMemory.wordSum_congr
    intro i hi
    rw [Nat.mod_eq_of_lt (by omega)]
    exact h _ (Nat.le_add_right data i) (by omega)
  rw [toNat_ipChecksum buffer hlen, toNat_ipChecksum buffer hlen, hsum]

/-- The checksum, stored in a word of 0 at an even offset, verifies. -/
theorem ipChecksum_put_self {len : BitVec 32} {j : Nat} (hlen : len.toNat ≤ 65535)
    (hj : 2 * j + 2 ≤ len.toNat) (hroom : data + len.toNat ≤ 2 ^ 64)
    (hzero : m.field (data + 2 * j) 16 = 0) :
    (ipChecksum buffer (m.put (data + 2 * j) (ipChecksum buffer m data len).value) data len).value =
      0 := by
  have hword : m.read (data + 2 * j) 2 = 0 := by
    have hread : m.read (data + 2 * j) 2 < 65536 := ByteMemory.read_lt m (data + 2 * j) 2
    have hnat := congrArg BitVec.toNat hzero
    rw [ByteMemory.field, BitVec.toNat_ofNat] at hnat
    exact (Nat.mod_eq_of_lt hread).symm.trans hnat
  have hsum : (m.put (data + 2 * j) (ipChecksum buffer m data len).value).wordSum data len.toNat =
      m.wordSum data len.toNat + (65535 - endAround 65535 (m.wordSum data len.toNat)) := by
    rw [← toNat_ipChecksum buffer hlen]
    exact ByteMemory.wordSum_write hj hroom hword (BitVec.isLt _)
  apply BitVec.eq_of_toNat_eq
  rw [toNat_ipChecksum buffer hlen, hsum, endAround_add_complement (by decide)]
  rfl

/-- The body of the loop that adds the carries back. -/
def foldRound (sum : BitVec 32) : BitVec 32 := (sum &&& 0xFFFF#32) + (sum >>> 16)

/-- The loop stops: it runs for as long as there are carries. -/
theorem exists_foldRounds (sum : BitVec 32) : ∃ rounds,
    (∀ i < rounds, foldRound^[i] sum >>> 16 ≠ 0#32) ∧ foldRound^[rounds] sum >>> 16 = 0#32 ∧
      foldCarries sum = foldRound^[rounds] sum := by
  fun_induction foldCarries sum with
  | case1 sum hnone => exact ⟨0, fun i hi => absurd hi (Nat.not_lt_zero i), hnone, rfl⟩
  | case2 sum hcarry ih =>
      obtain ⟨rounds, hbefore, hafter, hvalue⟩ := ih
      refine ⟨rounds + 1, fun i hi => ?_, hafter, hvalue⟩
      cases i with
      | zero => exact hcarry
      | succ i => exact hbefore i (Nat.lt_of_succ_lt_succ hi)

/-- **The Internet checksum.** Of up to 65535 bytes, odd numbers included: with a word at an even offset
zeroed and then set to the checksum, the checksum is 0. Whatever the bytes are, the accumulator is the sum
of what has been added, and the carries are all added back. -/
theorem ipChecksum_verifies (buffer : Buffer) (m : ByteMemory) {n : BitVec 32}
    (hmax : n.toNat ≤ 65535) (heven : o % 2 = 0) (ho : o + 2 ≤ n.toNat)
    (hroom : data + n.toNat ≤ 2 ^ 64) :
    (let zeroed := m.put (data + o) 0#16
      let c := (ipChecksum buffer zeroed data n).value
      (ipChecksum buffer (zeroed.put (data + o) c) data n).value = 0) ∧
    (∀ (m' : ByteMemory), ∀ len ≤ n.toNat,
      (sumWords buffer m' data len 0#32).value.toNat = m'.wordSum data len) ∧
    ∀ sum, ∃ rounds, (∀ i < rounds, foldRound^[i] sum >>> 16 ≠ 0#32) ∧
      foldRound^[rounds] sum >>> 16 = 0#32 ∧ foldCarries sum = foldRound^[rounds] sum := by
  obtain ⟨j, rfl⟩ : ∃ j, o = 2 * j := ⟨o / 2, by omega⟩
  refine ⟨?_, fun m' len hlen => ?_, exists_foldRounds⟩
  · have hzero : (m.put (data + 2 * j) 0#16).field (data + 2 * j) 16 = 0 :=
      ByteMemory.field_put_self (by decide) (by decide)
    exact ipChecksum_put_self hmax ho hroom hzero
  · exact toNat_sumWords_zero buffer m' data (hlen.trans hmax)

def fiveBytes : ByteMemory := fun i => BitVec.ofNat 8 (i + 1)

theorem ipChecksum_verifies_fiveBytes :
    (ipChecksum .pingReply ((fiveBytes.put (0 + 2) 0#16).put (0 + 2)
      (ipChecksum .pingReply (fiveBytes.put (0 + 2) 0#16) 0 5#32).value) 0 5#32).value = 0 := by
  have hroom : 0 + (5#32).toNat ≤ 2 ^ 64 := by decide
  exact (ipChecksum_verifies (o := 2) .pingReply fiveBytes (by decide) (by decide) (by decide) hroom).1

end SimpleOs
