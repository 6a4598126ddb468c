import Mathlib

/-!
# Strings that end with a NUL

A string is its bytes up to the terminator. An array holds a string if it starts with these bytes and
the terminator; what follows in the array does not matter.
-/

def ascii (c : Char) : BitVec 8 := BitVec.ofNat 8 c.toNat

@[ext]
structure CString where
  bytes : List (BitVec 8)
  nonzero : 0 ∉ bytes
deriving DecidableEq

namespace CString

variable {s : CString} {buf : Nat → BitVec 8} {l : List (BitVec 8)} {i n : Nat}

def length (s : CString) : Nat := s.bytes.length

/-- What is read at an index up to the terminator. -/
def byte (s : CString) (i : Nat) : BitVec 8 := s.bytes.getD i 0

def StoredIn (s : CString) (buf : Nat → BitVec 8) : Prop := ∀ i ≤ s.length, buf i = s.byte i

/-- The bytes of `buf` from `i` on up to a NUL, of which at most `n` are read. -/
def scan (buf : Nat → BitVec 8) (i : Nat) : Nat → List (BitVec 8)
  | 0 => []
  | n + 1 => if buf i = 0 then [] else buf i :: scan buf (i + 1) n

theorem zero_notMem_scan : 0 ∉ scan buf i n := by
  induction n generalizing i with
  | zero => exact List.not_mem_nil
  | succ n ih =>
      rw [scan]
      split
      · exact List.not_mem_nil
      · rename_i hne
        exact List.not_mem_cons_of_ne_of_not_mem (Ne.symm hne) ih

/-- The string in an array of `n` bytes. -/
def ofArray (buf : Nat → BitVec 8) (n : Nat) : CString := ⟨scan buf 0 n, zero_notMem_scan⟩

theorem scan_eq_iff (hzero : 0 ∉ l) (hlen : l.length < n) :
    scan buf i n = l ↔ ∀ j ≤ l.length, buf (i + j) = l.getD j 0 := by
  induction n generalizing i l with
  | zero => exact absurd hlen (Nat.not_lt_zero _)
  | succ n ih =>
      rw [scan]
      cases l with
      | nil => simp
      | cons b l =>
          rw [List.mem_cons, not_or] at hzero
          have htail := ih (i := i + 1) hzero.2 (Nat.lt_of_succ_lt_succ hlen)
          by_cases hbuf : buf i = 0
          · rw [if_pos hbuf]
            refine iff_of_false (List.cons_ne_nil b l).symm fun h => hzero.1 ?_
            rw [← hbuf]
            exact h 0 (Nat.zero_le _)
          · rw [if_neg hbuf, List.cons.injEq, htail]
            constructor
            · rintro ⟨hhead, h⟩ j hj
              cases j with
              | zero => exact hhead
              | succ j =>
                  rw [show i + (j + 1) = i + 1 + j by omega, List.getD_cons_succ]
                  exact h j (Nat.le_of_succ_le_succ hj)
            · intro h
              refine ⟨h 0 (Nat.zero_le _), fun j hj => ?_⟩
              have hnext := h (j + 1) (Nat.succ_le_succ hj)
              rwa [show i + (j + 1) = i + 1 + j by omega, List.getD_cons_succ] at hnext

theorem StoredIn.ofArray_eq (h : s.StoredIn buf) (hlen : s.length < n) : ofArray buf n = s := by
  apply CString.ext
  apply (scan_eq_iff s.nonzero hlen).mpr
  intro j hj
  rw [Nat.zero_add]
  exact h j hj

/-- A string shorter than its array is terminated in it. -/
theorem storedIn_ofArray (hlen : (ofArray buf n).length < n) : (ofArray buf n).StoredIn buf := by
  intro j hj
  have hscan : scan buf 0 n = (ofArray buf n).bytes := rfl
  have hbyte := (scan_eq_iff (ofArray buf n).nonzero hlen).mp hscan j hj
  rwa [Nat.zero_add] at hbyte

theorem byte_length (s : CString) : s.byte s.length = 0 := List.getD_eq_default _ _ le_rfl

theorem byte_ne_zero (hi : i < s.length) : s.byte i ≠ 0 := by
  intro hzero
  rw [byte, List.getD_eq_getElem _ _ hi] at hzero
  exact s.nonzero (hzero ▸ List.getElem_mem hi)

variable {c : BitVec 8}

def empty : CString := ⟨[], List.not_mem_nil⟩

def snoc (s : CString) (c : BitVec 8) (hc : c ≠ 0) : CString where
  bytes := s.bytes ++ [c]
  nonzero := by
    rw [List.mem_append, List.mem_singleton, not_or]
    exact ⟨s.nonzero, hc.symm⟩

def dropLast (s : CString) : CString where
  bytes := s.bytes.dropLast
  nonzero := fun h => s.nonzero (List.mem_of_mem_dropLast h)

@[simp]
theorem length_snoc (hc : c ≠ 0) : (s.snoc c hc).length = s.length + 1 := by
  rw [length, snoc, List.length_append]
  rfl

@[simp]
theorem length_dropLast : s.dropLast.length = s.length - 1 := List.length_dropLast

theorem storedIn_empty : empty.StoredIn (Function.update buf 0 0) := by
  intro i hi
  obtain rfl := Nat.le_zero.mp hi
  rw [Function.update_self]
  rfl

theorem StoredIn.terminate (h : s.StoredIn buf) : s.StoredIn (Function.update buf s.length 0) := by
  intro i hi
  obtain rfl | hlt := Nat.eq_or_lt_of_le hi
  · rw [Function.update_self, byte_length]
  · rw [Function.update_of_ne hlt.ne, h i hi]

theorem StoredIn.snoc (h : s.StoredIn buf) (hc : c ≠ 0) :
    (s.snoc c hc).StoredIn (Function.update (Function.update buf s.length c) (s.length + 1) 0) := by
  intro i hi
  rw [length_snoc] at hi
  obtain rfl | hlt := Nat.eq_or_lt_of_le hi
  · rw [Function.update_self, ← length_snoc hc, byte_length]
  have hbyte : (s.snoc c hc).byte i = (s.bytes ++ [c]).getD i 0 := rfl
  rw [Function.update_of_ne hlt.ne, hbyte]
  obtain rfl | hlt := Nat.eq_or_lt_of_le (Nat.le_of_lt_succ hlt)
  · rw [Function.update_self, length, List.getD_append_right _ _ _ _ le_rfl, Nat.sub_self]
    rfl
  · rw [Function.update_of_ne hlt.ne, h i hlt.le, List.getD_append _ _ _ _ hlt]
    rfl

theorem StoredIn.dropLast (h : s.StoredIn buf) :
    s.dropLast.StoredIn (Function.update buf (s.length - 1) 0) := by
  intro i hi
  rw [length_dropLast] at hi
  obtain rfl | hlt := Nat.eq_or_lt_of_le hi
  · rw [Function.update_self, ← length_dropLast, byte_length]
  · have hfirst : i < s.bytes.length := by
      rw [← length]
      omega
    have hinit : i < s.bytes.dropLast.length := by
      rw [List.length_dropLast, ← length]
      exact hlt
    rw [Function.update_of_ne hlt.ne, h i hfirst.le, byte, byte, CString.dropLast,
      List.getD_eq_getElem _ _ hfirst, List.getD_eq_getElem _ _ hinit, List.getElem_dropLast]

end CString
