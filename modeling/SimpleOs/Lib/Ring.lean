import Mathlib

/-!
# Rings

`len` cells of a ring of `cap` cells, from `start` on. Writing the cell after the last one appends to
them, moving `start` past the first one drops it.

Where `cap` is a power of two, `start` can be a counter of any width that runs on and wraps.
-/

namespace Ring

variable {α : Type} {cells : Nat → α} {cap start len i j : Nat} {a : α}

def contents (cells : Nat → α) (cap start len : Nat) : List α :=
  (List.range len).map fun i => cells ((start + i) % cap)

@[simp]
theorem length_contents : (contents cells cap start len).length = len := by
  simp [contents]

theorem getElem?_contents (hi : i < len) :
    (contents cells cap start len)[i]? = some (cells ((start + i) % cap)) := by
  simp [contents, hi]

theorem contents_succ : contents cells cap start (len + 1) =
    contents cells cap start len ++ [cells ((start + len) % cap)] := by
  simp [contents, List.range_succ]

theorem contents_cons : contents cells cap start (len + 1) =
    cells (start % cap) :: contents cells cap ((start + 1) % cap) len := by
  unfold contents
  rw [List.range_succ_eq_map, List.map_cons, List.map_map, Nat.add_zero]
  congr 1
  apply List.map_congr_left
  intro i _
  rw [Function.comp, Nat.mod_add_mod, Nat.succ_eq_add_one, Nat.add_right_comm, Nat.add_assoc]

theorem index_injOn (hi : i < cap) (hj : j < cap) (h : (start + i) % cap = (start + j) % cap) :
    i = j := by
  have hmod : i % cap = j % cap := Nat.ModEq.add_left_cancel' start h
  rwa [Nat.mod_eq_of_lt hi, Nat.mod_eq_of_lt hj] at hmod

theorem contents_update (hj : j < cap) (hlen : len ≤ j) :
    contents (Function.update cells ((start + j) % cap) a) cap start len =
      contents cells cap start len := by
  apply List.map_congr_left
  intro i hi
  apply Function.update_of_ne
  intro heq
  have hlt := List.mem_range.mp hi
  have hsame : i = j := index_injOn (by omega) hj heq
  omega

theorem contents_push (hlen : len < cap) :
    contents (Function.update cells ((start + len) % cap) a) cap start (len + 1) =
      contents cells cap start len ++ [a] := by
  rw [contents_succ, contents_update hlen le_rfl, Function.update_self]

/-- In a full ring the cell after the last one is the first one. -/
theorem contents_replace (hcap : 0 < cap) (hstart : start < cap) :
    contents (Function.update cells start a) cap ((start + 1) % cap) cap =
      (contents cells cap start cap).tail ++ [a] := by
  obtain ⟨n, rfl⟩ : ∃ n, cap = n + 1 := ⟨cap - 1, by omega⟩
  have hlast : ((start + 1) % (n + 1) + n) % (n + 1) = start := by
    rw [Nat.mod_add_mod, show start + 1 + n = start + (n + 1) by omega, Nat.add_mod_right,
      Nat.mod_eq_of_lt hstart]
  have hpush : contents (Function.update cells (((start + 1) % (n + 1) + n) % (n + 1)) a) (n + 1)
      ((start + 1) % (n + 1)) (n + 1) = contents cells (n + 1) ((start + 1) % (n + 1)) n ++ [a] :=
    contents_push (Nat.lt_succ_self n)
  rw [hlast] at hpush
  rw [hpush, contents_cons, List.tail_cons]

theorem length_sub_mod (hstart : start < cap) (hlen : len < cap) :
    ((start + len) % cap + cap - start) % cap = len := by
  rcases Nat.lt_or_ge (start + len) cap with hlt | hge
  · rw [Nat.mod_eq_of_lt hlt, show start + len + cap - start = len + cap by omega,
      Nat.add_mod_right, Nat.mod_eq_of_lt hlen]
  · rw [Nat.mod_eq_sub_mod hge, Nat.mod_eq_of_lt (show start + len - cap < cap by omega),
      show start + len - cap + cap - start = len by omega, Nat.mod_eq_of_lt hlen]

/-- `marked` holds of the `len` slots from `start` on. -/
def Marks (marked : Nat → Bool) (cap start len : Nat) : Prop :=
  ∀ i, marked i = true ↔ ∃ j < len, i = (start + j) % cap

variable {marked : Nat → Bool}

theorem Marks.next (h : Marks marked cap start len) (hlen : len < cap) :
    marked ((start + len) % cap) = false := by
  apply Bool.eq_false_iff.mpr
  intro hmarked
  obtain ⟨j, hj, heq⟩ := (h _).mp hmarked
  exact hj.ne' (index_injOn hlen (hj.trans hlen) heq)

theorem Marks.push (h : Marks marked cap start len) :
    Marks (Function.update marked ((start + len) % cap) true) cap start (len + 1) := by
  intro i
  by_cases hi : i = (start + len) % cap
  · rw [hi, Function.update_self]
    exact iff_of_true rfl ⟨len, Nat.lt_succ_self len, rfl⟩
  · rw [Function.update_of_ne hi, h i]
    constructor
    · rintro ⟨j, hj, rfl⟩
      exact ⟨j, Nat.lt_succ_of_lt hj, rfl⟩
    · rintro ⟨j, hj, rfl⟩
      exact ⟨j, Nat.lt_of_le_of_ne (Nat.le_of_lt_succ hj) fun heq => hi (by rw [heq]), rfl⟩

theorem Marks.pop (h : Marks marked cap start (len + 1)) (hlen : len < cap) :
    Marks (Function.update marked (start % cap) false) cap (start + 1) len := by
  intro i
  by_cases hi : i = start % cap
  · rw [hi, Function.update_self]
    refine iff_of_false Bool.false_ne_true ?_
    rintro ⟨j, hj, heq⟩
    rw [Nat.add_right_comm, Nat.add_assoc] at heq
    have hzero : 0 = j + 1 := index_injOn (Nat.zero_lt_of_lt hlen) (by omega) heq
    omega
  · rw [Function.update_of_ne hi, h i]
    constructor
    · rintro ⟨j, hj, rfl⟩
      obtain ⟨j, rfl⟩ := Nat.exists_eq_succ_of_ne_zero fun heq : j = 0 => hi (by rw [heq, Nat.add_zero])
      exact ⟨j, Nat.lt_of_succ_lt_succ hj, by rw [Nat.add_right_comm, Nat.add_assoc]⟩
    · rintro ⟨j, hj, rfl⟩
      exact ⟨j + 1, Nat.succ_lt_succ hj, by rw [Nat.add_right_comm, Nat.add_assoc]⟩

theorem contents_mod : contents cells cap (start % cap) len = contents cells cap start len := by
  unfold contents
  apply List.map_congr_left
  intro i _
  rw [Nat.mod_add_mod]

theorem contents_cons_counter : contents cells cap start (len + 1) =
    cells (start % cap) :: contents cells cap (start + 1) len := by
  rw [contents_cons, contents_mod]

theorem counter_slot {w k : Nat} {size : BitVec w} (hsize : size.toNat = 2 ^ k) (i : Nat) :
    (BitVec.ofNat w i &&& (size - 1#w)).toNat = i % 2 ^ k := by
  have hlt : 2 ^ k < 2 ^ w := hsize ▸ size.isLt
  have hpos : 0 < 2 ^ k := Nat.two_pow_pos k
  have hone : (1#w).toNat = 1 := by
    rw [BitVec.toNat_ofNat]
    exact Nat.mod_eq_of_lt (by omega)
  have hmask : (size - 1#w).toNat = 2 ^ k - 1 := by
    rw [BitVec.toNat_sub_of_le (by rw [BitVec.le_def, hone]; omega), hsize, hone]
  have hk : k ≤ w := ((Nat.pow_lt_pow_iff_right (by decide : 1 < 2)).mp hlt).le
  rw [BitVec.toNat_and, hmask, Nat.and_two_pow_sub_one_eq_mod, BitVec.toNat_ofNat,
    Nat.mod_mod_of_dvd _ (Nat.pow_dvd_pow 2 hk)]

/-- Two counters less than a whole turn apart are equal only if they are. -/
theorem counter_eq_iff {w d : Nat} (hd : d < 2 ^ w) (i : Nat) :
    BitVec.ofNat w i = BitVec.ofNat w (i + d) ↔ d = 0 := by
  constructor
  · intro h
    have hmod := congrArg BitVec.toNat h
    rw [BitVec.toNat_ofNat, BitVec.toNat_ofNat] at hmod
    exact (index_injOn (Nat.two_pow_pos w) hd hmod).symm
  · rintro rfl
    rfl

end Ring
