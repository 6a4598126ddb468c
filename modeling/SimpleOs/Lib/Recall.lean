import Mathlib

/-!
# Recalling what was entered

A list of the last `cap` entries, oldest first, with a cursor that walks back from the newest. An entry
equal to the newest is not kept again: what is kept of a sequence of entries is the end of the sequence
with repetitions dropped.
-/

variable {α : Type} {cap : Nat}

/-- The cursor counts the steps back from the newest entry; at 0 nothing is selected. -/
structure Recall (α : Type) (cap : Nat) where
  entries : List α
  cursor : Nat
  length_le : entries.length ≤ cap
  cursor_le : cursor ≤ entries.length

namespace Recall

variable {r : Recall α cap} {as : List α} {a : α} {k : Nat}

def empty : Recall α cap := ⟨[], 0, Nat.zero_le _, le_rfl⟩

def reset (r : Recall α cap) : Recall α cap := ⟨r.entries, 0, r.length_le, Nat.zero_le _⟩

def prev (r : Recall α cap) : Recall α cap :=
  ⟨r.entries, min (r.cursor + 1) r.entries.length, r.length_le, Nat.min_le_right _ _⟩

def next (r : Recall α cap) : Recall α cap :=
  ⟨r.entries, r.cursor - 1, r.length_le, (Nat.sub_le _ _).trans r.cursor_le⟩

theorem length_rtake_le (l : List α) (n : Nat) : (l.rtake n).length ≤ n := by
  rw [List.rtake, List.length_drop]
  omega

def push (r : Recall α cap) (a : α) : Recall α cap :=
  ⟨(r.entries ++ [a]).rtake cap, 0, length_rtake_le _ _, Nat.zero_le _⟩

def add [DecidableEq α] (r : Recall α cap) (a : α) : Recall α cap :=
  if r.entries.getLast? = some a then r.reset else r.push a

/-- The entry at the cursor. -/
def selected (r : Recall α cap) : Option α :=
  if r.cursor = 0 then none else r.entries.reverse[r.cursor - 1]?

@[simp]
theorem entries_prev : r.prev.entries = r.entries := rfl

@[simp]
theorem cursor_prev : r.prev.cursor = min (r.cursor + 1) r.entries.length := rfl

@[simp]
theorem entries_next : r.next.entries = r.entries := rfl

@[simp]
theorem cursor_next : r.next.cursor = r.cursor - 1 := rfl

@[simp]
theorem entries_reset : r.reset.entries = r.entries := rfl

@[simp]
theorem entries_push : (r.push a).entries = (r.entries ++ [a]).rtake cap := rfl

theorem entries_prevs (k : Nat) : (prev^[k] r).entries = r.entries := by
  induction k with
  | zero => rfl
  | succ k ih => rw [Function.iterate_succ_apply', entries_prev, ih]

theorem cursor_prevs (k : Nat) : (prev^[k] r.reset).cursor = min k r.entries.length := by
  induction k with
  | zero => exact (Nat.zero_min _).symm
  | succ k ih =>
      rw [Function.iterate_succ_apply', cursor_prev, ih, entries_prevs, entries_reset]
      omega

theorem selected_prevs (hk : 0 < k) :
    (prev^[k] r.reset).selected = r.entries.reverse[min k r.entries.length - 1]? := by
  rw [selected, cursor_prevs, entries_prevs, entries_reset]
  split
  · have hempty : r.entries = [] := List.length_eq_zero_iff.mp (by omega)
    rw [hempty]
    rfl
  · rfl

theorem mem_of_selected (h : r.selected = some a) : a ∈ r.entries := by
  rw [selected] at h
  split at h
  · cases h
  · exact List.mem_reverse.mp (List.mem_of_getElem? h)

theorem rtake_append_singleton (hcap : 0 < cap) (l : List α) (a : α) :
    (l.rtake cap ++ [a]).rtake cap = (l ++ [a]).rtake cap := by
  obtain ⟨n, rfl⟩ := Nat.exists_eq_succ_of_ne_zero hcap.ne'
  rw [List.rtake_concat_succ, List.rtake_concat_succ]
  congr 1
  rw [List.rtake, List.rtake, List.rtake, List.drop_drop, List.length_drop]
  congr 1
  omega

theorem getLast?_rtake (hcap : 0 < cap) (l : List α) : (l.rtake cap).getLast? = l.getLast? := by
  rw [List.rtake_eq_reverse_take_reverse, List.getLast?_reverse, List.head?_take, if_neg hcap.ne',
    List.head?_reverse]

variable [DecidableEq α]

theorem destutter'_concat (a b : α) (as : List α) :
    (as ++ [a]).destutter' (· ≠ ·) b =
      if (b :: as).getLast? = some a then as.destutter' (· ≠ ·) b
      else as.destutter' (· ≠ ·) b ++ [a] := by
  induction as generalizing b with
  | nil =>
      by_cases hab : b = a
      · simp [hab]
      · simp [hab]
  | cons c as ih =>
      by_cases hbc : b = c
      · subst hbc
        rw [List.cons_append, List.destutter'_cons_neg _ (by simp), ih,
          List.destutter'_cons_neg _ (by simp), List.getLast?_cons_cons]
      · rw [List.cons_append, List.destutter'_cons_pos _ hbc, ih, List.destutter'_cons_pos _ hbc,
          List.getLast?_cons_cons]
        split
        · rfl
        · rfl

theorem destutter_concat (a : α) (as : List α) :
    (as ++ [a]).destutter (· ≠ ·) =
      if as.getLast? = some a then as.destutter (· ≠ ·) else as.destutter (· ≠ ·) ++ [a] := by
  cases as with
  | nil => rfl
  | cons b as => exact destutter'_concat a b as

theorem getLast?_destutter (as : List α) : (as.destutter (· ≠ ·)).getLast? = as.getLast? := by
  induction as using List.reverseRecOn with
  | nil => rfl
  | append_singleton as a ih =>
      rw [destutter_concat, List.getLast?_concat]
      split
      · rename_i hlast
        rw [ih, hlast]
      · rw [List.getLast?_concat]

/-- What is kept of the entries `as`. -/
def kept (cap : Nat) (as : List α) : List α := (as.destutter (· ≠ ·)).rtake cap

theorem mem_of_mem_kept (h : a ∈ kept cap as) : a ∈ as :=
  (List.destutter_sublist _ as).mem (List.mem_of_mem_drop h)

theorem mem_add {b : α} (h : b ∈ (r.add a).entries) : b ∈ r.entries ∨ b = a := by
  rw [add] at h
  split at h
  · exact Or.inl h
  · rw [entries_push] at h
    exact (List.mem_append.mp (List.mem_of_mem_drop h)).imp_right List.mem_singleton.mp

theorem entries_add (hcap : 0 < cap) (h : r.entries = kept cap as) :
    (r.add a).entries = kept cap (as ++ [a]) := by
  rw [add, h, kept, kept, getLast?_rtake hcap, getLast?_destutter, destutter_concat]
  split
  · exact h
  · rw [entries_push, h, kept, rtake_append_singleton hcap]

end Recall
