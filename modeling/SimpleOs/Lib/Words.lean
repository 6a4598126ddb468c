import Mathlib

/-!
# Words

The words of a list are its maximal runs of elements that are not separators, in order.
-/

namespace Words

variable {α : Type*} {p : α → Bool} {c s : α} {l gap w : List α} {k : Nat}

def words (p : α → Bool) (l : List α) : List (List α) := (l.splitOnP p).filter (!·.isEmpty)

theorem ne_nil_of_mem_words (h : w ∈ words p l) : w ≠ [] := by
  obtain ⟨-, hne⟩ := List.mem_filter.mp h
  rintro rfl
  cases hne

theorem words_nil : words p [] = [] := rfl

theorem words_cons_sep (hc : p c = true) : words p (c :: l) = words p l := by
  rw [words, List.splitOnP_cons_eq_if_modifyHead, if_pos hc]
  rfl

theorem words_gap_append (hgap : ∀ c ∈ gap, p c = true) (l : List α) :
    words p (gap ++ l) = words p l := by
  induction gap with
  | nil => rfl
  | cons c gap ih =>
      rw [List.cons_append, words_cons_sep (hgap c List.mem_cons_self)]
      exact ih fun c' hc' => hgap c' (List.mem_cons_of_mem c hc')

theorem words_eq_singleton (hne : w ≠ []) (hw : ∀ c ∈ w, p c = false) : words p w = [w] := by
  rw [words, List.splitOnP_eq_singleton hw]
  exact List.filter_eq_self.mpr (List.forall_mem_singleton.mpr (by simpa using hne))

theorem words_append_cons (hne : w ≠ []) (hw : ∀ c ∈ w, p c = false) (hs : p s = true)
    (l : List α) : words p (w ++ s :: l) = w :: words p l := by
  rw [words, List.splitOnP_append_cons_of_forall_mem hw s hs l]
  exact List.filter_cons_of_pos (by simpa using hne)

/-- A list is its elements with a property up to the first one without it, and the rest. -/
theorem exists_span (p : α → Bool) (l : List α) : ∃ run rest, l = run ++ rest ∧
    (∀ c ∈ run, p c = true) ∧ ∀ c ∈ rest.head?, p c = false := by
  refine ⟨l.takeWhile p, l.dropWhile p, List.takeWhile_append_dropWhile.symm,
    fun c hc => List.mem_takeWhile_imp hc, fun c hc => ?_⟩
  have hnot := List.head?_dropWhile_not p l
  rw [Option.mem_def.mp hc] at hnot
  simpa using hnot

/-- The gap before the first word, the word, and what comes after it. -/
theorem words_cases (p : α → Bool) (l : List α) :
    ((∀ c ∈ l, p c = true) ∧ words p l = []) ∨
    ∃ gap w rest, l = gap ++ (w ++ rest) ∧ (∀ c ∈ gap, p c = true) ∧ w ≠ [] ∧
      (∀ c ∈ w, p c = false) ∧ ((rest = [] ∧ words p l = [w]) ∨
        ∃ s tail, rest = s :: tail ∧ p s = true ∧ words p l = w :: words p tail) := by
  obtain ⟨gap, l', rfl, hgap, hhead⟩ := exists_span p l
  obtain ⟨w, rest, rfl, hw, hrest⟩ := exists_span (fun c => !p c) l'
  have hword : ∀ c ∈ w, p c = false := fun c hc => by simpa using hw c hc
  rw [words_gap_append hgap]
  by_cases hne : w = []
  · subst hne
    cases rest with
    | nil => exact Or.inl ⟨by rwa [List.append_nil, List.append_nil], words_nil⟩
    | cons c rest =>
        have hsep : p c = true := by simpa using hrest c rfl
        rw [hhead c rfl] at hsep
        cases hsep
  · refine Or.inr ⟨gap, w, rest, rfl, hgap, hne, hword, ?_⟩
    cases rest with
    | nil =>
        rw [List.append_nil]
        exact Or.inl ⟨rfl, words_eq_singleton hne hword⟩
    | cons s tail =>
        have hs : p s = true := by simpa using hrest s rfl
        exact Or.inr ⟨s, tail, rfl, hs, words_append_cons hne hword hs tail⟩

theorem mem_of_mem_words (hw : w ∈ words p l) (hc : c ∈ w) : c ∈ l := by
  induction hn : l.length using Nat.strong_induction_on generalizing l with
  | _ n ih =>
      obtain ⟨-, hnone⟩ | ⟨gap, v, rest, rfl, -, -, -, htail⟩ := words_cases p l
      · rw [hnone] at hw
        cases hw
      refine List.mem_append_right gap ?_
      obtain ⟨-, hwords⟩ | ⟨s, tail, rfl, -, hwords⟩ := htail
      · rw [hwords, List.mem_singleton] at hw
        exact List.mem_append_left rest (hw ▸ hc)
      · rw [hwords] at hw
        obtain rfl | hw := List.mem_cons.mp hw
        · exact List.mem_append_left _ hc
        · refine List.mem_append_right v (List.mem_cons_of_mem s (ih tail.length ?_ hw rfl))
          rw [← hn, List.length_append, List.length_append, List.length_cons]
          omega

/-- Words joined by single separators are longer with more of them. -/
theorem length_intercalate_take_lt {ws : List (List α)} (hk : k < ws.length)
    (hne : ∀ w ∈ ws, w ≠ []) :
    ([s].intercalate (ws.take k)).length < ([s].intercalate ws).length := by
  induction ws generalizing k with
  | nil => exact absurd hk (Nat.not_lt_zero k)
  | cons w ws ih =>
      have hw := List.length_pos_of_ne_nil (hne w List.mem_cons_self)
      cases ws with
      | nil =>
          obtain rfl := Nat.lt_one_iff.mp hk
          rwa [List.take_zero, List.intercalate_nil, List.intercalate_singleton]
      | cons w' ws =>
          have hwhole : ([s].intercalate (w :: w' :: ws)).length =
              w.length + ([s].intercalate (w' :: ws)).length + 1 := by
            rw [List.intercalate_cons_cons, List.length_append, List.length_append, List.length_singleton]
            omega
          rw [hwhole]
          cases k with
          | zero => exact Nat.succ_pos _
          | succ k =>
              have htail := ih (Nat.lt_of_succ_lt_succ hk) fun v hv => hne v (List.mem_cons_of_mem w hv)
              cases k with
              | zero =>
                  rw [List.take_succ_cons, List.take_zero, List.intercalate_singleton]
                  omega
              | succ k =>
                  rw [List.take_succ_cons, List.take_succ_cons, List.intercalate_cons_cons,
                    ← List.take_succ_cons, List.length_append, List.length_append,
                    List.length_singleton]
                  omega

end Words
