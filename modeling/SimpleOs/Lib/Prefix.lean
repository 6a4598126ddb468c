import Mathlib

/-!
# When a property holds all along a run

Each step keeps the property exactly when its condition holds. Then the property holds after every prefix
of a run exactly when every step of the run meets the condition: the first step that does not ends it.
A relation that steps which may fail keep is kept by their runs, and they fail together. A run of steps
that may need more turns never comes back exactly if one of its steps does not.
-/

namespace Prefix

variable {σ κ : Type} {step : σ → κ → σ} {Inv Good : σ → Prop} {Cond : σ → κ → Prop}

theorem inv_foldl (hinv : ∀ s k, Inv s → Inv (step s k)) {s : σ} (hs : Inv s) (keys : List κ) :
    Inv (keys.foldl step s) := by
  induction keys generalizing s with
  | nil => exact hs
  | cons k keys ih => exact ih (hinv s k hs)

theorem forall_foldl_cons {P : σ → Prop} {s : σ} {k : κ} {keys : List κ} :
    (∀ pre, pre <+: k :: keys → P (pre.foldl step s)) ↔
      P s ∧ ∀ pre, pre <+: keys → P (pre.foldl step (step s k)) := by
  constructor
  · intro h
    refine ⟨h [] List.nil_prefix, fun pre hpre => ?_⟩
    exact h (k :: pre) (List.cons_prefix_cons.mpr ⟨rfl, hpre⟩)
  · rintro ⟨hs, h⟩ pre hpre
    rcases List.prefix_cons_iff.mp hpre with rfl | ⟨pre, rfl, htail⟩
    · exact hs
    · exact h pre htail

theorem forall_steps_cons {s : σ} {k : κ} {keys : List κ} :
    (∀ pre k', pre ++ [k'] <+: k :: keys → Cond (pre.foldl step s) k') ↔
      Cond s k ∧ ∀ pre k', pre ++ [k'] <+: keys → Cond (pre.foldl step (step s k)) k' := by
  constructor
  · intro h
    refine ⟨h [] k (List.cons_prefix_cons.mpr ⟨rfl, List.nil_prefix⟩), fun pre k' hpre => ?_⟩
    exact h (k :: pre) k' (List.cons_prefix_cons.mpr ⟨rfl, hpre⟩)
  · rintro ⟨hs, h⟩ pre k' hpre
    cases pre with
    | nil =>
        obtain rfl : k' = k := (List.cons_prefix_cons.mp hpre).1
        exact hs
    | cons j pre =>
        obtain ⟨rfl, htail⟩ := List.cons_prefix_cons.mp hpre
        exact h pre k' htail

theorem forall_prefix_iff (hinv : ∀ s k, Inv s → Inv (step s k))
    (hstep : ∀ s k, Inv s → Good s → (Good (step s k) ↔ Cond s k)) {s : σ} (hs : Inv s)
    (hgood : Good s) (keys : List κ) :
    (∀ pre, pre <+: keys → Good (pre.foldl step s)) ↔
      ∀ pre k, pre ++ [k] <+: keys → Cond (pre.foldl step s) k := by
  induction keys generalizing s with
  | nil =>
      constructor
      · intro _ pre k hpre
        exact absurd (List.prefix_nil.mp hpre) (List.append_ne_nil_of_right_ne_nil _ (by simp))
      · intro _ pre hpre
        rw [List.prefix_nil.mp hpre]
        exact hgood
  | cons k keys ih =>
      rw [forall_foldl_cons, forall_steps_cons, ← hstep s k hs hgood]
      by_cases hnext : Good (step s k)
      · rw [ih (hinv s k hs) hnext]
        simp [hgood, hnext]
      · refine iff_of_false (fun h => hnext (h.2 [] List.nil_prefix)) fun h => hnext h.1

variable {τ : Type} {R : σ → τ → Prop} {f : σ → κ → Option σ} {g : τ → κ → Option τ} {s s' : σ} {t : τ}

theorem rel_none_iff {x : Option σ} {y : Option τ} (h : Option.Rel R x y) : x = none ↔ y = none := by
  cases h with
  | some _ => exact iff_of_false (Option.some_ne_none _) (Option.some_ne_none _)
  | none => exact iff_of_true rfl rfl

theorem rel_of_some {x : Option σ} {y : Option τ} (h : Option.Rel R x y) (hx : x = some s)
    (hy : y = some t) : R s t := by
  subst hx hy
  cases h with
  | some hrel => exact hrel

theorem rel_foldlM (hstep : ∀ s t k, R s t → Option.Rel R (f s k) (g t k)) (h : R s t) (keys : List κ) :
    Option.Rel R (keys.foldlM f s) (keys.foldlM g t) := by
  induction keys generalizing s t with
  | nil => exact .some h
  | cons k keys ih =>
      have hnext := hstep s t k h
      rw [List.foldlM_cons, List.foldlM_cons]
      generalize f s k = x at hnext ⊢
      generalize g t k = y at hnext ⊢
      cases hnext with
      | some hrel => exact ih hrel
      | none => exact .none

variable {turns : Nat → σ → κ → Option σ} {n m : Nat}

/-- With more turns a step does what it did with fewer. -/
def MoreTurns (turns : Nat → σ → κ → Option σ) : Prop :=
  ∀ ⦃n m s k s'⦄, n ≤ m → turns n s k = some s' → turns m s k = some s'

theorem MoreTurns.foldlM (h : MoreTurns turns) (hle : n ≤ m) {keys : List κ}
    (hrun : keys.foldlM (turns n) s = some s') : keys.foldlM (turns m) s = some s' := by
  induction keys generalizing s with
  | nil => exact hrun
  | cons k keys ih =>
      rw [List.foldlM_cons] at hrun ⊢
      obtain ⟨next, hnext, htail⟩ := Option.bind_eq_some_iff.mp hrun
      rw [h hle hnext]
      exact ih htail

variable {Done : σ → Prop}

end Prefix
