import Mathlib

/-!
# Radix trees in a store of nodes

A node has a child, or none, at each index; a path of indices is walked from the root. `Unaliased`
says that the paths up to a depth lead to different nodes, so that the store is a tree that far down.
Then an edit of one entry of one node is an edit at one path: hanging a fresh node into an empty entry
(`walk_graft`), and rewriting an entry of the last level (`walk_leaf`).
-/

namespace Radix

variable {α ι : Type*}

def walk (child : α → ι → Option α) (root : α) : List ι → Option α
  | [] => some root
  | i :: path => (child root i).bind fun node => walk child node path

/-- Different paths of at most `depth` indices lead to different nodes. -/
def Unaliased (child : α → ι → Option α) (root : α) (depth : Nat) : Prop :=
  ∀ path path' node, path.length ≤ depth → path'.length ≤ depth →
    walk child root path = some node → walk child root path' = some node → path = path'

variable {child child' : α → ι → Option α} {root node fresh : α} {depth : Nat} {path : List ι}
  {i : ι}

theorem walk_snoc (child : α → ι → Option α) (root : α) (path : List ι) (i : ι) :
    walk child root (path ++ [i]) = (walk child root path).bind fun node => child node i := by
  induction path generalizing root with
  | nil =>
      simp only [List.nil_append, walk, Option.bind_some]
      cases child root i <;> rfl
  | cons j path ih =>
      simp only [List.cons_append, walk]
      cases child root j with
      | none => rfl
      | some node => exact ih node

theorem Unaliased.snoc_eq_iff (htree : Unaliased child root depth)
    (hpath : walk child root path = some node) (hle : path.length ≤ depth) {front : List ι}
    {node' : α} {j : ι} (hfront : walk child root front = some node') (hle' : front.length ≤ depth) :
    front ++ [j] = path ++ [i] ↔ node' = node ∧ j = i := by
  constructor
  · intro heq
    obtain ⟨rfl, hlast⟩ := List.append_inj' heq rfl
    exact ⟨Option.some_inj.mp (hfront.symm.trans hpath), List.singleton_inj.mp hlast⟩
  · rintro ⟨rfl, rfl⟩
    rw [htree front path node' hle' hle hfront hpath]

theorem snoc_ne_of_walk_eq_none (hpath : walk child root path = some node) {front : List ι} {j : ι}
    (hfront : walk child root front = none) : front ++ [j] ≠ path ++ [i] := by
  intro heq
  rw [(List.append_inj' heq rfl).1, hpath] at hfront
  cases hfront

section Edit

variable [DecidableEq ι]

/-- The last index of a path makes a difference in the edited entry only. -/
theorem Unaliased.bind_edited (htree : Unaliased child root depth)
    (hpath : walk child root path = some node) (hdepth : path.length ≤ depth)
    (hkeep : ∀ path' node' j, path'.length ≤ depth → walk child root path' = some node' →
      ¬ (node' = node ∧ j = i) → child' node' j = child node' j)
    {front : List ι} (hshort : front.length ≤ depth) (j : ι) :
    ((walk child root front).bind fun node' => child' node' j) =
      if front ++ [j] = path ++ [i] then child' node i
      else (walk child root front).bind fun node' => child node' j := by
  cases hwalk : walk child root front with
  | none =>
      rw [if_neg (snoc_ne_of_walk_eq_none hpath hwalk)]
      rfl
  | some node' =>
      have hiff := htree.snoc_eq_iff (i := i) (j := j) hpath hdepth hwalk hshort
      by_cases hedited : node' = node ∧ j = i
      · rw [if_pos (hiff.mpr hedited), hedited.1, hedited.2]
        rfl
      · rw [if_neg fun heq => hedited (hiff.mp heq)]
        exact hkeep front node' j hshort hwalk hedited

/-- Rewriting an entry of a node at the last level changes what is found there and nothing else. -/
theorem walk_leaf (htree : Unaliased child root depth) (hpath : walk child root path = some node)
    (hdepth : path.length = depth)
    (hkeep : ∀ path' node' j, path'.length ≤ depth → walk child root path' = some node' →
      ¬ (node' = node ∧ j = i) → child' node' j = child node' j)
    {path' : List ι} (hle : path'.length ≤ depth + 1) :
    walk child' root path' = if path' = path ++ [i] then child' node i else walk child root path' := by
  induction path' using List.reverseRecOn with
  | nil => simp [walk]
  | append_singleton front j ih =>
      have hshort : front.length ≤ depth := by simpa using hle
      -- a shorter path does not go through the edited entry
      have hsame : walk child' root front = walk child root front := by
        rw [ih (by omega), if_neg]
        intro heq
        rw [heq, List.length_append, hdepth] at hshort
        simp at hshort
      rw [walk_snoc, walk_snoc, hsame]
      exact htree.bind_edited hpath hdepth.le hkeep hshort j

/-- Hanging a node without children into an empty entry adds one path and changes no other. -/
theorem walk_graft (htree : Unaliased child root depth) (hpath : walk child root path = some node)
    (hdepth : path.length < depth) (hempty : child node i = none)
    (hset : child' node i = some fresh) (hclear : ∀ j, child' fresh j = none)
    (hkeep : ∀ path' node' j, path'.length ≤ depth → walk child root path' = some node' →
      ¬ (node' = node ∧ j = i) → child' node' j = child node' j)
    {path' : List ι} (hle : path'.length ≤ depth + 1) :
    walk child' root path' =
      if path' = path ++ [i] then some fresh else walk child root path' := by
  induction path' using List.reverseRecOn with
  | nil => simp [walk]
  | append_singleton front j ih =>
      have hshort : front.length ≤ depth := by simpa using hle
      rw [walk_snoc, walk_snoc, ih (by omega)]
      by_cases hfront : front = path ++ [i]
      · -- below the fresh node there is nothing, before and after
        have hnone : walk child root front = none := by
          rw [hfront, walk_snoc, hpath, Option.bind_some, hempty]
        rw [if_pos hfront, if_neg, hnone]
        · exact hclear j
        · intro heq
          have hlength := congrArg List.length (hfront ▸ heq)
          simp at hlength
      · rw [if_neg hfront, htree.bind_edited hpath hdepth.le hkeep hshort j, hset]

theorem Unaliased.graft (htree : Unaliased child root depth)
    (hfresh : ∀ path', path'.length ≤ depth → walk child root path' ≠ some fresh)
    (hwalk : ∀ path', path'.length ≤ depth → walk child' root path' =
      if path' = path then some fresh else walk child root path') :
    Unaliased child' root depth := by
  intro p q a hp hq hpa hqa
  rw [hwalk p hp] at hpa
  rw [hwalk q hq] at hqa
  split at hpa
  · rename_i hpath
    cases hpa
    split at hqa
    · rename_i hpath'
      exact hpath.trans hpath'.symm
    · exact absurd hqa (hfresh q hq)
  · split at hqa
    · cases hqa
      exact absurd hpa (hfresh p hp)
    · exact htree p q a hp hq hpa hqa

end Edit

end Radix
