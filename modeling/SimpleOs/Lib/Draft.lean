import SimpleOs.Lib.Recall

/-!
# A line that is edited between recalls

The line that an editor shows is a recalled entry, or the draft: what was last edited. The draft is set
aside when browsing begins and is shown where no entry is selected; editing makes what is shown the draft.
-/

variable {α : Type} {cap : Nat}

structure Draft (α : Type) (cap : Nat) where
  line : α
  saved : Option α
  history : Recall α cap

namespace Draft

variable {d : Draft α cap} {move : Recall α cap → Recall α cap} {k : Nat}

def draft (d : Draft α cap) : α := d.saved.getD d.line

def start (a : α) (r : Recall α cap) : Draft α cap := ⟨a, none, r⟩

def edit (d : Draft α cap) (a : α) : Draft α cap := ⟨a, none, d.history⟩

def browse (d : Draft α cap) (move : Recall α cap → Recall α cap) : Draft α cap :=
  ⟨(move d.history).selected.getD d.draft, some d.draft, move d.history⟩

@[simp]
theorem draft_browse : (d.browse move).draft = d.draft := rfl

theorem cursor_nexts (k : Nat) (d : Draft α cap) :
    ((browse · Recall.next)^[k] d).history.cursor = d.history.cursor - k := by
  induction k with
  | zero => rfl
  | succ k ih =>
      rw [Function.iterate_succ_apply']
      change _ - 1 = _
      rw [ih, Nat.sub_sub]

theorem draft_nexts (k : Nat) (d : Draft α cap) :
    ((browse · Recall.next)^[k] d).draft = d.draft := by
  induction k with
  | zero => rfl
  | succ k ih => rw [Function.iterate_succ_apply', draft_browse, ih]

/-- Past the newest entry the draft is shown again. -/
theorem line_nexts (hk : 0 < k) (hcap : cap ≤ k) (d : Draft α cap) :
    ((browse · Recall.next)^[k] d).line = d.draft := by
  obtain ⟨n, rfl⟩ := Nat.exists_eq_succ_of_ne_zero hk.ne'
  have hcursor : ((browse · Recall.next)^[n] d).history.next.cursor = 0 := by
    have hlength := d.history.length_le
    have hle := d.history.cursor_le
    rw [Recall.cursor_next, cursor_nexts]
    omega
  rw [Function.iterate_succ_apply', browse, Recall.selected, if_pos hcursor, Option.getD_none,
    draft_nexts]

end Draft
