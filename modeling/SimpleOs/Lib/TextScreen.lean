import Mathlib

/-!
# Text on a screen

Rows of cells on a picture. A row covers `rowHeight` lines of pixels from its top on, a cell `cellWidth`
columns of it. What is printed in a cell is printed over what is there already; where nothing is printed
there is the paper. Scrolling moves the rows and the picture up by one row.
-/

/-- How wide a cell is and how high a row, and the pixels of a glyph: where it sets one, its colour. -/
structure Typeface (γ α : Type) where
  cellWidth : Nat
  rowHeight : Nat
  ink : γ → Nat → Nat → Option α
  paper : α

/-- The top is negative where a row is only in part on the screen. -/
structure TextRow (γ : Type) where
  top : Int
  /-- What was printed in a cell, in order. -/
  cells : Nat → List γ

/-- The row with the cursor, the older ones from the newest on, and the picture that they are printed
on. -/
structure TextScreen (γ α : Type) where
  current : TextRow γ
  older : List (TextRow γ)
  base : Nat × Nat → α

namespace TextRow

variable {γ α : Type} (face : Typeface γ α)

def Covers (row : TextRow γ) (y : Nat) : Prop := row.top ≤ y ∧ (y : Int) < row.top + face.rowHeight

instance (row : TextRow γ) (y : Nat) : Decidable (row.Covers face y) :=
  inferInstanceAs (Decidable (_ ∧ _))

/-- Glyphs are printed one over the other. -/
def inked (gs : List γ) (x y : Nat) : α := gs.foldl (fun a g => (face.ink g x y).getD a) face.paper

def pixel (row : TextRow γ) (p : Nat × Nat) : α :=
  inked face (row.cells (p.1 / face.cellWidth)) (p.1 % face.cellWidth) (p.2 - row.top).toNat

def blank (top : Int) : TextRow γ := ⟨top, fun _ => []⟩

def moveUp (n : Nat) (row : TextRow γ) : TextRow γ := ⟨row.top - n, row.cells⟩

variable {face} {row : TextRow γ} {gs : List γ} {g : γ} {x y n : Nat} {top : Int} {p : Nat × Nat}

theorem inked_concat : inked face (gs ++ [g]) x y = (face.ink g x y).getD (inked face gs x y) :=
  List.foldl_concat _ _ _ _

theorem pixel_blank : (blank top : TextRow γ).pixel face p = face.paper := rfl

theorem covers_moveUp : (row.moveUp n).Covers face y ↔ row.Covers face (y + n) := by
  change row.top - n ≤ y ∧ (y : Int) < row.top - n + face.rowHeight ↔ _
  rw [Covers, Nat.cast_add]
  omega

theorem pixel_moveUp : (row.moveUp n).pixel face p = row.pixel face (p.1, p.2 + n) := by
  have hline : (p.2 : Int) - (row.top - n) = (p.2 + n : Nat) - row.top := by
    rw [Nat.cast_add]
    omega
  rw [pixel, pixel, moveUp, hline]

end TextRow

namespace TextScreen

open TextRow

variable {γ α : Type} (face : Typeface γ α)

/-- What is seen. -/
def picture (s : TextScreen γ α) (p : Nat × Nat) : α :=
  match (s.current :: s.older).find? (·.Covers face p.2) with
  | some row => row.pixel face p
  | none => s.base p

/-- A glyph is printed in a cell of the current row. -/
def put (s : TextScreen γ α) (column : Nat) (g : γ) : TextScreen γ α :=
  { s with
    current :=
      { s.current with cells := Function.update s.current.cells column (s.current.cells column ++ [g]) } }

def erase (s : TextScreen γ α) (column : Nat) : TextScreen γ α :=
  { s with current := { s.current with cells := Function.update s.current.cells column [] } }

/-- The next row is below the current one. -/
def feed (s : TextScreen γ α) : TextScreen γ α :=
  { s with
    current := .blank (s.current.top + face.rowHeight)
    older := s.current :: s.older }

/-- Everything moves up, and the next row is at the bottom. -/
def scroll (s : TextScreen γ α) (height : Nat) : TextScreen γ α where
  current := .blank (height - face.rowHeight)
  older := (s.current :: s.older).map (TextRow.moveUp face.rowHeight)
  base p := s.base (p.1, p.2 + face.rowHeight)

/-- No row is below the current one, and there the picture is paper. -/
structure Below (s : TextScreen γ α) : Prop where
  older : ∀ row ∈ s.older, row.top ≤ s.current.top
  base : ∀ p : Nat × Nat, s.current.top ≤ p.2 → s.base p = face.paper

variable {face} {s : TextScreen γ α} {column height : Nat} {g : γ} {p : Nat × Nat}

@[simp]
theorem top_put : (s.put column g).current.top = s.current.top := rfl

@[simp]
theorem cells_put : (s.put column g).current.cells =
    Function.update s.current.cells column (s.current.cells column ++ [g]) := rfl

@[simp]
theorem top_erase : (s.erase column).current.top = s.current.top := rfl

@[simp]
theorem cells_erase : (s.erase column).current.cells = Function.update s.current.cells column [] := rfl

@[simp]
theorem top_feed : (s.feed face).current.top = s.current.top + face.rowHeight := rfl

@[simp]
theorem top_scroll : (s.scroll face height).current.top = height - face.rowHeight := rfl

theorem picture_of_covers (h : s.current.Covers face p.2) : s.picture face p = s.current.pixel face p := by
  rw [picture, List.find?_cons, decide_eq_true h]

theorem picture_of_not_covers (h : ¬ s.current.Covers face p.2) : s.picture face p =
    match s.older.find? (·.Covers face p.2) with
    | some row => row.pixel face p
    | none => s.base p := by
  rw [picture, List.find?_cons, decide_eq_false h]

/-- Before anything is printed the picture is seen. -/
theorem picture_fresh {top : Int} {base : Nat × Nat → α}
    (h : ∀ p : Nat × Nat, top ≤ p.2 → base p = face.paper) :
    picture face ⟨.blank top, [], base⟩ p = base p := by
  by_cases hrow : (TextRow.blank top : TextRow γ).Covers face p.2
  · rw [picture_of_covers hrow, pixel_blank, h p hrow.1]
  · rw [picture_of_not_covers hrow]
    rfl

theorem picture_put : (s.put column g).picture face p =
    if s.current.Covers face p.2 ∧ p.1 / face.cellWidth = column then
      (face.ink g (p.1 % face.cellWidth) (p.2 - s.current.top).toNat).getD (s.picture face p)
    else s.picture face p := by
  by_cases hrow : s.current.Covers face p.2
  · have hrow' : (s.put column g).current.Covers face p.2 := hrow
    rw [picture_of_covers hrow', picture_of_covers hrow, pixel, pixel, cells_put, top_put]
    by_cases hcell : p.1 / face.cellWidth = column
    · rw [if_pos ⟨hrow, hcell⟩, hcell, Function.update_self, inked_concat]
    · rw [if_neg fun h => hcell h.2, Function.update_of_ne hcell]
  · have hrow' : ¬ (s.put column g).current.Covers face p.2 := hrow
    rw [if_neg fun h => hrow h.1, picture_of_not_covers hrow', picture_of_not_covers hrow]
    rfl

theorem picture_erase : (s.erase column).picture face p =
    if s.current.Covers face p.2 ∧ p.1 / face.cellWidth = column then face.paper
    else s.picture face p := by
  by_cases hrow : s.current.Covers face p.2
  · have hrow' : (s.erase column).current.Covers face p.2 := hrow
    rw [picture_of_covers hrow', picture_of_covers hrow, pixel, pixel, cells_erase, top_erase]
    by_cases hcell : p.1 / face.cellWidth = column
    · rw [if_pos ⟨hrow, hcell⟩, hcell, Function.update_self]
      rfl
    · rw [if_neg fun h => hcell h.2, Function.update_of_ne hcell]
  · have hrow' : ¬ (s.erase column).current.Covers face p.2 := hrow
    rw [if_neg fun h => hrow h.1, picture_of_not_covers hrow', picture_of_not_covers hrow]
    rfl

/-- A row is blank where there was paper. -/
theorem picture_feed (h : s.Below face) : (s.feed face).picture face p = s.picture face p := by
  by_cases hrow : (s.feed face).current.Covers face p.2
  · have hbelow : s.current.top + face.rowHeight ≤ p.2 := hrow.1
    have hnone : (s.current :: s.older).find? (·.Covers face p.2) = none := by
      refine List.find?_eq_none.mpr fun row hmem hcovers => ?_
      have hlt := (of_decide_eq_true hcovers).2
      obtain rfl | hold := List.mem_cons.mp hmem
      · omega
      · have hle := h.older row hold
        omega
    rw [picture_of_covers hrow, feed, pixel_blank, picture, hnone, h.base p (by omega)]
  · rw [picture_of_not_covers hrow]
    rfl

theorem picture_scroll (hp : p.2 < height) :
    (s.scroll face height).picture face p =
      if height ≤ p.2 + face.rowHeight then face.paper
      else s.picture face (p.1, p.2 + face.rowHeight) := by
  have hiff : (s.scroll face height).current.Covers face p.2 ↔ height ≤ p.2 + face.rowHeight := by
    rw [Covers, top_scroll]
    omega
  split
  · rename_i hbottom
    rw [picture_of_covers (hiff.mpr hbottom), scroll, pixel_blank]
  · rename_i hup
    rw [picture_of_not_covers (mt hiff.mp hup), picture, scroll, List.find?_map]
    simp only [Function.comp_def, covers_moveUp]
    cases (s.current :: s.older).find? fun row => row.Covers face (p.2 + face.rowHeight) with
    | none => rfl
    | some row => exact pixel_moveUp

theorem Below.feed (h : s.Below face) : (s.feed face).Below face := by
  refine ⟨fun row hrow => ?_, fun p hp => h.base p ?_⟩
  · change row.top ≤ s.current.top + face.rowHeight
    obtain rfl | hold := List.mem_cons.mp hrow
    · omega
    · have hle := h.older row hold
      omega
  · change s.current.top + face.rowHeight ≤ p.2 at hp
    omega

theorem Below.scroll (h : s.Below face) (htop : s.current.top + face.rowHeight ≤ height) :
    (s.scroll face height).Below face := by
  refine ⟨fun row hrow => ?_, fun p hp => h.base _ ?_⟩
  · obtain ⟨old, hold, rfl⟩ := List.mem_map.mp hrow
    change old.top - face.rowHeight ≤ height - face.rowHeight
    obtain rfl | hold := List.mem_cons.mp hold
    · omega
    · have hle := h.older old hold
      omega
  · change (height : Int) - face.rowHeight ≤ p.2 at hp
    rw [Nat.cast_add]
    omega

end TextScreen
