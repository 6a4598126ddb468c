import Mathlib

/-!
# Images in linear memory

An image is a function of column and row. A raster keeps one in a linear memory, row after row: `pitch`
cells for each row, of which the first `width` are shown.

Copying cell after cell is a simultaneous assignment as long as no cell is read after it was written.
-/

/-- The cell `m.2` is copied to `m.1`. -/
def moveCell {ι α : Type} [DecidableEq ι] (f : ι → α) (m : ι × ι) : ι → α :=
  Function.update f m.1 (f m.2)

section Moves

variable {ι α : Type} [DecidableEq ι] {f : ι → α} {moves : List (ι × ι)} {i : ι}

theorem foldl_moveCell_of_notMem (h : ∀ m ∈ moves, m.1 ≠ i) : moves.foldl moveCell f i = f i := by
  induction moves generalizing f with
  | nil => rfl
  | cons m moves ih =>
      rw [List.foldl_cons, ih fun m' hm' => h m' (List.mem_cons_of_mem m hm'), moveCell,
        Function.update_of_ne (h m List.mem_cons_self).symm]

/-- What is moved later is neither read from nor written to a cell that was written before. -/
theorem foldl_moveCell_of_mem (h : moves.Pairwise fun m m' => m'.1 ≠ m.1 ∧ m'.2 ≠ m.1) {m : ι × ι}
    (hm : m ∈ moves) : moves.foldl moveCell f m.1 = f m.2 := by
  induction moves generalizing f with
  | nil => cases hm
  | cons first moves ih =>
      obtain ⟨hfirst, hrest⟩ := List.pairwise_cons.mp h
      rw [List.foldl_cons]
      obtain rfl | hlater := List.mem_cons.mp hm
      · rw [foldl_moveCell_of_notMem fun m' hm' => (hfirst m' hm').1, moveCell, Function.update_self]
      · rw [ih hrest hlater, moveCell, Function.update_of_ne (hfirst m hlater).2]

end Moves

structure Raster where
  width : Nat
  height : Nat
  pitch : Nat
  width_le : width ≤ pitch

/-- The column and the row of a pixel. -/
abbrev Pixel := Nat × Nat

namespace Raster

variable {α : Type} (r : Raster)

def cell (p : Pixel) : Nat := p.2 * r.pitch + p.1

def Visible (p : Pixel) : Prop := p.1 < r.width ∧ p.2 < r.height

/-- The memory shows the image, and is what it was where nothing is shown. -/
structure Depicts (before memory : Nat → α) (image : Pixel → α) : Prop where
  shown : ∀ p, r.Visible p → memory (r.cell p) = image p
  hidden : ∀ i, (∀ p, r.Visible p → i ≠ r.cell p) → memory i = before i

variable {r} {before memory : Nat → α} {image image' : Pixel → α} {p q : Pixel} {a : α}

theorem cell_injOn : Set.InjOn r.cell {p | r.Visible p} := by
  rintro ⟨x, y⟩ ⟨hx, -⟩ ⟨x', y'⟩ ⟨hx', -⟩ heq
  have hwidth := r.width_le
  have hrow : ∀ x y, x < r.width → (y * r.pitch + x) / r.pitch = y := by
    intro x y hx
    rw [Nat.mul_comm, Nat.mul_add_div (by omega), Nat.div_eq_of_lt (by omega), Nat.add_zero]
  have hy : y = y' := by
    rw [← hrow x y hx, ← hrow x' y' hx']
    exact congrArg (· / r.pitch) heq
  subst hy
  have hx : x = x' := Nat.add_left_cancel heq
  rw [hx]

/-- All cells that are shown are in `height` rows of `pitch` cells. -/
theorem cell_lt (hp : r.Visible p) : r.cell p < r.pitch * r.height := by
  obtain ⟨hx, hy⟩ := hp
  calc r.cell p < p.2 * r.pitch + r.pitch := Nat.add_lt_add_left (hx.trans_le r.width_le) _
    _ = r.pitch * (p.2 + 1) := by ring
    _ ≤ r.pitch * r.height := Nat.mul_le_mul_left _ hy

theorem depicts_self (memory : Nat → α) : r.Depicts memory memory fun p => memory (r.cell p) :=
  ⟨fun _ _ => rfl, fun _ _ => rfl⟩

theorem Depicts.congr (h : r.Depicts before memory image)
    (hsame : ∀ p, r.Visible p → image p = image' p) : r.Depicts before memory image' :=
  ⟨fun p hp => (h.shown p hp).trans (hsame p hp), h.hidden⟩

theorem Depicts.set (h : r.Depicts before memory image) (hp : r.Visible p) (a : α) :
    r.Depicts before (Function.update memory (r.cell p) a) (Function.update image p a) := by
  refine ⟨fun q hq => ?_, fun i hi => ?_⟩
  · by_cases heq : q = p
    · rw [heq, Function.update_self, Function.update_self]
    · rw [Function.update_of_ne (mt (cell_injOn hq hp ·) heq), Function.update_of_ne heq, h.shown q hq]
  · rw [Function.update_of_ne (hi p hp), h.hidden i hi]

/-- Pixels are set one after the other. -/
def setAll {ι : Type} [DecidableEq ι] (f : ι → α) (dots : List (ι × α)) : ι → α :=
  dots.foldl (fun f d => Function.update f d.1 d.2) f

theorem setAll_of_notMem {ι : Type} [DecidableEq ι] {f : ι → α} {dots : List (ι × α)} {i : ι}
    (h : ∀ d ∈ dots, d.1 ≠ i) : setAll f dots i = f i := by
  induction dots generalizing f with
  | nil => rfl
  | cons d dots ih =>
      rw [setAll, List.foldl_cons]
      exact (ih fun d' hd' => h d' (List.mem_cons_of_mem d hd')).trans
        (Function.update_of_ne (h d List.mem_cons_self).symm _ _)

/-- Where every dot has the same colour their order is of no matter. -/
theorem setAll_of_mem {ι : Type} [DecidableEq ι] {f : ι → α} {dots : List (ι × α)} {i : ι}
    (hcolor : ∀ d ∈ dots, d.2 = a) (h : ∃ d ∈ dots, d.1 = i) : setAll f dots i = a := by
  induction dots generalizing f with
  | nil => exact absurd h (by simp)
  | cons d dots ih =>
      have hrest : ∀ d' ∈ dots, d'.2 = a := fun d' hd' => hcolor d' (List.mem_cons_of_mem d hd')
      by_cases hlater : ∃ d' ∈ dots, d'.1 = i
      · exact ih hrest hlater
      · obtain ⟨d', hd', rfl⟩ := h
        obtain rfl | hd' := List.mem_cons.mp hd'
        · rw [setAll, List.foldl_cons, ← hcolor d' List.mem_cons_self]
          exact (setAll_of_notMem fun e he heq => hlater ⟨e, he, heq⟩).trans (Function.update_self _ _ _)
        · exact absurd ⟨d', hd', rfl⟩ hlater

/-- Every row from the `n`th on is moved up by `n`. -/
def scrollUp (height n : Nat) (image : Pixel → α) : Pixel → α := fun p =>
  if p.2 + n < height then image (p.1, p.2 + n) else image p

end Raster
