import SimpleOs.Mm.Heap

/-!
# Reading header fields through header writes

Two headers of a well-formed heap are the same or 32 bytes apart, and the four fields of one header
do not overlap. Under that, a field write is seen by the same field of the same block and by nothing
else.
-/

namespace SimpleOs

variable {m : ByteMemory} {x y v nx : Nat} {f g : Field}

theorem Field.offset_add_width_le (f : Field) : f.offset + f.width ≤ 32 := by
  cases f <;> decide

theorem getField_lt (m : ByteMemory) (x : Nat) (f : Field) : getField m x f < 2 ^ 64 := by
  refine lt_of_lt_of_le (ByteMemory.read_lt m _ f.width) ?_
  cases f <;> decide

theorem getField_setField_self (hv : v < 256 ^ f.width) :
    getField (setField m x f v) x f = v := by
  unfold getField setField
  rw [ByteMemory.read_write_self (by cases f <;> decide), Nat.mod_eq_of_lt hv]

theorem getField_setField_of_ne (hne : f ≠ g) (hx : x + 32 ≤ 2 ^ 64) :
    getField (setField m x g v) x f = getField m x f := by
  unfold getField setField
  apply ByteMemory.read_write_of_apart
  have hf := f.offset_add_width_le
  have hg := g.offset_add_width_le
  refine ByteMemory.apart_of_le (by omega) (by omega) ?_
  cases f <;> cases g <;> simp_all [Field.offset, Field.width]

/-- Headers that do not overlap, neither of them wrapping. -/
def HeadersApart (x y : Nat) : Prop :=
  (x + 32 ≤ y ∨ y + 32 ≤ x) ∧ x + 32 ≤ 2 ^ 64 ∧ y + 32 ≤ 2 ^ 64

theorem getField_setField_of_apart (h : HeadersApart x y) :
    getField (setField m y g v) x f = getField m x f := by
  obtain ⟨hapart, hx, hy⟩ := h
  unfold getField setField
  apply ByteMemory.read_write_of_apart
  have hf := f.offset_add_width_le
  have hg := g.offset_add_width_le
  exact ByteMemory.apart_of_le (by omega) (by omega) (by omega)

theorem getField_relinkPrev_of_apart (h : nx = 0 ∨ HeadersApart x nx) :
    getField (Heap.relinkPrev m nx v) x f = getField m x f := by
  unfold Heap.relinkPrev
  split
  · rename_i hnx
    exact getField_setField_of_apart (h.resolve_left hnx)
  · rfl

theorem getField_relinkPrev_of_ne (hne : f ≠ .prev) (hx : nx + 32 ≤ 2 ^ 64) :
    getField (Heap.relinkPrev m nx v) nx f = getField m nx f := by
  unfold Heap.relinkPrev
  split
  · exact getField_setField_of_ne hne hx
  · rfl

theorem getField_relinkPrev_self (hnx : nx ≠ 0) (hv : v < 2 ^ 64) :
    getField (Heap.relinkPrev m nx v) nx .prev = v := by
  unfold Heap.relinkPrev
  rw [if_pos hnx]
  exact getField_setField_self hv

end SimpleOs
