import SimpleOs.Console

/-!
# Columns of the console

A row has `fb_width / 8` columns. A character moves the cursor by one, and from the last column to the
first; a backspace moves it back by one, but not from the first. Tabs and carriage returns are left out.
-/

namespace SimpleOs

/-- The characters that `shell_readline` takes into a line. -/
def Printable (c : BitVec 8) : Prop := 32 ≤ c.toNat ∧ c.toNat < 127

instance (c : BitVec 8) : Decidable (Printable c) := inferInstanceAs (Decidable (_ ∧ _))

theorem Printable.ne_ascii {b : BitVec 8} (h : Printable b) {c : Char} (hc : c.toNat < 32) :
    b ≠ ascii c := by
  rintro rfl
  have hlow : 32 ≤ (ascii c).toNat := h.1
  rw [ascii, BitVec.toNat_ofNat] at hlow
  omega

namespace Console

variable {k : Console} {c n : Nat} {b : BitVec 8} {str : List (BitVec 8)}

def columns (k : Console) : Nat := k.fbWidth.toNat / 8

def AtColumn (k : Console) (c : Nat) : Prop := k.cursorX.toNat = 8 * c

@[simp]
theorem cursorX_consoleNewline : k.consoleNewline.cursorX = 0 := by
  rw [consoleNewline]
  dsimp only
  split
  · rfl
  · rfl

@[simp]
theorem fbWidth_consoleNewline : k.consoleNewline.fbWidth = k.fbWidth := by
  rw [consoleNewline]
  dsimp only
  split
  · rfl
  · rfl

@[simp]
theorem fbWidth_consolePutchar : (k.consolePutchar b).fbWidth = k.fbWidth := by
  rw [consolePutchar]
  split_ifs
  · exact fbWidth_consoleNewline
  · rfl
  · rfl
  · rfl
  · rfl
  · dsimp only
    split
    · exact fbWidth_consoleNewline
    · rfl

@[simp]
theorem fbWidth_consolePrint : (k.consolePrint str).fbWidth = k.fbWidth := by
  induction str generalizing k with
  | nil => rfl
  | cons b str ih =>
      rw [consolePrint, List.foldl_cons]
      exact ih.trans fbWidth_consolePutchar

@[simp]
theorem fbWidth_backspaces : ((consolePutchar · b)^[n] k).fbWidth = k.fbWidth := by
  induction n with
  | zero => rfl
  | succ n ih => rw [Function.iterate_succ_apply', fbWidth_consolePutchar, ih]

theorem columns_eq {k' : Console} (h : k'.fbWidth = k.fbWidth) : k'.columns = k.columns := by
  rw [columns, columns, h]

/-- The characters that `console_putchar` draws. -/
def IsDrawn (c : BitVec 8) : Prop :=
  c ≠ ascii '\n' ∧ c ≠ ascii '\r' ∧ c ≠ ascii '\t' ∧ c ≠ ascii '\x08'

theorem isDrawn_of_printable (hb : Printable b) : IsDrawn b :=
  ⟨hb.ne_ascii (by decide), hb.ne_ascii (by decide), hb.ne_ascii (by decide),
    hb.ne_ascii (by decide)⟩

theorem toNat_eight : (8 : BitVec 32).toNat = 8 := rfl

theorem cursorX_drawn (hb : IsDrawn b) : (k.consolePutchar b).cursorX =
    if k.cursorX + 8 + 8 > k.fbWidth then 0 else k.cursorX + 8 := by
  rw [consolePutchar, if_neg hb.1, if_neg hb.2.1, if_neg hb.2.2.1, if_neg hb.2.2.2]
  apply (apply_ite cursorX _ _ _).trans
  rw [cursorX_consoleNewline]
  rfl

theorem cursorX_backspace : (k.consolePutchar (ascii '\x08')).cursorX =
    if k.cursorX ≥ 8 then k.cursorX - 8 else k.cursorX := by
  rw [consolePutchar, if_neg (by decide), if_neg (by decide), if_neg (by decide), if_pos rfl]
  split
  · rfl
  · rfl

/-- A row is less than `2 ^ 29` columns; further right the sum of the source would wrap. -/
theorem AtColumn.putchar (h : k.AtColumn c) (hc : c < k.columns) (hsmall : c + 2 < 2 ^ 29)
    (hb : Printable b) : (k.consolePutchar b).AtColumn ((c + 1) % k.columns) := by
  have hx : k.cursorX.toNat = 8 * c := h
  have hnext : (k.cursorX + 8).toNat = 8 * (c + 1) := by
    rw [BitVec.toNat_add, hx, toNat_eight]
    exact Nat.mod_eq_of_lt (by omega)
  have hafter : (k.cursorX + 8 + 8).toNat = 8 * (c + 2) := by
    rw [BitVec.toNat_add, hnext, toNat_eight]
    exact Nat.mod_eq_of_lt (by omega)
  rw [columns] at hc ⊢
  rw [AtColumn, cursorX_drawn (isDrawn_of_printable hb)]
  by_cases hlast : c + 1 = k.fbWidth.toNat / 8
  · rw [if_pos (by rw [gt_iff_lt, BitVec.lt_def, hafter]; omega), hlast, Nat.mod_self]
    rfl
  · rw [if_neg (by rw [gt_iff_lt, BitVec.lt_def, hafter]; omega), hnext,
      Nat.mod_eq_of_lt (show c + 1 < k.fbWidth.toNat / 8 by omega)]

theorem AtColumn.print (h : k.AtColumn c) (hc : c < k.columns)
    (hsmall : c + str.length + 1 < 2 ^ 29) (hstr : ∀ b ∈ str, Printable b) :
    (k.consolePrint str).AtColumn ((c + str.length) % k.columns) := by
  induction str generalizing k c with
  | nil => rwa [List.length_nil, Nat.add_zero, Nat.mod_eq_of_lt hc]
  | cons b str ih =>
      rw [List.length_cons] at hsmall ⊢
      have hpos : 0 < k.columns := Nat.zero_lt_of_lt hc
      have hle : (c + 1) % k.columns ≤ c + 1 := Nat.mod_le _ _
      have hcolumns : (k.consolePutchar b).columns = k.columns := columns_eq fbWidth_consolePutchar
      have hrest := ih (h.putchar hc (by omega) (hstr b List.mem_cons_self))
        (by rw [hcolumns]; exact Nat.mod_lt _ hpos) (by omega)
        fun b' hb' => hstr b' (List.mem_cons_of_mem b hb')
      rwa [hcolumns, Nat.mod_add_mod, show c + 1 + str.length = c + (str.length + 1) by omega]
        at hrest

theorem columns_printIn (color : BitVec 32) :
    ((k.consoleSetColor color).consolePrint str).columns = k.columns :=
  columns_eq fbWidth_consolePrint

theorem AtColumn.printIn (h : k.AtColumn c) (color : BitVec 32) (hrow : c + str.length < k.columns)
    (hstr : ∀ b ∈ str, Printable b) :
    ((k.consoleSetColor color).consolePrint str).AtColumn (c + str.length) := by
  have hwidth := k.fbWidth.isLt
  have hsmall : c + str.length + 1 < 2 ^ 29 := by
    rw [columns] at hrow
    omega
  have hcolor : (k.consoleSetColor color).AtColumn c := h
  have hprint := hcolor.print (show c < k.columns by omega) hsmall hstr
  rwa [Nat.mod_eq_of_lt (show c + str.length < (k.consoleSetColor color).columns from hrow)]
    at hprint

theorem AtColumn.backspace (h : k.AtColumn c) :
    (k.consolePutchar (ascii '\x08')).AtColumn (c - 1) := by
  have hx : k.cursorX.toNat = 8 * c := h
  rw [AtColumn, cursorX_backspace]
  split
  · rename_i hge
    rw [BitVec.toNat_sub_of_le hge, hx, toNat_eight]
    omega
  · rename_i hlt
    rw [ge_iff_le, BitVec.le_def, hx, toNat_eight] at hlt
    omega

theorem AtColumn.backspaces (h : k.AtColumn c) (n : Nat) :
    ((consolePutchar · (ascii '\x08'))^[n] k).AtColumn (c - n) := by
  induction n with
  | zero => exact h
  | succ n ih =>
      rw [Function.iterate_succ_apply', Nat.sub_add_eq]
      exact ih.backspace

end Console

end SimpleOs
