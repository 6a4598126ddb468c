import SimpleOs.Lib.Prefix
import SimpleOs.Proof.ConsoleColumns

/-!
# Characters stay on the screen

The cursor is where a whole character still has room. A newline keeps it there by scrolling, a character
by starting a new row, a backspace by not leaving the row. A tab goes to the next multiple of 32 without
asking whether there is room.
-/

namespace SimpleOs

namespace Console

variable {k : Console} {c : BitVec 8} {font : BitVec 8 → Nat → BitVec 8} {str : List (BitVec 8)}

/-- A character at the cursor has room. -/
structure InBounds (k : Console) : Prop where
  x : k.cursorX.toNat + 8 ≤ k.fbWidth.toNat
  y : k.cursorY.toNat + 10 ≤ k.fbHeight.toNat

/-- After `str` there is room at the cursor, and there was for every character that was drawn, none of
whose pixels was clipped. -/
structure KeepsOnScreen (font : BitVec 8 → Nat → BitVec 8) (k : Console) (str : List (BitVec 8)) :
    Prop where
  after : (k.consolePrint str).InBounds
  drawn : ∀ pre c, pre ++ [c] <+: str → IsDrawn c → (k.consolePrint pre).InBounds ∧
    ∀ pixel ∈ drawChar font (k.consolePrint pre).cursorX (k.consolePrint pre).cursorY c,
      (k.consolePrint pre).Shows pixel

def tabStop (k : Console) : BitVec 32 := (k.cursorX + 32) &&& ~~~31

/-- The cursor can move down without a wrap. Only the last rows of a framebuffer of more than
`2 ^ 32 - 11` rows are out. -/
def RowBelow (k : Console) : Prop := k.cursorY.toNat + 20 < 2 ^ 32

instance (k : Console) : Decidable k.RowBelow := inferInstanceAs (Decidable (_ < _))

/-- The tab stop leaves room; and the sums of the source do not wrap, which on a framebuffer of less than
`2 ^ 32 - 10` columns and rows they never do. -/
structure Advances (k : Console) (c : BitVec 8) : Prop where
  tab : c = ascii '\t' → k.tabStop.toNat + 8 ≤ k.fbWidth.toNat
  newline : c = ascii '\n' → k.RowBelow
  next : IsDrawn c → k.cursorX.toNat + 16 < 2 ^ 32 ∧
    (k.fbWidth.toNat < k.cursorX.toNat + 16 → k.RowBelow)

@[simp]
theorem fbHeight_consoleNewline : k.consoleNewline.fbHeight = k.fbHeight := by
  rw [consoleNewline]
  dsimp only
  split
  · rfl
  · rfl

@[simp]
theorem fbHeight_consolePutchar : (k.consolePutchar c).fbHeight = k.fbHeight := by
  rw [consolePutchar]
  split_ifs
  · exact fbHeight_consoleNewline
  · rfl
  · rfl
  · rfl
  · rfl
  · dsimp only
    split
    · exact fbHeight_consoleNewline
    · rfl

theorem toNat_none : (0 : BitVec 32).toNat = 0 := rfl

theorem toNat_ten : (10 : BitVec 32).toNat = 10 := rfl

theorem cursorY_consoleNewline : k.consoleNewline.cursorY =
    if k.cursorY + 10 + 10 > k.fbHeight then k.fbHeight - 10 else k.cursorY + 10 := by
  rw [consoleNewline]
  dsimp only
  split
  · rfl
  · rfl

/-- A newline scrolls where there is no row below, unless the sum that would show it wraps. -/
theorem room_below_iff (hy : k.cursorY.toNat + 10 ≤ k.fbHeight.toNat) :
    k.consoleNewline.cursorY.toNat + 10 ≤ k.fbHeight.toNat ↔ k.RowBelow := by
  have hheight := k.fbHeight.isLt
  have hnext : (k.cursorY + 10).toNat = k.cursorY.toNat + 10 := by
    rw [BitVec.toNat_add, toNat_ten]
    exact Nat.mod_eq_of_lt (by omega)
  have hafter : (k.cursorY + 10 + 10).toNat = (k.cursorY.toNat + 20) % 2 ^ 32 := by
    rw [BitVec.toNat_add, hnext, toNat_ten]
  rw [cursorY_consoleNewline, RowBelow]
  split
  · rename_i hscroll
    rw [gt_iff_lt, BitVec.lt_def, hafter] at hscroll
    have hlast : (k.fbHeight - 10).toNat = k.fbHeight.toNat - 10 :=
      BitVec.toNat_sub_of_le (by rw [BitVec.le_def, toNat_ten]; omega)
    rw [hlast]
    omega
  · rename_i hroom
    rw [gt_iff_lt, BitVec.lt_def, hafter] at hroom
    rw [hnext]
    omega

theorem inBounds_consoleNewline_iff (h : k.InBounds) : k.consoleNewline.InBounds ↔ k.RowBelow := by
  have hx := h.x
  rw [← room_below_iff h.y]
  constructor
  · intro hafter
    have hy := hafter.y
    rwa [fbHeight_consoleNewline] at hy
  · intro hy
    refine ⟨?_, by rwa [fbHeight_consoleNewline]⟩
    rw [cursorX_consoleNewline, fbWidth_consoleNewline, toNat_none]
    omega

theorem cursorY_drawn (hc : IsDrawn c) : (k.consolePutchar c).cursorY =
    if k.cursorX + 8 + 8 > k.fbWidth then k.consoleNewline.cursorY else k.cursorY := by
  rw [consolePutchar, if_neg hc.1, if_neg hc.2.1, if_neg hc.2.2.1, if_neg hc.2.2.2]
  apply (apply_ite cursorY _ _ _).trans
  rw [cursorY_consoleNewline, cursorY_consoleNewline]
  rfl

/-- A character goes on to the next column or, where there is none, to the next row. -/
theorem inBounds_drawn_iff (h : k.InBounds) (hc : IsDrawn c) : (k.consolePutchar c).InBounds ↔
    k.cursorX.toNat + 16 < 2 ^ 32 ∧ (k.fbWidth.toNat < k.cursorX.toNat + 16 → k.RowBelow) := by
  have hx := h.x
  have hwidth := k.fbWidth.isLt
  have hnext : (k.cursorX + 8).toNat = k.cursorX.toNat + 8 := by
    rw [BitVec.toNat_add, toNat_eight]
    exact Nat.mod_eq_of_lt (by omega)
  have hafter : (k.cursorX + 8 + 8).toNat = (k.cursorX.toNat + 16) % 2 ^ 32 := by
    rw [BitVec.toNat_add, hnext, toNat_eight]
  have hiff : (k.consolePutchar c).InBounds ↔
      (k.consolePutchar c).cursorX.toNat + 8 ≤ k.fbWidth.toNat ∧
        (k.consolePutchar c).cursorY.toNat + 10 ≤ k.fbHeight.toNat := by
    rw [← fbWidth_consolePutchar (k := k) (b := c), ← fbHeight_consolePutchar (k := k) (c := c)]
    exact ⟨fun hin => ⟨hin.x, hin.y⟩, fun ⟨hin, hin'⟩ => ⟨hin, hin'⟩⟩
  rw [hiff, cursorX_drawn hc, cursorY_drawn hc]
  by_cases hfull : k.cursorX + 8 + 8 > k.fbWidth
  · rw [if_pos hfull, if_pos hfull, room_below_iff h.y, toNat_none]
    rw [gt_iff_lt, BitVec.lt_def, hafter] at hfull
    exact and_congr (by omega) ⟨fun hrow _ => hrow, fun hrow => hrow (by omega)⟩
  · rw [if_neg hfull, if_neg hfull, hnext]
    rw [gt_iff_lt, BitVec.lt_def, hafter] at hfull
    exact ⟨fun ⟨hroom, _⟩ => ⟨by omega, fun hlast => by omega⟩, fun ⟨hsmall, _⟩ => ⟨by omega, h.y⟩⟩

theorem inBounds_putchar_iff (h : k.InBounds) (c : BitVec 8) :
    (k.consolePutchar c).InBounds ↔ k.Advances c := by
  by_cases hnewline : c = ascii '\n'
  · subst hnewline
    rw [consolePutchar, if_pos rfl, inBounds_consoleNewline_iff h]
    exact ⟨fun hrow => ⟨fun htab => absurd htab (by decide), fun _ => hrow,
      fun hdrawn => absurd rfl hdrawn.1⟩, fun hadvances => hadvances.newline rfl⟩
  by_cases hreturn : c = ascii '\r'
  · subst hreturn
    have hx := h.x
    rw [consolePutchar, if_neg hnewline, if_pos rfl]
    exact iff_of_true ⟨by dsimp only; rw [toNat_none]; omega, h.y⟩
      ⟨fun htab => absurd htab (by decide), fun heq => absurd heq hnewline,
        fun hdrawn => absurd rfl hdrawn.2.1⟩
  by_cases htab : c = ascii '\t'
  · subst htab
    rw [consolePutchar, if_neg hnewline, if_neg hreturn, if_pos rfl]
    exact ⟨fun hafter => ⟨fun _ => hafter.x, fun heq => absurd heq hnewline,
      fun hdrawn => absurd rfl hdrawn.2.2.1⟩, fun hadvances => ⟨hadvances.tab rfl, h.y⟩⟩
  by_cases hback : c = ascii '\x08'
  · subst hback
    have hx := h.x
    have hafter : (k.consolePutchar (ascii '\x08')).InBounds := by
      rw [consolePutchar, if_neg hnewline, if_neg hreturn, if_neg htab, if_pos rfl]
      split
      · rename_i hge
        refine ⟨?_, h.y⟩
        change (k.cursorX - 8).toNat + 8 ≤ k.fbWidth.toNat
        rw [BitVec.toNat_sub_of_le hge, toNat_eight]
        omega
      · exact h
    exact iff_of_true hafter ⟨fun heq => absurd heq htab, fun heq => absurd heq hnewline,
      fun hdrawn => absurd rfl hdrawn.2.2.2⟩
  · have hdrawn : IsDrawn c := ⟨hnewline, hreturn, htab, hback⟩
    rw [inBounds_drawn_iff h hdrawn]
    exact ⟨fun hnext => ⟨fun heq => absurd heq htab, fun heq => absurd heq hnewline,
      fun _ => hnext⟩, fun hadvances => hadvances.next hdrawn⟩

/-- Where a whole character has room, none of its pixels is clipped. -/
theorem InBounds.shows (h : k.InBounds) {pixel : BitVec 32 × BitVec 32}
    (hpixel : pixel ∈ drawChar font k.cursorX k.cursorY c) : k.Shows pixel := by
  have hx := h.x
  have hy := h.y
  have hwidth := k.fbWidth.isLt
  have hheight := k.fbHeight.isLt
  simp only [drawChar, List.mem_flatMap, List.mem_map, List.mem_filter, List.mem_range] at hpixel
  obtain ⟨row, hrow, col, ⟨hcol, -⟩, rfl⟩ := hpixel
  refine ⟨?_, ?_⟩
  · rw [BitVec.lt_def, BitVec.toNat_add, BitVec.toNat_ofNat, Nat.add_mod_mod,
      Nat.mod_eq_of_lt (by omega)]
    omega
  · rw [BitVec.lt_def, BitVec.toNat_add, BitVec.toNat_ofNat, Nat.add_mod_mod,
      Nat.mod_eq_of_lt (by omega)]
    omega

theorem consolePrint_prefix_iff (h : k.InBounds) (str : List (BitVec 8)) :
    (∀ pre, pre <+: str → (k.consolePrint pre).InBounds) ↔
      ∀ pre c, pre ++ [c] <+: str → (k.consolePrint pre).Advances c := by
  have hstep : ∀ (k : Console) (c : BitVec 8), True → k.InBounds →
      ((k.consolePutchar c).InBounds ↔ k.Advances c) := fun k c _ hin => inBounds_putchar_iff hin c
  have hinv : ∀ (k : Console) (c : BitVec 8), (fun _ : Console => True) k →
      (fun _ : Console => True) (k.consolePutchar c) := fun _ _ _ => trivial
  exact Prefix.forall_prefix_iff hinv hstep trivial h str

/-- **No character falls off the screen.** Printed from a cursor with room on any framebuffer: after the
string and after every beginning of it there is room again, and was for every character that was drawn,
exactly if no tab is printed where the next tab stop has no room and no sum wraps. -/
theorem keepsOnScreen_iff (font : BitVec 8 → Nat → BitVec 8) (h : k.InBounds)
    (str : List (BitVec 8)) : (∀ pre, pre <+: str → KeepsOnScreen font k pre) ↔
      ∀ pre c, pre ++ [c] <+: str → (k.consolePrint pre).Advances c := by
  rw [← consolePrint_prefix_iff h str]
  constructor
  · exact fun hkeeps pre hpre => (hkeeps pre hpre).after
  · intro hin pre hpre
    refine ⟨hin pre hpre, fun before c hbefore _ => ?_⟩
    have hroom : (k.consolePrint before).InBounds :=
      hin before ((List.prefix_append before [c]).trans (hbefore.trans hpre))
    exact ⟨hroom, fun pixel hpixel => hroom.shows hpixel⟩

/-- At the last column of a screen of 640 pixels. -/
def lastColumn : Console := ⟨640, 480, 632, 0, colorWhite, []⟩

theorem keepsOnScreen_lastColumn : KeepsOnScreen (fun _ _ => 0xFF) lastColumn [ascii 'a'] := by
  have hin : lastColumn.InBounds := ⟨by decide, by decide⟩
  refine (keepsOnScreen_iff _ hin [ascii 'a']).mpr (Prefix.forall_steps_cons.mpr ⟨?_, fun pre c hpre => ?_⟩)
    _ List.prefix_rfl
  · exact ⟨by decide, by decide, fun _ => ⟨by decide, fun _ => by decide +kernel⟩⟩
  · exact absurd (List.prefix_nil.mp hpre) (List.append_ne_nil_of_right_ne_nil _ (by simp))

/-- There a tab moves the cursor to column 80, which the screen does not have, and the next character is
drawn there. -/
theorem not_keepsOnScreen_tab : lastColumn.InBounds ∧ IsDrawn (ascii 'a') ∧
    (lastColumn.consolePrint [ascii '\t']).cursorX = 640 ∧
    ¬ KeepsOnScreen (fun _ _ => 0xFF) lastColumn [ascii '\t', ascii 'a'] := by
  have hcursor : (lastColumn.consolePrint [ascii '\t']).cursorX = 640 := by decide +kernel
  have hdrawn : IsDrawn (ascii 'a') := ⟨by decide, by decide, by decide, by decide⟩
  refine ⟨⟨by decide, by decide⟩, hdrawn, hcursor, fun hkeeps => ?_⟩
  have hx := (hkeeps.drawn [ascii '\t'] (ascii 'a') List.prefix_rfl hdrawn).1.x
  rw [hcursor] at hx
  exact absurd hx (by decide)

end Console

end SimpleOs
