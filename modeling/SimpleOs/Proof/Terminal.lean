import SimpleOs.Lib.TextScreen
import SimpleOs.Proof.ConsoleBounds
import SimpleOs.Proof.FramebufferImage

/-!
# The console is a terminal

The console draws characters over each other and keeps no text. What is seen is nevertheless text on a
screen: rows of cells, the last of them under the cursor, that move up when there is no room below. A row
is 10 lines high and a character 8, so that a row can be cleared, but two characters printed in one cell
after a carriage return are seen one over the other.
-/

namespace SimpleOs

open Raster

/-- The characters of the console with their colours. -/
def consoleFace (font : BitVec 8 → Nat → BitVec 8) : Typeface (BitVec 8 × BitVec 32) (BitVec 32) where
  cellWidth := 8
  rowHeight := 10
  ink g x y :=
    if x < 8 ∧ y < 8 ∧ font (if g.1.toNat > 127 then ascii '?' else g.1) y &&& (0x80#8 >>> x) ≠ 0 then some g.2
    else none
  paper := colorDarkBg

structure Terminal where
  text : TextScreen (BitVec 8 × BitVec 32) (BitVec 32)
  column : Nat
  color : BitVec 32

namespace Terminal

variable (font : BitVec 8 → Nat → BitVec 8) (r : Raster)

def newline (t : Terminal) : Terminal :=
  { t with
    column := 0
    text :=
      if t.text.current.top + 20 ≤ r.height then t.text.feed (consoleFace font)
      else t.text.scroll (consoleFace font) r.height }

/-- Tab stops are four columns apart, and not looked for in the row. -/
def putchar (t : Terminal) (c : BitVec 8) : Terminal :=
  if c = ascii '\n' then t.newline font r
  else if c = ascii '\r' then { t with column := 0 }
  else if c = ascii '\t' then { t with column := 4 * (t.column / 4 + 1) }
  else if c = ascii '\x08' then
    if 0 < t.column then { t with column := t.column - 1, text := t.text.erase (t.column - 1) } else t
  else
    let t := { t with column := t.column + 1, text := t.text.put t.column (c, t.color) }
    if r.width < 8 * (t.column + 1) then t.newline font r else t

def print (t : Terminal) (str : List (BitVec 8)) : Terminal := str.foldl (putchar font r) t

/-- Everything is paper. -/
def clear (t : Terminal) : Terminal :=
  { t with column := 0, text := ⟨.blank 0, [], fun _ => colorDarkBg⟩ }

def step (t : Terminal) : ConsoleCall → Terminal
  | .putchar c => t.putchar font r c
  | .print str => t.print font r str
  | .setColor color => { t with color := color }
  | .clear => t.clear

def run (t : Terminal) (calls : List ConsoleCall) : Terminal := calls.foldl (step font r) t

end Terminal

/-- The console has the cursor and the colour of the terminal and has drawn what is seen there; a row has
room at the cursor. -/
structure Console.Mirrors (font : BitVec 8 → Nat → BitVec 8) (r : Raster) (image : Pixel → BitVec 32)
    (k : Console) (t : Terminal) : Prop where
  width : r.width = k.fbWidth.toNat
  height : r.height = k.fbHeight.toNat
  column : k.cursorX.toNat = 8 * t.column
  row : (k.cursorY.toNat : Int) = t.text.current.top
  rowRoom : k.cursorY.toNat + 10 ≤ r.height
  color : k.textColor = t.color
  below : t.text.Below (consoleFace font)
  picture : ∀ p, r.Visible p →
    k.drawn.foldl (Drawing.drawnOn font r.height) image p = t.text.picture (consoleFace font) p

namespace Console

variable {font : BitVec 8 → Nat → BitVec 8} {r : Raster} {image : Pixel → BitVec 32} {k : Console}
  {t : Terminal} {c : BitVec 8} {p : Pixel} {x y color : BitVec 32}

/-- Where a cell has room, a character sets pixels of the cell only. -/
theorem sets_char_iff {column : Nat} (hx : x.toNat = 8 * column) (hy : y.toNat + 10 ≤ 2 ^ 32)
    (hp : p.1 < 2 ^ 32 ∧ p.2 < 2 ^ 32) : (Drawing.char x y c color).Sets font p ↔
      (y.toNat ≤ p.2 ∧ p.2 < y.toNat + 8) ∧ p.1 / 8 = column ∧
        font (if c.toNat > 127 then ascii '?' else c) (p.2 - y.toNat) &&& (0x80#8 >>> (p.1 % 8)) ≠ 0 := by
  have hwidth := x.isLt
  have hcell : ∀ col < 8, x + BitVec.ofNat 32 col = BitVec.ofNat 32 p.1 ↔ 8 * column + col = p.1 := by
    intro col hcol
    rw [← BitVec.toNat_inj, BitVec.toNat_add, BitVec.toNat_ofNat, BitVec.toNat_ofNat,
      Nat.mod_eq_of_lt (show col < 2 ^ 32 by omega), Nat.mod_eq_of_lt (show x.toNat + col < 2 ^ 32 by omega),
      Nat.mod_eq_of_lt hp.1, hx]
  have hline : ∀ row < 8, y + BitVec.ofNat 32 row = BitVec.ofNat 32 p.2 ↔ y.toNat + row = p.2 := by
    intro row hrow
    rw [← BitVec.toNat_inj, BitVec.toNat_add, BitVec.toNat_ofNat, BitVec.toNat_ofNat,
      Nat.mod_eq_of_lt (show row < 2 ^ 32 by omega), Nat.mod_eq_of_lt (show y.toNat + row < 2 ^ 32 by omega),
      Nat.mod_eq_of_lt hp.2]
  rw [Drawing.Sets, Framebuffer.mem_drawChar]
  constructor
  · rintro ⟨row, hrow, col, hcol, hbit, heq, heq'⟩
    rw [hcell col hcol] at heq
    rw [hline row hrow] at heq'
    have hmod : p.1 % 8 = col := by omega
    have hsub : p.2 - y.toNat = row := by omega
    rw [hmod, hsub]
    exact ⟨⟨by omega, by omega⟩, by omega, hbit⟩
  · rintro ⟨⟨hlow, hhigh⟩, hcolumn, hbit⟩
    have hmod : p.1 % 8 < 8 := Nat.mod_lt _ (by decide)
    refine ⟨p.2 - y.toNat, by omega, p.1 % 8, hmod, hbit, (hcell _ hmod).mpr ?_,
      (hline _ (by omega)).mpr ?_⟩
    · omega
    · omega

/-- A character is printed in the cell at the cursor. -/
theorem drawnOn_char (height : Nat) {column : Nat}
    {text : TextScreen (BitVec 8 × BitVec 32) (BitVec 32)}
    (hx : x.toNat = 8 * column) (hy : (y.toNat : Int) = text.current.top) (hroom : y.toNat + 10 ≤ 2 ^ 32)
    (hp : p.1 < 2 ^ 32 ∧ p.2 < 2 ^ 32) (hsame : image p = text.picture (consoleFace font) p) :
    Drawing.drawnOn font height image (.char x y c color) p =
      (text.put column (c, color)).picture (consoleFace font) p := by
  have hiff : (Drawing.char x y c color).Sets font p ↔ _ := sets_char_iff hx hroom hp
  have hcovers : text.current.Covers (consoleFace font) p.2 ↔ y.toNat ≤ p.2 ∧ p.2 < y.toNat + 10 := by
    change text.current.top ≤ p.2 ∧ (p.2 : Int) < text.current.top + 10 ↔ _
    omega
  rw [TextScreen.picture_put, ← hsame]
  split
  · rename_i hcell
    rw [hcovers] at hcell
    have hline : ((p.2 : Int) - text.current.top).toNat = p.2 - y.toNat := by omega
    have hmod : p.1 % 8 < 8 := Nat.mod_lt _ (by decide)
    rw [hline]
    by_cases hsets : (Drawing.char x y c color).Sets font p
    · obtain ⟨⟨hlow, hhigh⟩, -, hbit⟩ := hiff.mp hsets
      have hink : (consoleFace font).ink (c, color) (p.1 % 8) (p.2 - y.toNat) = some color :=
        if_pos ⟨hmod, by omega, hbit⟩
      exact (if_pos hsets).trans (congrArg (Option.getD · (image p)) hink).symm
    · have hink : (consoleFace font).ink (c, color) (p.1 % 8) (p.2 - y.toNat) = none := by
        refine if_neg fun hinked => hsets (hiff.mpr ?_)
        obtain ⟨-, hlt, hbit⟩ := hinked
        exact ⟨⟨hcell.1.1, by omega⟩, hcell.2, hbit⟩
      exact (if_neg hsets).trans (congrArg (Option.getD · (image p)) hink).symm
  · rename_i hcell
    refine if_neg fun hsets => hcell ?_
    obtain ⟨⟨hlow, hhigh⟩, hcolumn, -⟩ := hiff.mp hsets
    exact ⟨hcovers.mpr ⟨hlow, by omega⟩, hcolumn⟩

/-- A backspace clears the cell, with the two lines below its glyph. -/
theorem drawnOn_erase (height : Nat) {column : Nat}
    {text : TextScreen (BitVec 8 × BitVec 32) (BitVec 32)}
    (hx : x.toNat = 8 * column) (hright : x.toNat + 8 < 2 ^ 32) (hy : (y.toNat : Int) = text.current.top)
    (hroom : y.toNat + 10 < 2 ^ 32) (hsame : image p = text.picture (consoleFace font) p) :
    Drawing.drawnOn font height image (.fill x y 8 10 colorDarkBg) p =
      (text.erase column).picture (consoleFace font) p := by
  have hx' : (x + 8).toNat = x.toNat + 8 := by
    rw [BitVec.toNat_add]
    exact Nat.mod_eq_of_lt hright
  have hy' : (y + 10).toNat = y.toNat + 10 := by
    rw [BitVec.toNat_add]
    exact Nat.mod_eq_of_lt hroom
  have hiff : (Drawing.fill x y 8 10 colorDarkBg).Sets font p ↔
      text.current.Covers (consoleFace font) p.2 ∧ p.1 / 8 = column := by
    rw [Drawing.Sets, hx', hy']
    change _ ↔ (text.current.top ≤ p.2 ∧ (p.2 : Int) < text.current.top + 10) ∧ _
    omega
  rw [TextScreen.picture_erase, ← hsame]
  exact if_congr hiff rfl rfl

/-- The loop that scrolls, and the rectangle that clears the last row. -/
theorem drawnOn_scroll {text : TextScreen (BitVec 8 × BitVec 32) (BitVec 32)} {width height : BitVec 32}
    (hten : 10 ≤ height.toNat) (hp : p.1 < width.toNat ∧ p.2 < height.toNat)
    (hsame : ∀ p : Pixel, p.1 < width.toNat ∧ p.2 < height.toNat →
      image p = text.picture (consoleFace font) p) :
    Drawing.drawnOn font height.toNat (Drawing.drawnOn font height.toNat image .scroll)
        (.fill 0 (height - 10) width 10 colorDarkBg) p =
      (text.scroll (consoleFace font) height.toNat).picture (consoleFace font) p := by
  have hlast : (height - 10).toNat = height.toNat - 10 := Framebuffer.toNat_sub_ten hten
  have hiff : (Drawing.fill 0 (height - 10) width 10 colorDarkBg).Sets font p ↔
      height.toNat ≤ p.2 + 10 := by
    rw [Drawing.Sets, zero_add, sub_add_cancel, hlast]
    exact ⟨fun h => by omega, fun h => ⟨⟨Nat.zero_le _, hp.1⟩, by omega, hp.2⟩⟩
  rw [TextScreen.picture_scroll hp.2]
  refine if_congr hiff rfl rfl |>.trans ?_
  split
  · rename_i hbottom
    exact (if_pos hbottom).symm
  · rename_i hup
    have habove := hsame (p.1, p.2 + 10) ⟨hp.1, by dsimp only; omega⟩
    exact (if_pos (by omega)).trans (habove.trans (if_neg hup).symm)

theorem toNat_and_not_thirtyOne (v : BitVec 32) : (v &&& ~~~31#32).toNat = 32 * (v.toNat / 32) := by
  have hshift : v &&& ~~~31#32 = (v >>> 5) <<< 5 := by
    apply BitVec.eq_of_getLsbD_eq
    intro i hi
    interval_cases i <;> simp
  have hlt := v.isLt
  rw [hshift, BitVec.toNat_shiftLeft, BitVec.toNat_ushiftRight, Nat.shiftRight_eq_div_pow,
    Nat.shiftLeft_eq]
  omega

theorem Mirrors.visible (h : k.Mirrors font r image t) :
    r.Visible p ↔ p.1 < k.fbWidth.toNat ∧ p.2 < k.fbHeight.toNat := by
  rw [Raster.Visible, h.width, h.height]

theorem Mirrors.newline (h : k.Mirrors font r image t) (hheight : r.height + 10 < 2 ^ 32) :
    k.consoleNewline.Mirrors font r image (t.newline font r) := by
  have hrow := h.row
  have hroom := h.rowRoom
  have hnext : (k.cursorY + 10).toNat = k.cursorY.toNat + 10 := by
    rw [BitVec.toNat_add]
    exact Nat.mod_eq_of_lt (show k.cursorY.toNat + 10 < 2 ^ 32 by omega)
  have hafter : (k.cursorY + 10 + 10).toNat = k.cursorY.toNat + 20 := by
    rw [BitVec.toNat_add, hnext]
    exact Nat.mod_eq_of_lt (show k.cursorY.toNat + 10 + 10 < 2 ^ 32 by omega)
  have hiff : k.cursorY + 10 + 10 > k.fbHeight ↔ ¬ t.text.current.top + 20 ≤ r.height := by
    rw [gt_iff_lt, BitVec.lt_def, hafter, ← h.height]
    omega
  by_cases hfull : k.cursorY + 10 + 10 > k.fbHeight
  · have hconsole : k.consoleNewline = { k with
        cursorX := 0
        cursorY := k.fbHeight - 10
        drawn := k.drawn ++ [.scroll] ++ [.fill 0 (k.fbHeight - 10) k.fbWidth 10 colorDarkBg] } :=
      if_pos hfull
    have hterminal : t.newline font r =
        { t with column := 0, text := t.text.scroll (consoleFace font) r.height } :=
      congrArg (Terminal.mk · 0 t.color) (if_neg (hiff.mp hfull))
    have hten : 10 ≤ k.fbHeight.toNat := by rw [← h.height]; omega
    have hlast : (k.fbHeight - 10).toNat = k.fbHeight.toNat - 10 := Framebuffer.toNat_sub_ten hten
    rw [hconsole, hterminal]
    refine ⟨h.width, h.height, rfl, ?_, ?_, h.color, h.below.scroll ?_, fun p hp => ?_⟩
    · dsimp only
      rw [hlast, TextScreen.top_scroll, h.height, Nat.cast_sub hten]
      rfl
    · dsimp only
      rw [hlast, h.height]
      omega
    · change t.text.current.top + 10 ≤ r.height
      omega
    · rw [List.foldl_append, List.foldl_append, h.height]
      exact drawnOn_scroll hten (h.visible.mp hp) fun p hp => by
        rw [← h.height]
        exact h.picture p (h.visible.mpr hp)
  · have hconsole : k.consoleNewline = { k with cursorX := 0, cursorY := k.cursorY + 10 } := if_neg hfull
    have hfits : t.text.current.top + 20 ≤ r.height := not_not.mp (mt hiff.mpr hfull)
    have hterminal : t.newline font r = { t with column := 0, text := t.text.feed (consoleFace font) } :=
      congrArg (Terminal.mk · 0 t.color) (if_pos hfits)
    rw [hconsole, hterminal]
    refine ⟨h.width, h.height, rfl, ?_, ?_, h.color, h.below.feed, fun p hp => ?_⟩
    · dsimp only
      rw [hnext, TextScreen.top_feed, ← hrow, Nat.cast_add]
      rfl
    · dsimp only
      rw [hnext]
      omega
    · rw [TextScreen.picture_feed h.below]
      exact h.picture p hp

theorem column_newline : (t.newline font r).column = 0 := rfl

/-- The sums for the next character do not wrap. -/
theorem columnRoom_putchar (h : 8 * t.column + 16 < 2 ^ 32) (hwidth : r.width + 8 < 2 ^ 32)
    (htab : c = ascii '\t' → 8 * t.column + 48 < 2 ^ 32) :
    8 * (t.putchar font r c).column + 16 < 2 ^ 32 := by
  rw [Terminal.putchar]
  split_ifs with _ _ htabbed
  · rw [column_newline]
    decide
  · dsimp only
    omega
  · have hsmall := htab htabbed
    dsimp only
    omega
  · dsimp only
    omega
  · exact h
  · dsimp only
    split
    · rw [column_newline]
      decide
    · dsimp only
      omega

theorem Mirrors.drawn (h : k.Mirrors font r image t) (hcolumn : 8 * t.column + 16 < 2 ^ 32)
    (hheight : r.height + 10 < 2 ^ 32) (c : BitVec 8) :
    Mirrors font r image
      { k.draw (.char k.cursorX k.cursorY c k.textColor) with cursorX := k.cursorX + 8 }
      { t with column := t.column + 1, text := t.text.put t.column (c, t.color) } := by
  have hx := h.column
  have hroom := h.rowRoom
  refine ⟨h.width, h.height, ?_, h.row, hroom, h.color, ⟨h.below.older, h.below.base⟩, fun p hp => ?_⟩
  · dsimp only
    rw [BitVec.toNat_add, hx]
    exact Nat.mod_eq_of_lt (show 8 * t.column + 8 < 2 ^ 32 by omega)
  · obtain ⟨hpx, hpy⟩ := h.visible.mp hp
    have hwidth := k.fbWidth.isLt
    have hlast := k.fbHeight.isLt
    rw [Console.draw, List.foldl_append, ← h.color]
    exact drawnOn_char r.height hx h.row (show k.cursorY.toNat + 10 ≤ 2 ^ 32 by omega)
      ⟨by omega, by omega⟩ (h.picture p hp)

theorem Mirrors.putchar (h : k.Mirrors font r image t) (hroom : 8 * t.column + 16 < 2 ^ 32)
    (hheight : r.height + 10 < 2 ^ 32) (htab : c = ascii '\t' → 8 * t.column + 48 < 2 ^ 32) :
    (k.consolePutchar c).Mirrors font r image (t.putchar font r c) := by
  have hcolumn := h.column
  have hrow := h.rowRoom
  rw [consolePutchar, Terminal.putchar]
  split
  · exact h.newline hheight
  split
  · exact ⟨h.width, h.height, rfl, h.row, hrow, h.color, h.below, h.picture⟩
  split
  · rename_i heq
    have hsmall := htab heq
    have hnext : (k.cursorX + 32).toNat = k.cursorX.toNat + 32 := by
      rw [BitVec.toNat_add]
      exact Nat.mod_eq_of_lt (show k.cursorX.toNat + 32 < 2 ^ 32 by omega)
    refine ⟨h.width, h.height, (toNat_and_not_thirtyOne _).trans ?_, h.row, hrow, h.color, h.below,
      h.picture⟩
    dsimp only
    rw [hnext]
    omega
  split
  · by_cases hback : 0 < t.column
    · have hge : k.cursorX ≥ 8 := by
        rw [ge_iff_le, BitVec.le_def, hcolumn, toNat_eight]
        omega
      have hx : (k.cursorX - 8).toNat = 8 * (t.column - 1) := by
        rw [BitVec.toNat_sub_of_le hge, hcolumn, toNat_eight]
        omega
      rw [if_pos hge, if_pos hback]
      refine ⟨h.width, h.height, hx, h.row, hrow, h.color, ⟨h.below.older, h.below.base⟩,
        fun p hp => ?_⟩
      rw [Console.draw, List.foldl_append]
      exact drawnOn_erase r.height hx (by rw [hx]; omega) h.row
        (show k.cursorY.toNat + 10 < 2 ^ 32 by omega) (h.picture p hp)
    · have hlt : ¬ k.cursorX ≥ 8 := by
        rw [ge_iff_le, BitVec.le_def, hcolumn, toNat_eight]
        omega
      rw [if_neg hlt, if_neg hback]
      exact h
  · have hdrawn := h.drawn hroom hheight c
    have hafter : (k.cursorX + 8 + 8).toNat = 8 * (t.column + 1 + 1) := by
      rw [BitVec.toNat_add, BitVec.toNat_add, hcolumn, toNat_eight, Nat.mod_add_mod]
      exact Nat.mod_eq_of_lt (show 8 * t.column + 8 + 8 < 2 ^ 32 by omega)
    have hiff : k.cursorX + 8 + 8 > k.fbWidth ↔ r.width < 8 * (t.column + 1 + 1) := by
      rw [gt_iff_lt, BitVec.lt_def, hafter, h.width]
    by_cases hfull : r.width < 8 * (t.column + 1 + 1)
    · refine (congrArg₂ _ (if_pos (hiff.mpr hfull)) (if_pos hfull)).mpr (hdrawn.newline hheight)
    · refine (congrArg₂ _ (if_neg (mt hiff.mp hfull)) (if_neg hfull)).mpr hdrawn

/-- No tab of the string makes the sum of its tab stop wrap. -/
def TabsFit (font : BitVec 8 → Nat → BitVec 8) (r : Raster) (t : Terminal) (str : List (BitVec 8)) : Prop :=
  ∀ pre, pre ++ [ascii '\t'] <+: str → 8 * (t.print font r pre).column + 48 < 2 ^ 32

theorem tabsFit_of_notMem {str : List (BitVec 8)} (h : ascii '\t' ∉ str) : TabsFit font r t str := fun _ hpre =>
  absurd (hpre.subset (List.mem_append_right _ (List.mem_singleton_self _))) h

/-- The console mirrors the terminal, and goes on doing so. -/
structure Follows (font : BitVec 8 → Nat → BitVec 8) (r : Raster) (image : Pixel → BitVec 32)
    (k : Console) (t : Terminal) : Prop where
  mirrors : k.Mirrors font r image t
  columnRoom : 8 * t.column + 16 < 2 ^ 32

theorem Follows.putchar (h : k.Follows font r image t) (hwidth : r.width + 8 < 2 ^ 32)
    (hheight : r.height + 10 < 2 ^ 32) (htab : c = ascii '\t' → 8 * t.column + 48 < 2 ^ 32) :
    (k.consolePutchar c).Follows font r image (t.putchar font r c) :=
  ⟨h.mirrors.putchar h.columnRoom hheight htab, columnRoom_putchar h.columnRoom hwidth htab⟩

theorem Follows.print (h : k.Follows font r image t) (hwidth : r.width + 8 < 2 ^ 32)
    (hheight : r.height + 10 < 2 ^ 32) {str : List (BitVec 8)} (htabs : TabsFit font r t str) :
    (k.consolePrint str).Follows font r image (t.print font r str) := by
  induction str generalizing k t with
  | nil => exact h
  | cons c str ih =>
      refine ih (h.putchar hwidth hheight fun hc => ?_) fun pre hpre => ?_
      · exact htabs [] (by rw [hc]; exact List.cons_prefix_cons.mpr ⟨rfl, List.nil_prefix⟩)
      · exact htabs (c :: pre) (List.cons_prefix_cons.mpr ⟨rfl, hpre⟩)

theorem Follows.clear (h : k.Follows font r image t) :
    k.consoleClear.Follows font r image t.clear := by
  have hroom := h.mirrors.rowRoom
  refine ⟨⟨h.mirrors.width, h.mirrors.height, rfl, rfl, ?_, h.mirrors.color, ⟨?_, fun _ _ => rfl⟩,
    fun p hp => ?_⟩, ?_⟩
  · exact (Nat.le_add_left 10 _).trans hroom
  · exact fun row hrow => absurd hrow List.not_mem_nil
  · obtain ⟨hx, hy⟩ := h.mirrors.visible.mp hp
    rw [Console.consoleClear, Console.draw, List.foldl_append]
    have hsets : (Drawing.fill 0 0 k.fbWidth k.fbHeight colorDarkBg).Sets font p := by
      rw [Drawing.Sets, zero_add, zero_add]
      exact ⟨⟨Nat.zero_le _, hx⟩, Nat.zero_le _, hy⟩
    have hpaper : t.clear.text.picture (consoleFace font) p = colorDarkBg :=
      TextScreen.picture_fresh fun _ _ => rfl
    exact (if_pos hsets).trans hpaper.symm
  · exact (by decide : 8 * 0 + 16 < 2 ^ 32)

/-- The call prints no tab whose stop wraps. -/
def CallFits (font : BitVec 8 → Nat → BitVec 8) (r : Raster) (t : Terminal) : ConsoleCall → Prop
  | .putchar c => TabsFit font r t [c]
  | .print str => TabsFit font r t str
  | _ => True

theorem Follows.step (h : k.Follows font r image t) (hwidth : r.width + 8 < 2 ^ 32)
    (hheight : r.height + 10 < 2 ^ 32) {call : ConsoleCall} (hcall : CallFits font r t call) :
    (k.step call).Follows font r image (t.step font r call) := by
  cases call with
  | putchar c => exact h.print hwidth hheight hcall
  | print str => exact h.print hwidth hheight hcall
  | setColor color =>
      obtain ⟨⟨hw, hh, hx, hy, hroom, -, hbelow, hpicture⟩, hcolumn⟩ := h
      exact ⟨⟨hw, hh, hx, hy, hroom, rfl, hbelow, hpicture⟩, hcolumn⟩
  | clear => exact h.clear

theorem Follows.run (h : k.Follows font r image t) (hwidth : r.width + 8 < 2 ^ 32)
    (hheight : r.height + 10 < 2 ^ 32) {calls : List ConsoleCall}
    (hcalls : ∀ pre call, pre ++ [call] <+: calls → CallFits font r (t.run font r pre) call) :
    (k.run calls).Follows font r image (t.run font r calls) := by
  induction calls generalizing k t with
  | nil => exact h
  | cons call calls ih =>
      refine ih (h.step hwidth hheight (hcalls [] call ?_)) fun pre call' hpre => ?_
      · exact List.cons_prefix_cons.mpr ⟨rfl, List.nil_prefix⟩
      · exact hcalls (call :: pre) call' (List.cons_prefix_cons.mpr ⟨rfl, hpre⟩)

end Console

namespace Screen

open Console

variable {s : Screen} {r : Raster}

/-- The terminal that goes on where the screen is: what is there already is its picture. -/
def terminal (s : Screen) (r : Raster) : Terminal where
  text :=
    { current := .blank s.cursorY.toNat
      older := []
      base := fun p => if s.cursorY.toNat ≤ p.2 then colorDarkBg else s.frame.fb (r.cell p) }
  column := s.cursorX.toNat / 8
  color := s.textColor

/-- The cursor is at a cell that has room, and from there on down nothing is printed yet. -/
structure Fresh (s : Screen) (r : Raster) : Prop where
  on : s.frame.On r
  aligned : s.cursorX.toNat % 8 = 0
  column : s.cursorX.toNat + 8 ≤ r.width
  row : s.cursorY.toNat + 10 ≤ r.height
  paper : ∀ p, r.Visible p → s.cursorY.toNat ≤ p.2 → s.frame.fb (r.cell p) = colorDarkBg

theorem Fresh.small (h : s.Fresh r) : r.width + 8 < 2 ^ 32 ∧ r.height + 10 < 2 ^ 32 := by
  have hcolumn := h.column
  have hrow := h.row
  have hwidth := r.width_le
  have hsize := h.on.size_le
  have hten : r.pitch * 10 ≤ r.pitch * r.height := Nat.mul_le_mul_left _ (by omega)
  have height : 8 * r.height ≤ r.pitch * r.height := Nat.mul_le_mul_right _ (by omega)
  exact ⟨by omega, by omega⟩

theorem Fresh.follows (h : s.Fresh r) (font : BitVec 8 → Nat → BitVec 8) :
    (s.console []).Follows font r (fun p => s.frame.fb (r.cell p)) (s.terminal r) := by
  obtain ⟨hwidth, -⟩ := h.small
  have haligned := h.aligned
  have hcolumn := h.column
  have hbase : ∀ p : Pixel, (s.cursorY.toNat : Int) ≤ p.2 → (s.terminal r).text.base p = colorDarkBg :=
    fun p hp => if_pos (Int.ofNat_le.mp hp)
  refine ⟨⟨h.on.width, h.on.height, ?_, rfl, h.row, rfl, ⟨?_, hbase⟩, fun p hp => ?_⟩, ?_⟩
  · change s.cursorX.toNat = 8 * (s.cursorX.toNat / 8)
    omega
  · exact fun row hrow => absurd hrow List.not_mem_nil
  · refine Eq.trans ?_ (TextScreen.picture_fresh hbase).symm
    change s.frame.fb (r.cell p) =
      if s.cursorY.toNat ≤ p.2 then colorDarkBg else s.frame.fb (r.cell p)
    split
    · rename_i hbelow
      exact h.paper p hp hbelow
    · rfl
  · change 8 * (s.cursorX.toNat / 8) + 16 < 2 ^ 32
    omega

/-- **The console is a terminal.** From a screen that has room at its cursor and nothing below, whatever is
printed, erased and cleared in whatever colours: the memory shows the rows of the terminal, and the cursor
is where the terminal's is, provided that no tab makes the sum of its tab stop wrap. -/
theorem console_is_terminal (font : BitVec 8 → Nat → BitVec 8) (h : s.Fresh r) {calls : List ConsoleCall}
    (hcalls : ∀ pre call, pre ++ [call] <+: calls →
      CallFits font r ((s.terminal r).run font r pre) call) :
    let t := (s.terminal r).run font r calls
    r.Depicts s.frame.fb (s.run font calls).frame.fb (t.text.picture (consoleFace font)) ∧
      (s.run font calls).cursorX.toNat = 8 * t.column ∧
      ((s.run font calls).cursorY.toNat : Int) = t.text.current.top := by
  obtain ⟨hwidth, hheight⟩ := h.small
  have hstart : s.Shows font r s.frame.fb (fun p => s.frame.fb (r.cell p)) (s.console []) :=
    ⟨[], rfl, h.on, depicts_self _⟩
  obtain ⟨drawn, hk, hpictures⟩ := hstart.run calls
  have hfollows := ((h.follows font).run hwidth hheight hcalls).mirrors
  rw [hk] at hfollows
  exact ⟨hpictures.depicts.congr hfollows.picture, hfollows.column, hfollows.row⟩

/-- Two rows of two characters. -/
def paperScreen : Screen := ⟨⟨⟨16, 20⟩, 16, fun _ => colorDarkBg⟩, 0, 0, colorWhite⟩

theorem paperScreen_width_le : paperScreen.frame.width.toNat ≤ paperScreen.frame.pitch.toNat := by decide

def paperRaster : Raster := ⟨16, 20, 16, paperScreen_width_le⟩

/-- The third row moves the first one off the screen, its character is erased, and another colour follows. -/
def paperCalls : List ConsoleCall :=
  [.print ("abcde".toList.map ascii), .putchar (ascii '\x08'), .setColor 0x000000FF, .putchar (ascii 'f')]

theorem console_is_terminal_paperScreen :
    let t := (paperScreen.terminal paperRaster).run (fun _ _ => 0xFF) paperRaster paperCalls
    let screen := paperScreen.run (fun _ _ => 0xFF) paperCalls
    paperRaster.Depicts paperScreen.frame.fb screen.frame.fb (t.text.picture (consoleFace fun _ _ => 0xFF)) ∧
      screen.cursorX.toNat = 8 * t.column ∧ (screen.cursorY.toNat : Int) = t.text.current.top ∧
      t.column = 1 ∧ t.text.current.top = 10 := by
  have hfresh : paperScreen.Fresh paperRaster :=
    ⟨⟨rfl, rfl, rfl, by decide⟩, rfl, by decide, by decide, fun _ _ _ => rfl⟩
  have hcalls : ∀ pre call, pre ++ [call] <+: paperCalls →
      CallFits (fun _ _ => 0xFF) paperRaster
        ((paperScreen.terminal paperRaster).run (fun _ _ => 0xFF) paperRaster pre) call := by
    intro pre call hpre
    have hcall := hpre.subset (List.mem_append_right pre (List.mem_singleton_self call))
    simp only [paperCalls, List.mem_cons, List.not_mem_nil, or_false] at hcall
    obtain rfl | rfl | rfl | rfl := hcall
    · exact tabsFit_of_notMem (by decide)
    · exact tabsFit_of_notMem (by decide)
    · trivial
    · exact tabsFit_of_notMem (by decide)
  obtain ⟨hdepicts, hcolumn, hrow⟩ := console_is_terminal (fun _ _ => 0xFF) hfresh hcalls
  exact ⟨hdepicts, hcolumn, hrow, by decide, by decide⟩

end Screen

end SimpleOs
