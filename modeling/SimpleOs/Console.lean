import SimpleOs.Lib.CString

/-!
# The console

The cursor of `kernel/kernel.c` and the functions that move it. What they draw is given as the calls of
`draw_char` and `fill_rect`, and of the loop that scrolls.
-/

namespace SimpleOs

def colorWhite : BitVec 32 := 0x00FFFFFF
def colorGreen : BitVec 32 := 0x0000FF00
def colorCyan : BitVec 32 := 0x00FFFF00
def colorDarkBg : BitVec 32 := 0x00202030

inductive Drawing where
  | char (x y : BitVec 32) (c : BitVec 8) (color : BitVec 32)
  | fill (x y w h color : BitVec 32)
  /-- Every row of the framebuffer is moved up by 10. -/
  | scroll
deriving DecidableEq

/-- The static variables, and what has been drawn. -/
structure Console where
  fbWidth : BitVec 32
  fbHeight : BitVec 32
  cursorX : BitVec 32
  cursorY : BitVec 32
  textColor : BitVec 32
  drawn : List Drawing
deriving DecidableEq

/-- `draw_char`, as the pixels it has set; a glyph of `font` is given as its rows. -/
def drawChar (font : BitVec 8 → Nat → BitVec 8) (x y : BitVec 32) (c : BitVec 8) :
    List (BitVec 32 × BitVec 32) :=
  let c := if c.toNat > 127 then ascii '?' else c
  (List.range 8).flatMap fun row =>
    ((List.range 8).filter fun col => font c row &&& (0x80#8 >>> col) ≠ 0).map fun col =>
      (x + BitVec.ofNat 32 col, y + BitVec.ofNat 32 row)

namespace Console

/-- `put_pixel` sets the pixel. -/
def Shows (k : Console) (pixel : BitVec 32 × BitVec 32) : Prop :=
  pixel.1 < k.fbWidth ∧ pixel.2 < k.fbHeight

def draw (k : Console) (d : Drawing) : Console := { k with drawn := k.drawn ++ [d] }

def consoleNewline (k : Console) : Console :=
  let k := { k with cursorX := 0, cursorY := k.cursorY + 10 }
  if k.cursorY + 10 > k.fbHeight then
    let k := (k.draw .scroll).draw (.fill 0 (k.fbHeight - 10) k.fbWidth 10 colorDarkBg)
    { k with cursorY := k.fbHeight - 10 }
  else k

def consolePutchar (k : Console) (c : BitVec 8) : Console :=
  if c = ascii '\n' then k.consoleNewline
  else if c = ascii '\r' then { k with cursorX := 0 }
  else if c = ascii '\t' then { k with cursorX := (k.cursorX + 32) &&& ~~~31 }
  else if c = ascii '\x08' then
    if k.cursorX ≥ 8 then
      let k := { k with cursorX := k.cursorX - 8 }
      k.draw (.fill k.cursorX k.cursorY 8 10 colorDarkBg)
    else k
  else
    let k := k.draw (.char k.cursorX k.cursorY c k.textColor)
    let k := { k with cursorX := k.cursorX + 8 }
    if k.cursorX + 8 > k.fbWidth then k.consoleNewline else k

def consolePrint (k : Console) (str : List (BitVec 8)) : Console := str.foldl consolePutchar k

def consoleSetColor (k : Console) (color : BitVec 32) : Console := { k with textColor := color }

end Console

end SimpleOs
