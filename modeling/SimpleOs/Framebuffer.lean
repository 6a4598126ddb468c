import SimpleOs.Boot.Graphics
import SimpleOs.Console

/-!
# The framebuffer

The functions of `kernel/kernel.c` that draw, on the memory that they write. `put_pixel` and `fill_rect`
are those of `boot/graphics.h` word for word, so the pixels that they set are taken from there. The index
of a pixel is computed in 32 bits.
-/

namespace SimpleOs

open Console

/-- `fb`, `fb_width`, `fb_height` and `fb_pitch`, as the memory from `fb` on. -/
structure Framebuffer extends Gfx where
  pitch : BitVec 32
  fb : Nat → BitVec 32

/-- Both loops of `clear_screen`, and of `gfx_clear`. -/
def Gfx.gfxClear (g : Gfx) (color : BitVec 32) : List Painted :=
  (countUp 0 g.height).flatMap fun y => (countUp 0 g.width).map fun x => ⟨x, y, color⟩

namespace Framebuffer

variable (f : Framebuffer)

/-- `fb[y * fb_pitch + x]` -/
def index (x y : BitVec 32) : Nat := (y * f.pitch + x).toNat

def store (q : Painted) : Framebuffer := { f with fb := Function.update f.fb (f.index q.x q.y) q.color }

def paint (qs : List Painted) : Framebuffer := qs.foldl store f

def putPixel (x y color : BitVec 32) : Framebuffer := f.paint (f.gfxPixel x y color)

def fillRect (x y w h color : BitVec 32) : Framebuffer := f.paint (f.gfxFillRect x y w h color)

def clearScreen (color : BitVec 32) : Framebuffer := f.paint (f.gfxClear color)

/-- The calls of `put_pixel` are given by `drawChar`. -/
def drawChar (font : BitVec 8 → Nat → BitVec 8) (x y : BitVec 32) (c : BitVec 8) (color : BitVec 32) :
    Framebuffer :=
  (SimpleOs.drawChar font x y c).foldl (fun f p => f.putPixel p.1 p.2 color) f

/-- `fb[(y - 10) * fb_pitch + x] = fb[y * fb_pitch + x]` -/
def copyUp (x y : BitVec 32) : Framebuffer :=
  { f with fb := Function.update f.fb (f.index x (y - 10)) (f.fb (f.index x y)) }

/-- The loops of `console_newline` that move everything up. -/
def scroll : Framebuffer :=
  (countUp 10 f.height).foldl (fun f y => (countUp 0 f.width).foldl (fun f x => f.copyUp x y) f) f

end Framebuffer

/-- The framebuffer with the cursor and the colour of the text. -/
structure Screen where
  frame : Framebuffer
  cursorX : BitVec 32
  cursorY : BitVec 32
  textColor : BitVec 32

namespace Screen

variable (font : BitVec 8 → Nat → BitVec 8)

def consoleNewline (s : Screen) : Screen :=
  let s := { s with cursorX := 0, cursorY := s.cursorY + 10 }
  if s.cursorY + 10 > s.frame.height then
    { s with
      frame := s.frame.scroll.fillRect 0 (s.frame.height - 10) s.frame.width 10 colorDarkBg
      cursorY := s.frame.height - 10 }
  else s

def consolePutchar (s : Screen) (c : BitVec 8) : Screen :=
  if c = ascii '\n' then s.consoleNewline
  else if c = ascii '\r' then { s with cursorX := 0 }
  else if c = ascii '\t' then { s with cursorX := (s.cursorX + 32) &&& ~~~31 }
  else if c = ascii '\x08' then
    if s.cursorX ≥ 8 then
      let s := { s with cursorX := s.cursorX - 8 }
      { s with frame := s.frame.fillRect s.cursorX s.cursorY 8 10 colorDarkBg }
    else s
  else
    let s := { s with frame := s.frame.drawChar font s.cursorX s.cursorY c s.textColor }
    let s := { s with cursorX := s.cursorX + 8 }
    if s.cursorX + 8 > s.frame.width then s.consoleNewline else s

def consolePrint (s : Screen) (str : List (BitVec 8)) : Screen := str.foldl (consolePutchar font) s

def consoleSetColor (s : Screen) (color : BitVec 32) : Screen := { s with textColor := color }

def consoleClear (s : Screen) : Screen :=
  { s with frame := s.frame.clearScreen colorDarkBg, cursorX := 0, cursorY := 0 }

end Screen

/-- The functions of `console.h`; `print_dec` and `print_hex` are calls of `console_print`. -/
inductive ConsoleCall where
  | putchar (c : BitVec 8)
  | print (str : List (BitVec 8))
  | setColor (color : BitVec 32)
  | clear
deriving DecidableEq

def Screen.step (font : BitVec 8 → Nat → BitVec 8) (s : Screen) : ConsoleCall → Screen
  | .putchar c => s.consolePutchar font c
  | .print str => s.consolePrint font str
  | .setColor color => s.consoleSetColor color
  | .clear => s.consoleClear

def Screen.run (font : BitVec 8 → Nat → BitVec 8) (s : Screen) (calls : List ConsoleCall) : Screen :=
  calls.foldl (step font) s

end SimpleOs
