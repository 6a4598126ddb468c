import SimpleOs.Boot.BootKernel

/-!
# The memory bar of the boot screen

`gather_memory_info` of `boot/main.c` and the memory bar of `draw_ui`, with the functions of
`boot/graphics.h` that draw it. What is drawn is given as the pixels that are set, in order.
-/

namespace SimpleOs

/-- `RGB(r, g, b)`, of bytes. -/
def rgb (r g b : BitVec 32) : BitVec 32 := b ||| (g <<< 8) ||| (r <<< 16)

def colorAccent : BitVec 32 := 0x00F5A97F

structure Painted where
  x : BitVec 32
  y : BitVec 32
  color : BitVec 32
deriving DecidableEq

/-- The fields of `gfx` that clip. -/
structure Gfx where
  width : BitVec 32
  height : BitVec 32

theorem toNat_succ_of_lt {i stop : BitVec 32} (h : i < stop) : (i + 1#32).toNat = i.toNat + 1 := by
  have hstop := stop.isLt
  rw [BitVec.lt_def] at h
  rw [BitVec.toNat_add]
  exact Nat.mod_eq_of_lt (show i.toNat + 1 < 2 ^ 32 by omega)

/-- The values that a loop variable takes from `i` up to below `stop`. -/
def countUp (i stop : BitVec 32) : List (BitVec 32) :=
  if i < stop then i :: countUp (i + 1#32) stop else []
termination_by stop.toNat - i.toNat
decreasing_by
  rename_i hlt
  rw [toNat_succ_of_lt hlt]
  rw [BitVec.lt_def] at hlt
  omega

namespace Gfx

variable (g : Gfx)

def gfxPixel (x y color : BitVec 32) : List Painted :=
  if x < g.width ∧ y < g.height then [⟨x, y, color⟩] else []

def gfxFillRect (x y w h color : BitVec 32) : List Painted :=
  ((countUp y (y + h)).takeWhile (· < g.height)).flatMap fun py =>
    ((countUp x (x + w)).takeWhile (· < g.width)).map fun px => ⟨px, py, color⟩

/-- The body of the loop over the corners of `gfx_rounded_rect`. -/
def gfxCorner (x y w h r color px py : BitVec 32) : List Painted :=
  let dx := r - px - 1
  let dy := r - py - 1
  if dx * dx + dy * dy ≤ r * r then
    g.gfxPixel (x + px) (y + py) color ++
    g.gfxPixel (x + w - 1 - px) (y + py) color ++
    g.gfxPixel (x + px) (y + h - 1 - py) color ++
    g.gfxPixel (x + w - 1 - px) (y + h - 1 - py) color
  else []

def gfxRoundedRect (x y w h r color : BitVec 32) : List Painted :=
  g.gfxFillRect (x + r) y (w - 2 * r) h color ++
  g.gfxFillRect x (y + r) r (h - 2 * r) color ++
  g.gfxFillRect (x + w - r) (y + r) r (h - 2 * r) color ++
  (countUp 0 r).flatMap fun py => (countUp 0 r).flatMap fun px => g.gfxCorner x y w h r color px py

/-- `fill_w` of `gfx_progress`, whose division is by `max`. -/
def fillWidth (w value max : BitVec 32) : BitVec 32 := value * (w - 4) / max

/-- `none` is the division by zero. -/
def gfxProgress (x y w h value max bg fg : BitVec 32) : Option (List Painted) :=
  if max = 0 then none
  else
    let fillW := fillWidth w value max
    some (g.gfxRoundedRect x y w h (h / 2) bg ++
      if fillW > 0 then g.gfxRoundedRect (x + 2) (y + 2) fillW (h - 4) ((h - 4) / 2) fg else [])

end Gfx

/-- The static variables of `boot/main.c` that hold system info. -/
structure MemoryInfo where
  totalMemoryMb : Nat
  usableMemoryMb : Nat
  memoryEntries : Nat
deriving DecidableEq

namespace MemoryInfo

def start : MemoryInfo := ⟨0, 0, 0⟩

/-- The loop of `gather_memory_info`, with `total_pages` and `usable_pages` after `n` turns. -/
def sumPages (mem : ByteMemory) (mmap descSize : Nat) : Nat → Nat × Nat
  | 0 => (0, 0)
  | n + 1 =>
      let (total, usable) := sumPages mem mmap descSize n
      let desc := MemoryMapEntry.load mem (mmap + n * descSize)
      (wadd total desc.numPages, if desc.Usable then wadd usable desc.numPages else usable)

def pagesToMb (pages : Nat) : Nat := pages * 4096 % 2 ^ 64 / (1024 * 1024)

end MemoryInfo

inductive Gathered (σ : Type) where
  | done (info : MemoryInfo) (w : World σ)
  | divideError (w : World σ)

open MemoryInfo in
def gatherMemoryInfo {σ : Type} (fw : Firmware σ) (w : World σ) (info : MemoryInfo) : Gathered σ :=
  let r := fw.getMemoryMap w 0 0
  if r.status ≠ efiBufferTooSmall then .done info r.world
  else
    let size := wadd r.mmapSize (r.descSize * 4 % 2 ^ 64)
    let (status, mmap, w) := fw.allocatePool r.world size
    if EfiError status then .done info w
    else
      let r := fw.getMemoryMap w size mmap
      if EfiError r.status then .done info (fw.freePool r.world mmap)
      else if r.descSize = 0 then .divideError r.world
      else
        let entries := r.mmapSize / r.descSize
        let (total, usable) := sumPages r.world.mem mmap r.descSize entries
        .done ⟨pagesToMb total, pagesToMb usable, entries⟩ (fw.freePool r.world mmap)

/-- The call of `gfx_progress` in `draw_ui`. -/
def Gfx.memoryBar (g : Gfx) (info : MemoryInfo) : Option (List Painted) :=
  let panelW := 500
  let panelH := 200
  let panelX := 50
  let panelY := 100
  let barX := panelX + 30
  let barY := panelY + panelH - 35
  let barW := panelW - 60
  g.gfxProgress barX barY barW 20 (BitVec.ofNat 32 info.usableMemoryMb)
    (BitVec.ofNat 32 info.totalMemoryMb) (rgb 60 60 80) colorAccent

end SimpleOs
