import SimpleOs.Framebuffer
import SimpleOs.Lib.Raster
import SimpleOs.Proof.MemoryBar

/-!
# The image in the framebuffer

What is drawn is a picture over the picture that was there. The functions that draw write no pixel that is
not shown, and the loop that scrolls reads every pixel before it writes it: so the memory always shows the
drawings that were made, one over the other, and nothing else of it changes.
-/

namespace SimpleOs

open Raster

variable {f : Framebuffer} {r : Raster} {before : Nat → BitVec 32} {image : Pixel → BitVec 32}
  {qs : List Painted} {q : Painted} {x y w h color px py i stop n : BitVec 32} {c : BitVec 8}
  {font : BitVec 8 → Nat → BitVec 8} {p : Pixel}

def Painted.pixel (q : Painted) : Pixel := (q.x.toNat, q.y.toNat)

/-- The pixel is shown. -/
def Gfx.Clips (g : Gfx) (q : Painted) : Prop := q.x < g.width ∧ q.y < g.height

theorem mem_takeWhile_countUp : px ∈ (countUp i stop).takeWhile (· < n) ↔
    (i.toNat ≤ px.toNat ∧ px.toNat < stop.toNat) ∧ px < n := by
  induction i using countUp.induct stop with
  | case1 i hlt ih =>
      rw [countUp, if_pos hlt, List.takeWhile_cons]
      have hnext := toNat_succ_of_lt hlt
      simp only [BitVec.lt_def] at hlt ih ⊢
      split
      · rename_i hin
        rw [decide_eq_true_eq] at hin
        rw [List.mem_cons, ih, hnext, BitVec.toNat_inj.symm]
        omega
      · rename_i hout
        rw [decide_eq_true_eq] at hout
        refine iff_of_false List.not_mem_nil ?_
        omega
  | case2 i hge =>
      rw [countUp, if_neg hge]
      rw [BitVec.lt_def] at hge
      refine iff_of_false List.not_mem_nil ?_
      omega

theorem pairwise_countUp : (countUp i stop).Pairwise fun a b => a.toNat < b.toNat := by
  induction i using countUp.induct stop with
  | case1 i hlt ih =>
      rw [countUp, if_pos hlt]
      refine List.pairwise_cons.mpr ⟨fun b hb => ?_, ih⟩
      have hle := (mem_countUp.mp hb).1
      rw [toNat_succ_of_lt hlt] at hle
      exact hle
  | case2 i hge =>
      rw [countUp, if_neg hge]
      exact List.Pairwise.nil

theorem mem_gfxFillRect_iff {g : Gfx} : q ∈ g.gfxFillRect x y w h color ↔
    ((x.toNat ≤ q.x.toNat ∧ q.x.toNat < (x + w).toNat) ∧ q.x < g.width) ∧
      ((y.toNat ≤ q.y.toNat ∧ q.y.toNat < (y + h).toNat) ∧ q.y < g.height) ∧ q.color = color := by
  rw [Gfx.gfxFillRect, List.mem_flatMap]
  constructor
  · rintro ⟨py, hpy, hrow⟩
    obtain ⟨px, hpx, rfl⟩ := List.mem_map.mp hrow
    exact ⟨mem_takeWhile_countUp.mp hpx, mem_takeWhile_countUp.mp hpy, rfl⟩
  · rintro ⟨hx, hy, hcolor⟩
    refine ⟨q.y, mem_takeWhile_countUp.mpr hy, List.mem_map.mpr ⟨q.x, mem_takeWhile_countUp.mpr hx, ?_⟩⟩
    rw [← hcolor]

theorem mem_gfxClear_iff {g : Gfx} : q ∈ g.gfxClear color ↔ g.Clips q ∧ q.color = color := by
  rw [Gfx.gfxClear, List.mem_flatMap, Gfx.Clips]
  constructor
  · rintro ⟨py, hpy, hrow⟩
    obtain ⟨px, hpx, rfl⟩ := List.mem_map.mp hrow
    exact ⟨⟨(mem_countUp.mp hpx).2, (mem_countUp.mp hpy).2⟩, rfl⟩
  · rintro ⟨⟨hx, hy⟩, hcolor⟩
    refine ⟨q.y, mem_countUp.mpr ⟨Nat.zero_le _, hy⟩,
      List.mem_map.mpr ⟨q.x, mem_countUp.mpr ⟨Nat.zero_le _, hx⟩, ?_⟩⟩
    rw [← hcolor]

namespace Framebuffer

/-- The framebuffer is laid out as the raster, and its indices do not wrap. -/
structure On (f : Framebuffer) (r : Raster) : Prop where
  width : r.width = f.width.toNat
  height : r.height = f.height.toNat
  pitch : r.pitch = f.pitch.toNat
  size_le : r.pitch * r.height ≤ 2 ^ 32

/-- The framebuffer shows the image, and around it there is what was there before. -/
structure Pictures (f : Framebuffer) (r : Raster) (before : Nat → BitVec 32)
    (image : Pixel → BitVec 32) : Prop where
  on : f.On r
  depicts : r.Depicts before f.fb image

theorem On.visible_iff (h : f.On r) : r.Visible (x.toNat, y.toNat) ↔ x < f.width ∧ y < f.height := by
  rw [Visible, h.width, h.height, BitVec.lt_def, BitVec.lt_def]

theorem On.toNat_pixel (h : f.On r) (hp : r.Visible p) : (BitVec.ofNat 32 p.1).toNat = p.1 ∧
    (BitVec.ofNat 32 p.2).toNat = p.2 ∧ p.1 < f.width.toNat ∧ p.2 < f.height.toNat := by
  obtain ⟨hx, hy⟩ := hp
  rw [h.width] at hx
  rw [h.height] at hy
  exact ⟨Nat.mod_eq_of_lt (hx.trans f.width.isLt), Nat.mod_eq_of_lt (hy.trans f.height.isLt), hx, hy⟩

theorem On.index_eq (h : f.On r) (hx : x < f.width) (hy : y < f.height) :
    f.index x y = r.cell (x.toNat, y.toNat) := by
  have hlt : r.cell (x.toNat, y.toNat) < 2 ^ 32 :=
    (cell_lt (h.visible_iff.mpr ⟨hx, hy⟩)).trans_le h.size_le
  rw [cell, h.pitch] at hlt
  rw [index, BitVec.toNat_add, BitVec.toNat_mul, Nat.mod_add_mod, Nat.mod_eq_of_lt hlt, cell, h.pitch]

theorem Pictures.store (h : f.Pictures r before image) (hq : f.Clips q) :
    (f.store q).Pictures r before (Function.update image q.pixel q.color) := by
  refine ⟨⟨h.on.width, h.on.height, h.on.pitch, h.on.size_le⟩, ?_⟩
  rw [Framebuffer.store, h.on.index_eq hq.1 hq.2]
  exact h.depicts.set (h.on.visible_iff.mpr hq) _

theorem Pictures.paint (h : f.Pictures r before image) (hqs : ∀ q ∈ qs, f.Clips q) :
    (f.paint qs).Pictures r before (setAll image (qs.map fun q => (q.pixel, q.color))) := by
  induction qs generalizing f image with
  | nil => exact h
  | cons q qs ih =>
      have hq := hqs q List.mem_cons_self
      exact ih (h.store hq) fun q' hq' => hqs q' (List.mem_cons_of_mem q hq')

/-- Pixels of one colour. -/
theorem Pictures.paint_color (h : f.Pictures r before image)
    (hqs : ∀ q ∈ qs, f.Clips q ∧ q.color = color) {P : Pixel → Prop} [DecidablePred P]
    (hP : ∀ p, r.Visible p → (P p ↔ ∃ q ∈ qs, q.pixel = p)) :
    (f.paint qs).Pictures r before fun p => if P p then color else image p := by
  have hpaint := h.paint fun q hq => (hqs q hq).1
  refine ⟨hpaint.on, hpaint.depicts.congr fun p hp => ?_⟩
  split
  · rename_i hin
    obtain ⟨q, hq, rfl⟩ := (hP p hp).mp hin
    refine setAll_of_mem (fun d hd => ?_) ⟨_, List.mem_map_of_mem hq, rfl⟩
    obtain ⟨q', hq', rfl⟩ := List.mem_map.mp hd
    exact (hqs q' hq').2
  · rename_i hout
    refine setAll_of_notMem fun d hd heq => hout ?_
    obtain ⟨q, hq, rfl⟩ := List.mem_map.mp hd
    exact (hP p hp).mpr ⟨q, hq, heq⟩

theorem toGfx_foldl {ι : Type} {step : Framebuffer → ι → Framebuffer}
    (hstep : ∀ f i, (step f i).toGfx = f.toGfx) (f : Framebuffer) (l : List ι) :
    (l.foldl step f).toGfx = f.toGfx := by
  induction l generalizing f with
  | nil => rfl
  | cons i l ih => rw [List.foldl_cons, ih, hstep]

theorem toGfx_paint (f : Framebuffer) (qs : List Painted) : (f.paint qs).toGfx = f.toGfx := by
  have hstore : ∀ (f : Framebuffer) (q : Painted), (f.store q).toGfx = f.toGfx := fun _ _ => rfl
  exact toGfx_foldl hstore f qs

@[simp]
theorem toGfx_fillRect : (f.fillRect x y w h color).toGfx = f.toGfx := toGfx_paint f _

@[simp]
theorem toGfx_clearScreen : (f.clearScreen color).toGfx = f.toGfx := toGfx_paint f _

theorem mem_drawChar : (x, y) ∈ SimpleOs.drawChar font i n c ↔ ∃ row < 8, ∃ col < 8,
    font (if c.toNat > 127 then ascii '?' else c) row &&& (0x80#8 >>> col) ≠ 0 ∧
      i + BitVec.ofNat 32 col = x ∧ n + BitVec.ofNat 32 row = y := by
  simp only [SimpleOs.drawChar, List.mem_flatMap, List.mem_map, List.mem_filter, List.mem_range,
    decide_eq_true_eq, Prod.mk.injEq]
  constructor
  · rintro ⟨row, hrow, col, ⟨hcol, hbit⟩, heq⟩
    exact ⟨row, hrow, col, hcol, hbit, heq⟩
  · rintro ⟨row, hrow, col, hcol, hbit, heq⟩
    exact ⟨row, hrow, col, ⟨hcol, hbit⟩, heq⟩

end Framebuffer

namespace Drawing

/-- The pixels that a drawing sets, all of them in one colour. -/
def Sets (font : BitVec 8 → Nat → BitVec 8) (p : Pixel) : Drawing → Prop
  | .char x y c _ => (BitVec.ofNat 32 p.1, BitVec.ofNat 32 p.2) ∈ drawChar font x y c
  | .fill x y w h _ => (x.toNat ≤ p.1 ∧ p.1 < (x + w).toNat) ∧ y.toNat ≤ p.2 ∧ p.2 < (y + h).toNat
  | .scroll => False

instance (font : BitVec 8 → Nat → BitVec 8) (p : Pixel) : (d : Drawing) → Decidable (d.Sets font p)
  | .char x y c _ => inferInstanceAs (Decidable (_ ∈ drawChar font x y c))
  | .fill _ _ _ _ _ => inferInstanceAs (Decidable (_ ∧ _))
  | .scroll => inferInstanceAs (Decidable False)

/-- The picture after a drawing. -/
def drawnOn (font : BitVec 8 → Nat → BitVec 8) (height : Nat) (image : Pixel → BitVec 32) (d : Drawing) :
    Pixel → BitVec 32 :=
  match d with
  | .char _ _ _ color => fun p => if d.Sets font p then color else image p
  | .fill _ _ _ _ color => fun p => if d.Sets font p then color else image p
  | .scroll => scrollUp height 10 image

end Drawing

namespace Framebuffer

theorem Pictures.fillRect (h : f.Pictures r before image) (x y w k color : BitVec 32) :
    (f.fillRect x y w k color).Pictures r before
      (Drawing.drawnOn font r.height image (.fill x y w k color)) := by
  refine h.paint_color (fun q hq => ?_) fun p hp => ?_
  · obtain ⟨hx, hy, hcolor⟩ := mem_gfxFillRect_iff.mp hq
    exact ⟨⟨hx.2, hy.2⟩, hcolor⟩
  · obtain ⟨hx', hy', hx, hy⟩ := h.on.toNat_pixel hp
    constructor
    · rintro ⟨hin, hin'⟩
      refine ⟨⟨BitVec.ofNat 32 p.1, BitVec.ofNat 32 p.2, color⟩, mem_gfxFillRect_iff.mpr ?_,
        Prod.ext hx' hy'⟩
      simp only [BitVec.lt_def, hx', hy']
      exact ⟨⟨hin, hx⟩, ⟨hin', hy⟩, trivial⟩
    · rintro ⟨q, hq, rfl⟩
      obtain ⟨hin, hin', -⟩ := mem_gfxFillRect_iff.mp hq
      exact ⟨hin.1, hin'.1⟩

theorem foldl_putPixel (f : Framebuffer) (ps : List (BitVec 32 × BitVec 32)) (color : BitVec 32) :
    ps.foldl (fun f p => f.putPixel p.1 p.2 color) f =
      f.paint (ps.flatMap fun p => f.gfxPixel p.1 p.2 color) := by
  induction ps generalizing f with
  | nil => rfl
  | cons p ps ih =>
      rw [List.foldl_cons, ih, List.flatMap_cons, putPixel, toGfx_paint]
      exact (List.foldl_append).symm

@[simp]
theorem toGfx_drawChar : (f.drawChar font x y c color).toGfx = f.toGfx := by
  rw [Framebuffer.drawChar, foldl_putPixel, toGfx_paint]

theorem Pictures.drawChar (h : f.Pictures r before image) (x y : BitVec 32) (c : BitVec 8)
    (color : BitVec 32) : (f.drawChar font x y c color).Pictures r before
      (Drawing.drawnOn font r.height image (.char x y c color)) := by
  rw [Framebuffer.drawChar, foldl_putPixel]
  refine h.paint_color (fun q hq => ?_) fun p hp => ?_
  · obtain ⟨p, -, hpixel⟩ := List.mem_flatMap.mp hq
    obtain ⟨hin, rfl⟩ := mem_gfxPixel.mp hpixel
    exact ⟨hin, rfl⟩
  · obtain ⟨hx', hy', hx, hy⟩ := h.on.toNat_pixel hp
    constructor
    · intro hmem
      refine ⟨⟨BitVec.ofNat 32 p.1, BitVec.ofNat 32 p.2, color⟩,
        List.mem_flatMap.mpr ⟨_, hmem, mem_gfxPixel.mpr ⟨?_, rfl⟩⟩, Prod.ext hx' hy'⟩
      simp only [BitVec.lt_def, hx', hy']
      exact ⟨hx, hy⟩
    · rintro ⟨q, hq, rfl⟩
      obtain ⟨p, hmem, hpixel⟩ := List.mem_flatMap.mp hq
      obtain ⟨-, rfl⟩ := mem_gfxPixel.mp hpixel
      simp only [Drawing.Sets, Painted.pixel, BitVec.ofNat_toNat, BitVec.setWidth_eq]
      exact hmem

theorem Pictures.clearScreen (h : f.Pictures r before image) (color : BitVec 32) :
    (f.clearScreen color).Pictures r before
      (Drawing.drawnOn font r.height image (.fill 0 0 f.width f.height color)) := by
  refine h.paint_color (fun q hq => mem_gfxClear_iff.mp hq) fun p hp => ?_
  obtain ⟨hx', hy', hx, hy⟩ := h.on.toNat_pixel hp
  refine iff_of_true ?_ ⟨⟨BitVec.ofNat 32 p.1, BitVec.ofNat 32 p.2, color⟩, mem_gfxClear_iff.mpr ⟨?_, rfl⟩,
    Prod.ext hx' hy'⟩
  · rw [Drawing.Sets, zero_add, zero_add]
    exact ⟨⟨Nat.zero_le _, hx⟩, Nat.zero_le _, hy⟩
  · simp only [Gfx.Clips, BitVec.lt_def, hx', hy']
    exact ⟨hx, hy⟩

theorem toNat_sub_ten (hy : 10 ≤ y.toNat) : (y - 10).toNat = y.toNat - 10 :=
  BitVec.toNat_sub_of_le (BitVec.le_def.mpr hy)

/-- The pixels that the loops copy, in order. -/
def scrolled (g : Gfx) : List (Pixel × Pixel) :=
  (countUp 10 g.height).flatMap fun y => (countUp 0 g.width).map fun x =>
    ((x.toNat, y.toNat - 10), (x.toNat, y.toNat))

theorem mem_scrolled {g : Gfx} {m : Pixel × Pixel} : m ∈ scrolled g ↔
    m.1.1 < g.width.toNat ∧ m.1.2 + 10 < g.height.toNat ∧ m.2 = (m.1.1, m.1.2 + 10) := by
  obtain ⟨⟨x, y⟩, m⟩ := m
  simp only [scrolled, List.mem_flatMap, List.mem_map, mem_countUp, Prod.mk.injEq]
  constructor
  · rintro ⟨py, ⟨hlow, hhigh⟩, px, ⟨-, hx⟩, ⟨rfl, rfl⟩, rfl⟩
    have hten : 10 ≤ py.toNat := hlow
    rw [Nat.sub_add_cancel hten]
    exact ⟨hx, hhigh, rfl⟩
  · rintro ⟨hx, hy, rfl⟩
    have hx' : (BitVec.ofNat 32 x).toNat = x := Nat.mod_eq_of_lt (hx.trans g.width.isLt)
    have hy' : (BitVec.ofNat 32 (y + 10)).toNat = y + 10 := Nat.mod_eq_of_lt (hy.trans g.height.isLt)
    refine ⟨BitVec.ofNat 32 (y + 10), ⟨?_, by rwa [hy']⟩, BitVec.ofNat 32 x, ⟨Nat.zero_le _, by rwa [hx']⟩,
      ⟨hx', by rw [hy', Nat.add_sub_cancel]⟩, by rw [hx', hy']⟩
    rw [hy']
    exact Nat.le_add_left 10 y

/-- No pixel is read after it was written. -/
theorem pairwise_scrolled (g : Gfx) :
    (scrolled g).Pairwise fun m m' => m'.1 ≠ m.1 ∧ m'.2 ≠ m.1 := by
  refine List.pairwise_flatMap.mpr ⟨fun y _ => ?_, pairwise_countUp.imp_of_mem fun {y y'} hy hy' hlt => ?_⟩
  · refine List.pairwise_map.mpr (pairwise_countUp.imp fun {x x'} hlt => ?_)
    exact ⟨fun heq => hlt.ne' (congrArg Prod.fst heq), fun heq => hlt.ne' (congrArg Prod.fst heq)⟩
  · have hten : 10 ≤ y.toNat := (mem_countUp.mp hy).1
    rintro m hm m' hm'
    obtain ⟨x, -, rfl⟩ := List.mem_map.mp hm
    obtain ⟨x', -, rfl⟩ := List.mem_map.mp hm'
    refine ⟨fun heq => ?_, fun heq => ?_⟩
    · have hrow : y'.toNat - 10 = y.toNat - 10 := congrArg Prod.snd heq
      omega
    · have hrow : y'.toNat = y.toNat - 10 := congrArg Prod.snd heq
      omega

theorem foldl_moveCell_scrolled (g : Gfx) {height : Nat} (hheight : height = g.height.toNat)
    (image : Pixel → BitVec 32) (hp : p.1 < g.width.toNat) :
    (scrolled g).foldl moveCell image p = scrollUp height 10 image p := by
  rw [scrollUp]
  split
  · rename_i hin
    exact foldl_moveCell_of_mem (pairwise_scrolled g) (m := (p, (p.1, p.2 + 10)))
      (mem_scrolled.mpr ⟨hp, hheight ▸ hin, rfl⟩)
  · rename_i hout
    refine foldl_moveCell_of_notMem fun m hm heq => hout ?_
    obtain ⟨-, hy, -⟩ := mem_scrolled.mp hm
    rwa [heq, ← hheight] at hy

theorem Pictures.copyUp (h : f.Pictures r before image) (hx : x < f.width) (hy : y < f.height)
    (hten : 10 ≤ y.toNat) : (f.copyUp x y).Pictures r before
      (moveCell image ((x.toNat, y.toNat - 10), (x.toNat, y.toNat))) := by
  have hup : y - 10 < f.height := by
    rw [BitVec.lt_def] at hy ⊢
    rw [toNat_sub_ten hten]
    omega
  refine ⟨⟨h.on.width, h.on.height, h.on.pitch, h.on.size_le⟩, ?_⟩
  rw [Framebuffer.copyUp, h.on.index_eq hx hy, h.on.index_eq hx hup, toNat_sub_ten hten, moveCell,
    h.depicts.shown _ (h.on.visible_iff.mpr ⟨hx, hy⟩)]
  refine h.depicts.set ?_ _
  rw [← toNat_sub_ten hten]
  exact h.on.visible_iff.mpr ⟨hx, hup⟩

/-- The body of the loop over the rows. -/
theorem toGfx_copyRow (f : Framebuffer) (y : BitVec 32) :
    ((countUp 0 f.width).foldl (fun f x => f.copyUp x y) f).toGfx = f.toGfx := by
  have hcopy : ∀ (f : Framebuffer) (x : BitVec 32), (f.copyUp x y).toGfx = f.toGfx := fun _ _ => rfl
  exact toGfx_foldl hcopy f _

@[simp]
theorem toGfx_scroll : f.scroll.toGfx = f.toGfx := toGfx_foldl toGfx_copyRow f _

/-- A loop, each of whose turns does to the image what `draw` does. -/
theorem Pictures.foldl {ι : Type} {step : Framebuffer → ι → Framebuffer} {l : List ι}
    (h : f.Pictures r before image) (draw : (Pixel → BitVec 32) → ι → Pixel → BitVec 32)
    (hsame : ∀ f i, (step f i).toGfx = f.toGfx)
    (hstep : ∀ i ∈ l, ∀ f' image', f'.toGfx = f.toGfx → f'.Pictures r before image' →
      (step f' i).Pictures r before (draw image' i)) :
    (l.foldl step f).Pictures r before (l.foldl draw image) := by
  induction l generalizing f image with
  | nil => exact h
  | cons i l ih =>
      refine ih (hstep i List.mem_cons_self f image rfl h) fun j hj f' image' hf' => ?_
      exact hstep j (List.mem_cons_of_mem i hj) f' image' (hf'.trans (hsame f i))

theorem Pictures.copyRow (h : f.Pictures r before image) (hy : y ∈ countUp 10 f.height) :
    ((countUp 0 f.width).foldl (fun f x => f.copyUp x y) f).Pictures r before
      ((countUp 0 f.width).foldl
        (fun image x => moveCell image ((x.toNat, y.toNat - 10), (x.toNat, y.toNat))) image) := by
  refine h.foldl _ (fun _ _ => rfl) fun x hx f' image' hsame h' => ?_
  rw [← hsame] at hx hy
  exact h'.copyUp (mem_countUp.mp hx).2 (mem_countUp.mp hy).2 (mem_countUp.mp hy).1

theorem Pictures.scroll (h : f.Pictures r before image) :
    f.scroll.Pictures r before (Drawing.drawnOn font r.height image .scroll) := by
  have hrows := h.foldl (l := countUp 10 f.height)
    (fun image y => (countUp 0 f.width).foldl
      (fun image (x : BitVec 32) => moveCell image ((x.toNat, y.toNat - 10), (x.toNat, y.toNat))) image)
    toGfx_copyRow fun y hy f' image' hsame h' => by
      rw [← hsame] at hy ⊢
      exact h'.copyRow hy
  refine ⟨hrows.on, hrows.depicts.congr fun p hp => ?_⟩
  rw [Drawing.drawnOn, ← foldl_moveCell_scrolled f.toGfx h.on.height image (h.on.toNat_pixel hp).2.2.1,
    scrolled, List.foldl_flatMap]
  simp only [List.foldl_map]

end Framebuffer

/-- `console_clear`, with the drawing that has the same effect. -/
def Console.consoleClear (k : Console) : Console :=
  { k.draw (.fill 0 0 k.fbWidth k.fbHeight colorDarkBg) with cursorX := 0, cursorY := 0 }

def Console.step (k : Console) : ConsoleCall → Console
  | .putchar c => k.consolePutchar c
  | .print str => k.consolePrint str
  | .setColor color => k.consoleSetColor color
  | .clear => k.consoleClear

def Console.run (k : Console) (calls : List ConsoleCall) : Console := calls.foldl step k

namespace Screen

variable {s : Screen} {k : Console}

/-- The console that has made the drawings. -/
def console (s : Screen) (drawn : List Drawing) : Console where
  fbWidth := s.frame.width
  fbHeight := s.frame.height
  cursorX := s.cursorX
  cursorY := s.cursorY
  textColor := s.textColor
  drawn := drawn

/-- The screen has the cursor of the console, and its memory shows what the console has drawn. -/
def Shows (font : BitVec 8 → Nat → BitVec 8) (r : Raster) (before : Nat → BitVec 32)
    (image : Pixel → BitVec 32) (s : Screen) (k : Console) : Prop :=
  ∃ drawn, k = s.console drawn ∧
    s.frame.Pictures r before (drawn.foldl (Drawing.drawnOn font r.height) image)

variable {drawn : List Drawing}

theorem shows_newline
    (h : s.frame.Pictures r before (drawn.foldl (Drawing.drawnOn font r.height) image)) :
    s.consoleNewline.Shows font r before image (s.console drawn).consoleNewline := by
  by_cases hfull : s.cursorY + 10 + 10 > s.frame.height
  · have hscreen : s.consoleNewline = { s with
        frame := s.frame.scroll.fillRect 0 (s.frame.height - 10) s.frame.width 10 colorDarkBg
        cursorX := 0
        cursorY := s.frame.height - 10 } := if_pos hfull
    have hconsole : (s.console drawn).consoleNewline = { s.console drawn with
        cursorX := 0
        cursorY := s.frame.height - 10
        drawn := drawn ++ [.scroll] ++ [.fill 0 (s.frame.height - 10) s.frame.width 10 colorDarkBg] } :=
      if_pos hfull
    rw [hscreen, hconsole]
    refine ⟨drawn ++ [.scroll] ++ [.fill 0 (s.frame.height - 10) s.frame.width 10 colorDarkBg], ?_, ?_⟩
    · simp only [console, Framebuffer.toGfx_fillRect, Framebuffer.toGfx_scroll]
    · have hscroll : s.frame.scroll.Pictures r before
          (Drawing.drawnOn font r.height (drawn.foldl (Drawing.drawnOn font r.height) image) .scroll) :=
        h.scroll
      rw [List.foldl_append, List.foldl_append]
      exact hscroll.fillRect _ _ _ _ _
  · have hscreen : s.consoleNewline = { s with cursorX := 0, cursorY := s.cursorY + 10 } := if_neg hfull
    have hconsole : (s.console drawn).consoleNewline =
        { s.console drawn with cursorX := 0, cursorY := s.cursorY + 10 } := if_neg hfull
    rw [hscreen, hconsole]
    exact ⟨drawn, rfl, h⟩

theorem Shows.consoleNewline (h : s.Shows font r before image k) :
    s.consoleNewline.Shows font r before image k.consoleNewline := by
  obtain ⟨drawn, rfl, hpictures⟩ := h
  exact shows_newline hpictures

/-- A character is drawn, and the cursor moves on. -/
theorem shows_drawn (h : s.frame.Pictures r before (drawn.foldl (Drawing.drawnOn font r.height) image))
    (c : BitVec 8) : Shows font r before image
      { s with
        frame := s.frame.drawChar font s.cursorX s.cursorY c s.textColor
        cursorX := s.cursorX + 8 }
      { (s.console drawn).draw (.char s.cursorX s.cursorY c s.textColor) with
        cursorX := s.cursorX + 8 } := by
  refine ⟨drawn ++ [.char s.cursorX s.cursorY c s.textColor], ?_, ?_⟩
  · simp only [console, Framebuffer.toGfx_drawChar]
    rfl
  · rw [List.foldl_append]
    exact h.drawChar _ _ _ _

theorem Shows.consolePutchar (h : s.Shows font r before image k) (c : BitVec 8) :
    (s.consolePutchar font c).Shows font r before image (k.consolePutchar c) := by
  rw [Screen.consolePutchar, Console.consolePutchar]
  split
  · exact h.consoleNewline
  obtain ⟨drawn, rfl, hpictures⟩ := h
  split
  · exact ⟨drawn, rfl, hpictures⟩
  split
  · exact ⟨drawn, rfl, hpictures⟩
  split
  · by_cases hback : s.cursorX ≥ 8
    · rw [if_pos hback]
      refine (congrArg _ (if_pos hback)).mpr ?_
      refine ⟨drawn ++ [.fill (s.cursorX - 8) s.cursorY 8 10 colorDarkBg], ?_, ?_⟩
      · simp only [console, Framebuffer.toGfx_fillRect]
        rfl
      · rw [List.foldl_append]
        exact hpictures.fillRect _ _ _ _ _
    · rw [if_neg hback]
      refine (congrArg _ (if_neg hback)).mpr ?_
      exact ⟨drawn, rfl, hpictures⟩
  · have hnext := shows_drawn (s := s) hpictures c
    by_cases hfull : s.cursorX + 8 + 8 > s.frame.width
    · refine (congrArg₂ _ (if_pos ?_) (if_pos hfull)).mpr hnext.consoleNewline
      rwa [Framebuffer.toGfx_drawChar]
    · refine (congrArg₂ _ (if_neg ?_) (if_neg hfull)).mpr hnext
      rwa [Framebuffer.toGfx_drawChar]

theorem Shows.consolePrint (h : s.Shows font r before image k) (str : List (BitVec 8)) :
    (s.consolePrint font str).Shows font r before image (k.consolePrint str) := by
  induction str generalizing s k with
  | nil => exact h
  | cons c str ih => exact ih (h.consolePutchar c)

theorem Shows.step (h : s.Shows font r before image k) (call : ConsoleCall) :
    (s.step font call).Shows font r before image (k.step call) := by
  cases call with
  | putchar c => exact h.consolePutchar c
  | print str => exact h.consolePrint str
  | setColor color =>
      obtain ⟨drawn, rfl, hpictures⟩ := h
      exact ⟨drawn, rfl, hpictures⟩
  | clear =>
      obtain ⟨drawn, rfl, hpictures⟩ := h
      refine ⟨drawn ++ [.fill 0 0 s.frame.width s.frame.height colorDarkBg], ?_, ?_⟩
      · simp only [Screen.step, Screen.consoleClear, console, Framebuffer.toGfx_clearScreen]
        rfl
      · rw [List.foldl_append]
        exact hpictures.clearScreen _

theorem Shows.run (h : s.Shows font r before image k) (calls : List ConsoleCall) :
    (s.run font calls).Shows font r before image (k.run calls) := by
  induction calls generalizing s k with
  | nil => exact h
  | cons call calls ih => exact ih (h.step call)

/-- **The framebuffer shows what was drawn.** Whatever the memory holds, after any calls of the console
every pixel on the screen is as the drawings have left it that the console made, one over the other, and
no other cell of the memory has changed. -/
theorem framebuffer_shows_drawn (font : BitVec 8 → Nat → BitVec 8) (s : Screen) {r : Raster}
    (hr : s.frame.On r) (calls : List ConsoleCall) :
    let k := (s.console []).run calls
    (s.run font calls).console k.drawn = k ∧
      r.Depicts s.frame.fb (s.run font calls).frame.fb
        (k.drawn.foldl (Drawing.drawnOn font r.height) fun p => s.frame.fb (r.cell p)) := by
  have hstart : s.Shows font r s.frame.fb (fun p => s.frame.fb (r.cell p)) (s.console []) :=
    ⟨[], rfl, hr, depicts_self _⟩
  obtain ⟨drawn, hk, hpictures⟩ := hstart.run calls
  rw [hk]
  exact ⟨rfl, hpictures.depicts⟩

/-- Eight rows of sixteen pixels, of which the first twelve are shown. -/
def smallScreen : Screen := ⟨⟨⟨12, 8⟩, 16, fun _ => 0⟩, 0, 0, colorWhite⟩

theorem smallScreen_width_le : smallScreen.frame.width.toNat ≤ smallScreen.frame.pitch.toNat := by decide

def smallRaster : Raster := ⟨12, 8, 16, smallScreen_width_le⟩

theorem framebuffer_shows_drawn_smallScreen :
    smallRaster.Depicts smallScreen.frame.fb
      (smallScreen.run (fun _ _ => 0xFF) [.print [ascii 'a', ascii '\n']]).frame.fb
      (((smallScreen.console []).run [.print [ascii 'a', ascii '\n']]).drawn.foldl
        (Drawing.drawnOn (fun _ _ => 0xFF) 8) fun p => smallScreen.frame.fb (smallRaster.cell p)) :=
  (framebuffer_shows_drawn _ smallScreen ⟨rfl, rfl, rfl, by decide⟩ _).2

end Screen

end SimpleOs
