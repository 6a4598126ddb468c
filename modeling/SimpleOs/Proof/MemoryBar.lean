import SimpleOs.Boot.Graphics

/-!
# The memory bar

The bar is drawn from the totals that `gather_memory_info` leaves, which are 0 when a boot service fails.
It is right unless the total is 0, the product of the fill width wraps, or the filled part is narrower than
its corners: these are always as wide as the radius, and those of a part of less than 6 pixels reach out of
the bar on the left. From a maximum of 73 on some value gives such a part; the three largest maxima alone
leave it empty for every value, since the product is a multiple of 4.
-/

namespace SimpleOs

variable {σ : Type} {g : Gfx} {info : MemoryInfo} {q : Painted}
  {x y w h r v m color px py i stop : BitVec 32}

namespace MemoryInfo

/-- The arguments `value` and `max` of the call. -/
def value (info : MemoryInfo) : BitVec 32 := BitVec.ofNat 32 info.usableMemoryMb

def max (info : MemoryInfo) : BitVec 32 := BitVec.ofNat 32 info.totalMemoryMb

end MemoryInfo

def Painted.InBar (q : Painted) : Prop :=
  80 ≤ q.x.toNat ∧ q.x.toNat < 80 + 440 ∧ 265 ≤ q.y.toNat ∧ q.y.toNat < 265 + 20

/-- The bar of 440 by 20 pixels at (80, 265) with another value and maximum. -/
def Gfx.barOf (g : Gfx) (value max : BitVec 32) : Option (List Painted) :=
  g.gfxProgress 80 265 440 20 value max (rgb 60 60 80) colorAccent

theorem memoryBar_eq_barOf (g : Gfx) (info : MemoryInfo) :
    g.memoryBar info = g.barOf info.value info.max := rfl

/-- The bar is defined and filled in proportion, and with its maximum no value leads out of it. -/
structure WellDrawn (g : Gfx) (info : MemoryInfo) : Prop where
  defined : g.memoryBar info ≠ none
  noWrap : (info.value * (440#32 - 4#32)).toNat = info.value.toNat * 436
  exact : (Gfx.fillWidth 440#32 info.value info.max).toNat = info.value.toNat * 436 / info.max.toNat
  contained : ∀ value ≤ info.max, ∀ painted, g.barOf value info.max = some painted →
    ∀ q ∈ painted, q.InBar

/-- Every value up to the maximum leaves the bar empty or fills at least 6 pixels of it, or the screen ends
before the pixels in question. -/
structure BarFits (g : Gfx) (info : MemoryInfo) : Prop where
  nonzero : 0 < info.max.toNat
  small : info.value.toNat * 436 < 2 ^ 32
  corners : info.max.toNat ≤ 72 ∨ 2 ^ 32 - 4 < info.max.toNat ∨
    g.width.toNat ≤ 74 + max 1 (436 / info.max.toNat) ∨ g.height.toNat ≤ 267

theorem mem_countUp : px ∈ countUp i stop ↔ i.toNat ≤ px.toNat ∧ px.toNat < stop.toNat := by
  induction i using countUp.induct stop with
  | case1 i hlt ih =>
      rw [countUp, if_pos hlt, List.mem_cons, ih, toNat_succ_of_lt hlt, BitVec.toNat_inj.symm]
      rw [BitVec.lt_def] at hlt
      omega
  | case2 i hge =>
      rw [countUp, if_neg hge]
      rw [BitVec.lt_def] at hge
      refine iff_of_false List.not_mem_nil ?_
      omega

theorem mem_gfxFillRect (hq : q ∈ g.gfxFillRect x y w h color) :
    x.toNat ≤ q.x.toNat ∧ q.x.toNat < (x + w).toNat ∧ y.toNat ≤ q.y.toNat ∧
      q.y.toNat < (y + h).toNat := by
  obtain ⟨py, hpy, hrow⟩ := List.mem_flatMap.mp hq
  obtain ⟨px, hpx, rfl⟩ := List.mem_map.mp hrow
  obtain ⟨hylow, hyhigh⟩ := mem_countUp.mp ((List.takeWhile_subset _) hpy)
  obtain ⟨hxlow, hxhigh⟩ := mem_countUp.mp ((List.takeWhile_subset _) hpx)
  exact ⟨hxlow, hxhigh, hylow, hyhigh⟩

theorem mem_gfxPixel : q ∈ g.gfxPixel x y color ↔ (x < g.width ∧ y < g.height) ∧ q = ⟨x, y, color⟩ := by
  rw [Gfx.gfxPixel]
  split
  · rename_i hin
    rw [List.mem_singleton, and_iff_right hin]
  · rename_i hout
    exact iff_of_false List.not_mem_nil fun hq => hout hq.1

theorem clipped_gfxCorner (hq : q ∈ g.gfxCorner x y w h r color px py) :
    q.x < g.width ∧ q.y < g.height := by
  rw [Gfx.gfxCorner] at hq
  split at hq
  · simp only [List.mem_append, mem_gfxPixel] at hq
    obtain ((⟨hin, rfl⟩ | ⟨hin, rfl⟩) | ⟨hin, rfl⟩) | ⟨hin, rfl⟩ := hq
    all_goals exact hin
  · cases hq

theorem mem_gfxCorner (hq : q ∈ g.gfxCorner x y w h r color px py) :
    (q.x = x + px ∨ q.x = x + w - 1 - px) ∧ (q.y = y + py ∨ q.y = y + h - 1 - py) := by
  rw [Gfx.gfxCorner] at hq
  split at hq
  · simp only [List.mem_append, mem_gfxPixel] at hq
    obtain ((⟨-, rfl⟩ | ⟨-, rfl⟩) | ⟨-, rfl⟩) | ⟨-, rfl⟩ := hq
    · exact ⟨Or.inl rfl, Or.inl rfl⟩
    · exact ⟨Or.inr rfl, Or.inl rfl⟩
    · exact ⟨Or.inl rfl, Or.inr rfl⟩
    · exact ⟨Or.inr rfl, Or.inr rfl⟩
  · cases hq

/-- The three rectangles and the corners. -/
theorem mem_gfxRoundedRect (hq : q ∈ g.gfxRoundedRect x y w h r color) :
    q ∈ g.gfxFillRect (x + r) y (w - 2 * r) h color ∨
    q ∈ g.gfxFillRect x (y + r) r (h - 2 * r) color ∨
    q ∈ g.gfxFillRect (x + w - r) (y + r) r (h - 2 * r) color ∨
    ∃ px py, px.toNat < r.toNat ∧ py.toNat < r.toNat ∧ q ∈ g.gfxCorner x y w h r color px py := by
  rw [Gfx.gfxRoundedRect, List.mem_append, List.mem_append, List.mem_append, or_assoc, or_assoc] at hq
  refine hq.imp_right (Or.imp_right (Or.imp_right fun hcorner => ?_))
  obtain ⟨py, hpy, hrow⟩ := List.mem_flatMap.mp hcorner
  obtain ⟨px, hpx, hpixel⟩ := List.mem_flatMap.mp hrow
  exact ⟨px, py, (mem_countUp.mp hpx).2, (mem_countUp.mp hpy).2, hpixel⟩

theorem clipped_gfxFillRect (hq : q ∈ g.gfxFillRect x y w h color) :
    q.x < g.width ∧ q.y < g.height := by
  obtain ⟨py, hpy, hrow⟩ := List.mem_flatMap.mp hq
  obtain ⟨px, hpx, rfl⟩ := List.mem_map.mp hrow
  have hx := List.mem_takeWhile_imp hpx
  have hy := List.mem_takeWhile_imp hpy
  exact ⟨of_decide_eq_true hx, of_decide_eq_true hy⟩

theorem clipped_gfxRoundedRect (hq : q ∈ g.gfxRoundedRect x y w h r color) :
    q.x < g.width ∧ q.y < g.height := by
  obtain hfill | hfill | hfill | ⟨px, py, -, -, hcorner⟩ := mem_gfxRoundedRect hq
  · exact clipped_gfxFillRect hfill
  · exact clipped_gfxFillRect hfill
  · exact clipped_gfxFillRect hfill
  · exact clipped_gfxCorner hcorner

/-- A rounded rectangle of any width is painted from its left edge or its right corners on, whichever
comes first, to its right edge or its left corners. -/
theorem inBar_gfxRoundedRect (hleft : 80 ≤ x.toNat) (hright : x.toNat + w.toNat ≤ 520)
    (hcorner : 80 + r.toNat ≤ x.toNat + w.toNat) (hcorner' : x.toNat + r.toNat ≤ 520)
    (htop : 265 ≤ y.toNat) (hbottom : y.toNat + h.toNat ≤ 285) (hr : 2 * r.toNat ≤ h.toNat)
    (hq : q ∈ g.gfxRoundedRect x y w h r color) : q.InBar := by
  obtain hfill | hfill | hfill | ⟨px, py, hpx, hpy, hpixel⟩ := mem_gfxRoundedRect hq
  · obtain ⟨hx, hx', hy, hy'⟩ := mem_gfxFillRect hfill
    exact ⟨by bv_omega, by bv_omega, by bv_omega, by bv_omega⟩
  · obtain ⟨hx, hx', hy, hy'⟩ := mem_gfxFillRect hfill
    exact ⟨by bv_omega, by bv_omega, by bv_omega, by bv_omega⟩
  · obtain ⟨hx, hx', hy, hy'⟩ := mem_gfxFillRect hfill
    exact ⟨by bv_omega, by bv_omega, by bv_omega, by bv_omega⟩
  · obtain ⟨hx, hy⟩ := mem_gfxCorner hpixel
    exact ⟨by bv_omega, by bv_omega, by bv_omega, by bv_omega⟩

theorem inBar_background (hq : q ∈ g.gfxRoundedRect 80 265 440 20 10 color) : q.InBar :=
  inBar_gfxRoundedRect (by decide) (by decide) (by decide) (by decide) (by decide) (by decide)
    (by decide) hq

/-- The filled part has no body if it is narrower than its two corners, but its corners are always 8 pixels
wide. -/
theorem inBar_filled (hlow : 6 ≤ w.toNat) (hhigh : w.toNat ≤ 436)
    (hq : q ∈ g.gfxRoundedRect 82 267 w 16 8 color) : q.InBar := by
  have hright : (82 : BitVec 32).toNat + w.toNat ≤ 520 := show 82 + w.toNat ≤ 520 by omega
  have hcorner : 80 + (8 : BitVec 32).toNat ≤ (82 : BitVec 32).toNat + w.toNat :=
    show 88 ≤ 82 + w.toNat by omega
  exact inBar_gfxRoundedRect (by decide) hright hcorner (by decide) (by decide) (by decide)
    (by decide) hq

/-- Where the filled part is narrower, the screen ends before the pixels left of the bar. -/
theorem inBar_narrow (hlow : 1 ≤ w.toNat) (hhigh : w.toNat < 6)
    (hclip : g.width.toNat ≤ 74 + w.toNat ∨ g.height.toNat ≤ 267)
    (hq : q ∈ g.gfxRoundedRect 82 267 w 16 8 color) : q.InBar := by
  obtain ⟨hx, hy⟩ := clipped_gfxRoundedRect hq
  obtain hfill | hfill | hfill | ⟨px, py, hpx, hpy, hcorner⟩ := mem_gfxRoundedRect hq
  · obtain ⟨hx', hx'', -, -⟩ := mem_gfxFillRect hfill
    exact absurd hx'' (by bv_omega)
  · obtain ⟨-, -, hy', hy''⟩ := mem_gfxFillRect hfill
    exact absurd hy'' (by bv_omega)
  · obtain ⟨-, -, hy', hy''⟩ := mem_gfxFillRect hfill
    exact absurd hy'' (by bv_omega)
  · -- What is left of the corner, or below its first row, is all there is.
    obtain ⟨hx', hy'⟩ := mem_gfxCorner hcorner
    exfalso
    bv_omega

theorem corner_mem (hlow : 1 ≤ w.toNat) (hhigh : w.toNat < 6) (hwidth : 74 + w.toNat < g.width.toNat)
    (hheight : 267 < g.height.toNat) :
    (⟨74 + w, 267, color⟩ : Painted) ∈ g.gfxRoundedRect 82 267 w 16 8 color := by
  have hcorner : (⟨74 + w, 267, color⟩ : Painted) ∈ g.gfxCorner 82 267 w 16 8 color 7 0 := by
    have hcircle : ((8 : BitVec 32) - 7 - 1) * (8 - 7 - 1) + (8 - 0 - 1) * (8 - 0 - 1) ≤ 8 * 8 := by
      decide
    have hx : (82 : BitVec 32) + w - 1 - 7 = 74 + w := by bv_omega
    rw [Gfx.gfxCorner, if_pos hcircle, hx]
    simp only [List.mem_append, mem_gfxPixel]
    exact Or.inl (Or.inl (Or.inr ⟨⟨by bv_omega, by bv_omega⟩, rfl⟩))
  rw [Gfx.gfxRoundedRect, List.mem_append]
  refine Or.inr (List.mem_flatMap.mpr ⟨0, mem_countUp.mpr (by decide), ?_⟩)
  exact List.mem_flatMap.mpr ⟨7, mem_countUp.mpr (by decide), hcorner⟩

theorem barOf_eq_none_iff : g.barOf v m = none ↔ m.toNat = 0 := by
  have hzero : m.toNat = 0 ↔ m = 0 := by
    rw [BitVec.toNat_eq]
    rfl
  rw [hzero, Gfx.barOf, Gfx.gfxProgress]
  dsimp only
  split
  · rename_i hmax
    exact iff_of_true rfl hmax
  · rename_i hmax
    exact iff_of_false (Option.some_ne_none _) hmax

theorem barOf_eq_some (hmax : m.toNat ≠ 0) : g.barOf v m =
    some (g.gfxRoundedRect 80 265 440 20 10 (rgb 60 60 80) ++
      if Gfx.fillWidth 440 v m > 0 then
        g.gfxRoundedRect 82 267 (Gfx.fillWidth 440 v m) 16 8 colorAccent
      else []) := by
  rw [Gfx.barOf, Gfx.gfxProgress]
  exact if_neg fun hzero => hmax (congrArg BitVec.toNat hzero)

theorem toNat_fillWidth :
    (Gfx.fillWidth 440 v m).toNat = v.toNat * 436 % 2 ^ 32 / m.toNat := by
  rw [Gfx.fillWidth, BitVec.toNat_udiv, BitVec.toNat_mul]
  rfl

theorem fillWidth_le (hle : v ≤ m) : (Gfx.fillWidth 440 v m).toNat ≤ 436 := by
  rw [BitVec.le_def] at hle
  rw [toNat_fillWidth]
  calc
    v.toNat * 436 % 2 ^ 32 / m.toNat ≤ v.toNat * 436 / m.toNat :=
      Nat.div_le_div_right (Nat.mod_le _ _)
    _ ≤ 436 := Nat.div_le_of_le_mul (Nat.mul_le_mul_right 436 hle)

/-- A bar is left where its filled part has between 1 and 5 pixels and the screen shows them. -/
theorem inBar_barOf_iff (hle : v ≤ m) (hmax : 0 < m.toNat) :
    (∀ painted, g.barOf v m = some painted → ∀ q ∈ painted, q.InBar) ↔
      (Gfx.fillWidth 440 v m).toNat = 0 ∨ 6 ≤ (Gfx.fillWidth 440 v m).toNat ∨
        g.width.toNat ≤ 74 + (Gfx.fillWidth 440 v m).toNat ∨ g.height.toNat ≤ 267 := by
  have hhigh := fillWidth_le hle
  have hbar := barOf_eq_some (g := g) (v := v) hmax.ne'
  generalize Gfx.fillWidth 440 v m = fill at *
  constructor
  · intro hcontained
    by_contra hout
    rw [not_or, not_or, not_or] at hout
    obtain ⟨hnonempty, hnarrow, hwidth, hheight⟩ := hout
    have hpos : fill > 0 := Nat.pos_of_ne_zero hnonempty
    have hmem : (⟨74 + fill, 267, colorAccent⟩ : Painted) ∈
        g.gfxRoundedRect 82 267 fill 16 8 colorAccent :=
      corner_mem hpos (Nat.lt_of_not_le hnarrow) (Nat.lt_of_not_le hwidth) (Nat.lt_of_not_le hheight)
    have hin := hcontained _ hbar _ (List.mem_append_right _ (by rwa [if_pos hpos]))
    have hleft := hin.1
    dsimp only at hleft
    bv_omega
  · intro hfits painted hpainted q hq
    obtain rfl := Option.some.inj (hbar.symm.trans hpainted)
    obtain hback | hfront := List.mem_append.mp hq
    · exact inBar_background hback
    · split at hfront
      · rename_i hnonempty
        have hlow : 1 ≤ fill.toNat := hnonempty
        by_cases hwide : 6 ≤ fill.toNat
        · exact inBar_filled hwide hhigh hfront
        · exact inBar_narrow hlow (by omega) (by omega) hfront
      · cases hfront

/-- The least v that fills a pixel. Above 2^32 - 436 the product passes 2^32 before it passes the
maximum, and 630453915 * 436 is 4 less than a multiple of 2^32. -/
def leastFilling (m : BitVec 32) : BitVec 32 :=
  if m.toNat + 435 < 2 ^ 32 then BitVec.ofNat 32 ((m.toNat + 435) / 436) else 630453915

theorem leastFilling_le (hmax : 0 < m.toNat) : leastFilling m ≤ m := by
  rw [leastFilling, BitVec.le_def]
  split
  · rw [BitVec.toNat_ofNat]
    omega
  · change 630453915 ≤ m.toNat
    omega

theorem fillWidth_leastFilling (hmax : 0 < m.toNat) (hhigh : m.toNat ≤ 2 ^ 32 - 4) :
    (Gfx.fillWidth 440 (leastFilling m) m).toNat = max 1 (436 / m.toNat) := by
  rw [toNat_fillWidth, leastFilling]
  split
  · rename_i hsmall
    have hvalue : (BitVec.ofNat 32 ((m.toNat + 435) / 436)).toNat = (m.toNat + 435) / 436 := by
      rw [BitVec.toNat_ofNat]
      omega
    rw [hvalue, Nat.mod_eq_of_lt (by omega)]
    obtain hlarge | hfew := Nat.lt_or_ge 436 m.toNat
    · rw [Nat.div_eq_of_lt hlarge, Nat.max_zero]
      exact Nat.div_eq_of_lt_le (by omega) (by omega)
    · have hone : (m.toNat + 435) / 436 = 1 := by omega
      rw [hone, Nat.one_mul]
      exact (Nat.max_eq_right ((Nat.le_div_iff_mul_le hmax).mpr (by omega))).symm
  · rename_i hlarge
    have hone : 436 / m.toNat = 0 := Nat.div_eq_of_lt (by omega)
    rw [hone]
    change 4294967292 / m.toNat = 1
    exact Nat.div_eq_of_lt_le (by omega) (by omega)

/-- No v fills less than the least one, unless it fills nothing. -/
theorem le_fillWidth (hle : v ≤ m) (hfill : 0 < (Gfx.fillWidth 440 v m).toNat) :
    max 1 (436 / m.toNat) ≤ (Gfx.fillWidth 440 v m).toNat := by
  rw [BitVec.le_def] at hle
  refine Nat.max_le.mpr ⟨hfill, ?_⟩
  rw [toNat_fillWidth] at hfill ⊢
  obtain hlarge | hsmall := Nat.lt_or_ge 436 m.toNat
  · rw [Nat.div_eq_of_lt hlarge]
    exact Nat.zero_le _
  · rw [Nat.mod_eq_of_lt (by omega)] at hfill ⊢
    have hvalue : 0 < v.toNat := by
      by_contra hzero
      rw [Nat.eq_zero_of_not_pos hzero] at hfill
      simp at hfill
    exact Nat.div_le_div_right (Nat.le_mul_of_pos_left 436 hvalue)

theorem contained_iff (hmax : 0 < info.max.toNat) :
    (∀ v ≤ info.max, ∀ painted, g.barOf v info.max = some painted → ∀ q ∈ painted, q.InBar) ↔
      info.max.toNat ≤ 72 ∨ 2 ^ 32 - 4 < info.max.toNat ∨
        g.width.toNat ≤ 74 + max 1 (436 / info.max.toNat) ∨ g.height.toNat ≤ 267 := by
  constructor
  · intro hcontained
    by_contra hout
    rw [not_or, not_or] at hout
    obtain ⟨hlow, hhigh, hclip⟩ := hout
    have hfill := fillWidth_leastFilling hmax (Nat.le_of_not_lt hhigh)
    have hleast := (inBar_barOf_iff (leastFilling_le hmax) hmax).mp
      (hcontained _ (leastFilling_le hmax))
    rw [hfill] at hleast
    have hnarrow : 436 / info.max.toNat < 6 := Nat.div_lt_of_lt_mul (by omega)
    have hone : max 1 (436 / info.max.toNat) < 6 := Nat.max_lt.mpr ⟨by decide, hnarrow⟩
    have hpos : 1 ≤ max 1 (436 / info.max.toNat) := Nat.le_max_left _ _
    omega
  · intro hfits v hle
    refine (inBar_barOf_iff hle hmax).mpr ?_
    by_cases hempty : (Gfx.fillWidth 440 v info.max).toNat = 0
    · exact .inl hempty
    · have hleast := le_fillWidth hle (Nat.pos_of_ne_zero hempty)
      have hmax' := Nat.le_max_right 1 (436 / info.max.toNat)
      obtain hlow | hhigh | hclip := hfits
      · have hsix : 6 ≤ 436 / info.max.toNat := (Nat.le_div_iff_mul_le hmax).mpr (by omega)
        omega
      · refine absurd ?_ hempty
        rw [toNat_fillWidth]
        exact Nat.div_eq_of_lt (by omega)
      · omega

theorem wellDrawn_iff (g : Gfx) (info : MemoryInfo) : WellDrawn g info ↔ BarFits g info := by
  constructor
  · rintro ⟨hdefined, hnoWrap, -, hcontained⟩
    have hmax : 0 < info.max.toNat :=
      Nat.pos_of_ne_zero fun hzero =>
        hdefined ((memoryBar_eq_barOf g info).trans (barOf_eq_none_iff.mpr hzero))
    exact ⟨hmax, hnoWrap ▸ BitVec.isLt _, (contained_iff hmax).mp hcontained⟩
  · rintro ⟨hmax, hsmall, hcorners⟩
    refine ⟨fun hnone => ?_, Nat.mod_eq_of_lt hsmall, ?_, (contained_iff hmax).mpr hcorners⟩
    · rw [memoryBar_eq_barOf, barOf_eq_none_iff] at hnone
      exact hmax.ne' hnone
    · exact toNat_fillWidth.trans (by rw [Nat.mod_eq_of_lt hsmall])

/-- **The boot memory bar**, for the totals that any firmware leaves. -/
theorem memoryBar_wellDrawn_iff (fw : Firmware σ) (w : World σ) (g : Gfx) :
    (∀ info w', gatherMemoryInfo fw w .start = .done info w' → WellDrawn g info) ↔
      ∀ info w', gatherMemoryInfo fw w .start = .done info w' → BarFits g info :=
  forall_congr' fun info => forall_congr' fun _ => imp_congr_right fun _ => wellDrawn_iff g info

/-- A firmware that has no memory left for the map. -/
def outOfResources : Firmware Unit where
  getMemoryMap w _ _ := ⟨efiBufferTooSmall, 480, 1, 48, w⟩
  allocatePool w _ := (efiErrorMask + 9, 0, w)
  freePool w _ := w
  exitBootServices w _ := (0, w)

/-- Then the totals are 0, and the bar is a division by zero. -/
theorem not_wellDrawn_outOfResources :
    gatherMemoryInfo outOfResources ⟨(), .zero⟩ .start = .done .start ⟨(), .zero⟩ ∧
    Gfx.memoryBar ⟨1024, 768⟩ .start = none ∧
    ¬ ∀ info w', gatherMemoryInfo outOfResources ⟨(), .zero⟩ .start = .done info w' →
      WellDrawn ⟨1024, 768⟩ info := by
  have hnone : Gfx.memoryBar ⟨1024, 768⟩ .start = none := barOf_eq_none_iff.mpr rfl
  exact ⟨rfl, hnone, fun hdrawn => (hdrawn _ _ rfl).defined hnone⟩

end SimpleOs
