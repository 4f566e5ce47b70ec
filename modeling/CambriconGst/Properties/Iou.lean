import Mathlib.Algebra.Order.Field.Basic
import Mathlib.Tactic.Linarith
import CambriconGst.Easytrack.Match

/-!
# Intersection over union

`IoU` of `easytrack/match.cpp` for rectangles of any shape. A rectangle that is inverted on an axis
encloses nothing, also when it is inverted on both and the product of its sides is positive.

* `iou_eq_area`: it is the quotient of the areas that are enclosed by both and by either
* `iou_spec`: where it divides, and what it returns
-/

namespace CambriconGst.Easytrack

variable {K : Type} [Field K] [LinearOrder K]

namespace Rect

/-- What the rectangle encloses. -/
def area (r : Rect K) : K :=
  max 0 (r.xmax - r.xmin) * max 0 (r.ymax - r.ymin)

/-- The intersection, inverted where there is none. -/
def inter (a b : Rect K) : Rect K where
  xmin := max a.xmin b.xmin
  ymin := max a.ymin b.ymin
  xmax := min a.xmax b.xmax
  ymax := min a.ymax b.ymax

/-- `w` and `h` are positive: the division is reached. -/
def Meets (a b : Rect K) : Prop :=
  0 < (a.inter b).xmax - (a.inter b).xmin ∧ 0 < (a.inter b).ymax - (a.inter b).ymin

instance (a b : Rect K) : Decidable (a.Meets b) :=
  inferInstanceAs (Decidable (_ ∧ _))

end Rect

/-- What `IoU` divides by. -/
def iouDenominator (a b : Rect K) : K :=
  let w := min a.xmax b.xmax - max a.xmin b.xmin
  let h := min a.ymax b.ymax - max a.ymin b.ymin
  (a.xmax - a.xmin) * (a.ymax - a.ymin) + (b.xmax - b.xmin) * (b.ymax - b.ymin) - w * h

namespace Rect

variable [IsStrictOrderedRing K] {a b r : Rect K}

theorem area_nonneg (r : Rect K) : 0 ≤ r.area :=
  mul_nonneg (le_max_left _ _) (le_max_left _ _)

theorem area_pos_iff : 0 < r.area ↔ 0 < r.xmax - r.xmin ∧ 0 < r.ymax - r.ymin := by
  have hx : (0 : K) ≤ max 0 (r.xmax - r.xmin) := le_max_left _ _
  have hy : (0 : K) ≤ max 0 (r.ymax - r.ymin) := le_max_left _ _
  constructor
  · intro h
    have hx' : 0 < max 0 (r.xmax - r.xmin) := pos_of_mul_pos_left h hy
    have hy' : 0 < max 0 (r.ymax - r.ymin) := pos_of_mul_pos_right h hx
    exact ⟨(lt_max_iff.mp hx').resolve_left (lt_irrefl 0),
      (lt_max_iff.mp hy').resolve_left (lt_irrefl 0)⟩
  · rintro ⟨hx', hy'⟩
    exact mul_pos (lt_max_of_lt_right hx') (lt_max_of_lt_right hy')

theorem area_eq (h : 0 < r.area) : r.area = (r.xmax - r.xmin) * (r.ymax - r.ymin) := by
  obtain ⟨hx, hy⟩ := area_pos_iff.mp h
  rw [area, max_eq_right hx.le, max_eq_right hy.le]

omit [Field K] [IsStrictOrderedRing K] in
theorem inter_comm (a b : Rect K) : a.inter b = b.inter a := by
  simp only [inter, max_comm, min_comm]

theorem inter_area_le (a b : Rect K) : (a.inter b).area ≤ a.area := by
  have hx : (a.inter b).xmax - (a.inter b).xmin ≤ a.xmax - a.xmin :=
    sub_le_sub (min_le_left _ _) (le_max_left _ _)
  have hy : (a.inter b).ymax - (a.inter b).ymin ≤ a.ymax - a.ymin :=
    sub_le_sub (min_le_left _ _) (le_max_left _ _)
  exact mul_le_mul (max_le_max_left 0 hx) (max_le_max_left 0 hy) (le_max_left _ _)
    (le_max_left _ _)

theorem meets_iff : a.Meets b ↔ 0 < (a.inter b).area :=
  area_pos_iff.symm

theorem Meets.area_left (h : a.Meets b) : 0 < a.area :=
  (meets_iff.mp h).trans_le (inter_area_le a b)

theorem Meets.area_right (h : a.Meets b) : 0 < b.area := by
  have hpos := meets_iff.mp h
  rw [inter_comm] at hpos
  exact hpos.trans_le (inter_area_le b a)

/-- A rectangle lies in one that it has its whole area in common with. -/
theorem inter_eq_of_area (h : 0 < a.area) (ha : (a.inter b).area = a.area) : a.inter b = a := by
  have hpos : 0 < (a.inter b).area := ha ▸ h
  obtain ⟨hw, hh⟩ := area_pos_iff.mp hpos
  obtain ⟨hwa, hha⟩ := area_pos_iff.mp h
  rw [area_eq hpos, area_eq h] at ha
  have hxmin : a.xmin ≤ (a.inter b).xmin := le_max_left _ _
  have hymin : a.ymin ≤ (a.inter b).ymin := le_max_left _ _
  have hxmax : (a.inter b).xmax ≤ a.xmax := min_le_left _ _
  have hymax : (a.inter b).ymax ≤ a.ymax := min_le_left _ _
  -- a side that is shorter would make the area smaller
  have hwidth : (a.inter b).xmax - (a.inter b).xmin = a.xmax - a.xmin := by
    refine le_antisymm (sub_le_sub hxmax hxmin) (not_lt.mp fun hlt => ha.not_lt ?_)
    exact mul_lt_mul hlt (sub_le_sub hymax hymin) hh hwa.le
  have hheight : (a.inter b).ymax - (a.inter b).ymin = a.ymax - a.ymin := by
    rw [hwidth] at ha
    exact mul_left_cancel₀ hwa.ne' ha
  have hx : (a.inter b).xmin = a.xmin := by linarith
  have hy : (a.inter b).ymin = a.ymin := by linarith
  have hx' : (a.inter b).xmax = a.xmax := by linarith
  have hy' : (a.inter b).ymax = a.ymax := by linarith
  cases a
  cases hi : Rect.inter _ b
  simp_all

end Rect

variable {a b : Rect K}

theorem iou_of_not_meets (h : ¬a.Meets b) : iou a b = 0 := by
  refine if_pos ?_
  rwa [← not_lt, ← not_lt, ← not_and_or]

/-- The division of `IoU`. -/
theorem iou_of_meets (h : a.Meets b) :
    iou a b = ((a.inter b).xmax - (a.inter b).xmin) * ((a.inter b).ymax - (a.inter b).ymin) /
      iouDenominator a b :=
  if_neg (not_or.mpr ⟨not_le.mpr h.1, not_le.mpr h.2⟩)

variable [IsStrictOrderedRing K]

theorem iouDenominator_eq (h : a.Meets b) :
    iouDenominator a b = a.area + b.area - (a.inter b).area := by
  rw [Rect.area_eq h.area_left, Rect.area_eq h.area_right, Rect.area_eq (Rect.meets_iff.mp h)]
  rfl

theorem iouDenominator_pos (h : a.Meets b) : 0 < iouDenominator a b := by
  have hle := Rect.inter_area_le a b
  have hpos := h.area_right
  rw [iouDenominator_eq h]
  linarith

/-- **`IoU` divides what both rectangles enclose by what either does.** -/
theorem iou_eq_area (a b : Rect K) :
    iou a b = (a.inter b).area / (a.area + b.area - (a.inter b).area) := by
  by_cases h : a.Meets b
  · rw [iou_of_meets h, iouDenominator_eq h, ← Rect.area_eq (Rect.meets_iff.mp h)]
  · have hzero : (a.inter b).area = 0 :=
      le_antisymm (not_lt.mp fun hpos => h (Rect.meets_iff.mpr hpos)) (Rect.area_nonneg _)
    rw [iou_of_not_meets h, hzero, zero_div]

theorem iou_comm (a b : Rect K) : iou a b = iou b a := by
  rw [iou_eq_area, iou_eq_area, Rect.inter_comm, add_comm]

theorem union_area_nonneg (a b : Rect K) : 0 ≤ a.area + b.area - (a.inter b).area := by
  have hle := Rect.inter_area_le a b
  have hb := Rect.area_nonneg b
  linarith

theorem iou_nonneg (a b : Rect K) : 0 ≤ iou a b := by
  rw [iou_eq_area]
  exact div_nonneg (Rect.area_nonneg _) (union_area_nonneg a b)

theorem iou_le_one (a b : Rect K) : iou a b ≤ 1 := by
  have ha := Rect.inter_area_le a b
  have hb := Rect.inter_area_le b a
  rw [Rect.inter_comm] at hb
  rw [iou_eq_area]
  exact div_le_one_of_le₀ (by linarith) (union_area_nonneg a b)

theorem iou_eq_one_iff : iou a b = 1 ↔ a = b ∧ 0 < a.area := by
  constructor
  · intro h
    have hmeets : a.Meets b := by
      by_contra hnot
      rw [iou_of_not_meets hnot] at h
      exact zero_ne_one h
    have ha := Rect.inter_area_le a b
    have hb := Rect.inter_area_le b a
    have hden := iouDenominator_pos hmeets
    rw [Rect.inter_comm] at hb
    rw [iou_eq_area, ← iouDenominator_eq hmeets, div_eq_one_iff_eq hden.ne',
      iouDenominator_eq hmeets] at h
    have hleft : a.inter b = a := Rect.inter_eq_of_area hmeets.area_left (by linarith)
    have hright : b.inter a = b :=
      Rect.inter_eq_of_area hmeets.area_right (by rw [Rect.inter_comm]; linarith)
    exact ⟨by rw [← hleft, Rect.inter_comm, hright], hmeets.area_left⟩
  · rintro ⟨rfl, hpos⟩
    have hself : a.inter a = a := by simp [Rect.inter]
    rw [iou_eq_area, hself, add_sub_cancel_right, div_self hpos.ne']

theorem iouCost_mem (detRects traRects : List (Rect K)) (i : Fin detRects.length)
    (j : Fin traRects.length) :
    0 ≤ (iouCost detRects traRects).entry i j ∧ (iouCost detRects traRects).entry i j ≤ 1 :=
  ⟨sub_nonneg.mpr (iou_le_one _ _), sub_le_self 1 (iou_nonneg _ _)⟩

/--
**IoU.**

The denominator is positive where the division is reached. What is returned lies between 0 and 1,
whatever the order of the rectangles, and is 1 for equal rectangles that enclose an area only.
-/
theorem iou_spec (a b : Rect K) :
    (iou a b = if a.Meets b then
      ((a.inter b).xmax - (a.inter b).xmin) * ((a.inter b).ymax - (a.inter b).ymin) /
        iouDenominator a b else 0) ∧
    (a.Meets b → 0 < iouDenominator a b) ∧
    (0 ≤ iou a b ∧ iou a b ≤ 1) ∧ iou a b = iou b a ∧ (iou a b = 1 ↔ a = b ∧ 0 < a.area) ∧
    ∀ (detRects traRects : List (Rect K)) i j,
      0 ≤ (iouCost detRects traRects).entry i j ∧ (iouCost detRects traRects).entry i j ≤ 1 := by
  refine ⟨?_, iouDenominator_pos, ⟨iou_nonneg a b, iou_le_one a b⟩, iou_comm a b, iou_eq_one_iff,
    iouCost_mem⟩
  split
  · next h => exact iou_of_meets h
  · next h => exact iou_of_not_meets h

/-- A square and the square of its quarter. -/
theorem iou_spec_quarter :
    iou (⟨0, 0, 2, 2⟩ : Rect ℚ) ⟨1, 1, 2, 2⟩ = 1 / 4 ∧
      0 < iouDenominator (⟨0, 0, 2, 2⟩ : Rect ℚ) ⟨1, 1, 2, 2⟩ ∧
      0 ≤ iou (⟨0, 0, 2, 2⟩ : Rect ℚ) ⟨1, 1, 2, 2⟩ := by
  have h := iou_spec (⟨0, 0, 2, 2⟩ : Rect ℚ) ⟨1, 1, 2, 2⟩
  exact ⟨by decide +kernel, h.2.1 (by decide +kernel), h.2.2.1.1⟩

end CambriconGst.Easytrack
