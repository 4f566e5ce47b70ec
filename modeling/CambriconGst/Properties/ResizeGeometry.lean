import CambriconGst.Easybang.ResizeGeometry
import Mathlib.Tactic.Linarith
import Mathlib.Tactic.Positivity

/-!
# The width of the destination region

The host rounds to the nearest, the kernel rounds down.

* `dstRoiW_eq_iff`: when both have the same width
* `one_pixel_wider`: a region for which they differ
-/

namespace CambriconGst.Easybang

variable {dst : Dst} {roi : Roi}

theorem dst_row_mul_aspectRatio (dst : Dst) (roi : Roi) :
    dst.row * roi.aspectRatio = ((dst.row * roi.w : ℕ) : ℚ) / (roi.h : ℕ) := by
  unfold Roi.aspectRatio
  push_cast
  ring

theorem float2intRd_div (a b : Nat) : (float2intRd ((a : ℚ) / b)).toNat = a / b := by
  unfold float2intRd
  rw [Rat.floor_natCast_div_natCast]
  exact Int.toNat_natCast _

theorem stdRound_div (a : Nat) {b : Nat} (hb : 0 < b) :
    (stdRound ((a : ℚ) / b)).toNat = (2 * a + b) / (2 * b) := by
  have hhalf : (a : ℚ) / b + 1 / 2 = ((2 * a + b : ℕ) : ℚ) / (2 * b : ℕ) := by
    have hne : (b : ℚ) ≠ 0 := by positivity
    push_cast
    field_simp
  rw [stdRound, if_pos (by positivity), hhalf, Rat.floor_natCast_div_natCast]
  exact Int.toNat_natCast _

/-- Rounding to the nearest is rounding down, or one more. -/
theorem two_mul_add_div (a : Nat) {b : Nat} (hb : 0 < b) :
    (2 * a + b) / (2 * b) = a / b + if b ≤ 2 * (a % b) then 1 else 0 := by
  have hmod := Nat.mod_lt a hb
  have hsplit : 2 * a + b = 2 * b * (a / b) + (2 * (a % b) + b) := by
    have hdiv := Nat.div_add_mod a b
    rw [Nat.mul_assoc]
    omega
  rw [hsplit, Nat.mul_add_div (Nat.mul_pos Nat.two_pos hb)]
  refine congrArg (a / b + ·) ?_
  split
  · exact Nat.div_eq_of_lt_le (by omega) (by omega)
  · exact Nat.div_eq_of_lt (by omega)

theorem aspectRatio_lt_iff : roi.aspectRatio < dst.aspectRatio ↔ roi.w * dst.row < dst.col * roi.h := by
  have hh : (0 : ℚ) < roi.h := Nat.cast_pos.mpr roi.h_pos
  have hr : (0 : ℚ) < dst.row := Nat.cast_pos.mpr dst.row_pos
  unfold Roi.aspectRatio Dst.aspectRatio
  rw [div_lt_div_iff₀ hh hr]
  exact_mod_cast Iff.rfl

/-- The region is narrower than the destination, and has its width computed. -/
theorem dstRoiW_of_lt (hlt : roi.aspectRatio < dst.aspectRatio) :
    dstRoiW true dst roi = (2 * (dst.row * roi.w) + roi.h) / (2 * roi.h) := by
  rw [dstRoiW, if_pos ⟨rfl, hlt.ne, hlt.le⟩, dst_row_mul_aspectRatio]
  exact stdRound_div _ roi.h_pos

theorem dstRoiW_of_not_lt (keep : Bool) (hn : ¬(keep = true ∧ roi.aspectRatio < dst.aspectRatio)) :
    dstRoiW keep dst roi = dst.col := by
  refine if_neg fun ⟨hk, hne, hle⟩ => hn ⟨hk, lt_of_le_of_ne hle hne⟩

theorem kernelDstRoi_w_of_lt (padMethod : Int) (hlt : roi.aspectRatio < dst.aspectRatio) :
    (kernelDstRoi true padMethod dst roi).w = dst.row * roi.w / roi.h := by
  rw [kernelDstRoi, if_pos ⟨rfl, hlt.ne⟩, if_neg (not_le.mpr hlt), dst_row_mul_aspectRatio]
  exact float2intRd_div _ _

theorem kernelDstRoi_w_of_not_lt (keep : Bool) (padMethod : Int)
    (hn : ¬(keep = true ∧ roi.aspectRatio < dst.aspectRatio)) :
    (kernelDstRoi keep padMethod dst roi).w = dst.col := by
  unfold kernelDstRoi
  by_cases hk : keep = true ∧ roi.aspectRatio ≠ dst.aspectRatio
  · by_cases hge : roi.aspectRatio ≥ dst.aspectRatio
    · rw [if_pos hk, if_pos hge]
    · exact absurd ⟨hk.1, not_le.mp hge⟩ hn
  · rw [if_neg hk]

/--
**The kernel takes the region for as wide as the host does exactly when its width is not rounded up:
it is as wide as the destination, or what is rounded away is less than a half.**
-/
theorem dstRoiW_eq_iff (keep : Bool) (padMethod : Int) (dst : Dst) (roi : Roi) :
    dstRoiW keep dst roi = (kernelDstRoi keep padMethod dst roi).w ↔
      (keep = true → roi.w * dst.row < dst.col * roi.h →
        2 * (dst.row * roi.w % roi.h) < roi.h) := by
  by_cases h : keep = true ∧ roi.aspectRatio < dst.aspectRatio
  · obtain ⟨rfl, hlt⟩ := h
    rw [dstRoiW_of_lt hlt, kernelDstRoi_w_of_lt padMethod hlt, two_mul_add_div _ roi.h_pos]
    have hlt := aspectRatio_lt_iff.mp hlt
    split <;> simp [hlt] <;> omega
  · rw [dstRoiW_of_not_lt keep h, kernelDstRoi_w_of_not_lt keep padMethod h]
    exact iff_of_true rfl fun hk hlt => absurd ⟨hk, aspectRatio_lt_iff.mpr hlt⟩ h

/-- Three rows of a region with two columns, on one row of a wide destination. -/
theorem one_pixel_wider :
    dstRoiW true ⟨1, 8, by decide, by decide⟩ ⟨0, 0, 2, 3, by decide, by decide⟩ = 1 ∧
      (kernelDstRoi true 0 ⟨1, 8, by decide, by decide⟩ ⟨0, 0, 2, 3, by decide, by decide⟩).w = 0 := by
  constructor
  · rw [dstRoiW_of_lt (aspectRatio_lt_iff.mpr (by decide))]
    rfl
  · rw [kernelDstRoi_w_of_lt 0 (aspectRatio_lt_iff.mpr (by decide))]
    rfl

end CambriconGst.Easybang
