import CambriconGst.Easybang.ResizeRounded
import CambriconGst.Properties.ResizeTables

/-!
# Widths and positions in floating point

* `mult_eq`: no rounding changes `mult`, in the range of the type `int`
* `srcWIterInt_mono`: the columns are in the order of the pixels
* `columns_inside`: nothing is written outside of the tables
* `dstIdxWEnd_mono`: the ends of the iterations are in order
-/

namespace CambriconGst.Easybang.Rounded

open Lib

variable {k : TableKey} {w dstRoiW n : Nat} {q : ℚ}

/-! ## The types -/

theorem float_mono : Monotone float :=
  SignedRounding.single.mono

theorem double_mono : Monotone double :=
  SignedRounding.double.mono

theorem float_nonneg (hq : 0 ≤ q) : 0 ≤ float q :=
  SignedRounding.single.nonneg hq

theorem double_eq (hq : 0 ≤ q) : double q = roundTo 53 q :=
  SignedRounding.nearest_of_nonneg hq

theorem double_of_hasDigits (hq : 0 ≤ q) (h : HasDigits 53 q) : double q = q :=
  (double_eq hq).trans h.roundTo_eq

/-- Halves of integers are not rounded. -/
theorem double_half (hn : n < 2 ^ 53) : double (n / 2) = n / 2 :=
  double_of_hasDigits (by positivity) ⟨n, -1, hn, by rw [zpow_neg_one, div_eq_mul_inv]⟩

/-- What is lost is less than one part in `2 ^ 52`. -/
theorem sub_le_double (hq : 0 < q) : q - q / 2 ^ 52 ≤ double q := by
  have hle := sub_le_roundTo 53 hq
  rw [double_eq hq.le]
  have hpow : (2 : ℚ) ^ 53 = 2 ^ 52 * 2 := pow_succ 2 52
  rw [hpow] at hle
  have hdiv : q / 2 ^ 52 * 2 ^ 52 = q := div_mul_cancel₀ q (by positivity)
  nlinarith

theorem float_le (hq : 0 ≤ q) : float q ≤ 2 * q := by
  have hle := le_abs_self (roundTo 24 q - q)
  have habs := abs_roundTo_sub_le 24 hq
  have hfloat : float q = roundTo 24 q := SignedRounding.nearest_of_nonneg hq
  rw [hfloat]
  nlinarith

/-! ## `mult` -/

theorem mult_pos (hw : 0 < w) (dstRoiW : Nat) : 0 < mult w dstRoiW := by
  unfold mult
  split_ifs with h
  · have hpos : (0 : ℚ) < w := Nat.cast_pos.mpr hw
    have hlt : (w : ℚ) < dstRoiW := Nat.cast_lt.mpr h
    have hone : double 1 = 1 := by simpa using double_half (n := 2) (by norm_num)
    have hthree : double (3 / 2) = 3 / 2 := by simpa using double_half (n := 3) (by norm_num)
    have hproduct := sub_le_double (q := 3 / 2 * dstRoiW) (by linarith)
    have hquotient : 1 ≤ double (double (3 / 2 * dstRoiW) / w) := by
      rw [← hone]
      refine double_mono ((one_le_div hpos).mpr ?_)
      linarith
    have hsum : double (3 / 2) ≤ double (double (double (3 / 2 * dstRoiW) / w) + 1 / 2) :=
      double_mono (by linarith)
    rw [hthree] at hsum
    have hceil := Int.ceil_mono hsum
    have htwo : ⌈(3 / 2 : ℚ)⌉ = 2 := by norm_num
    omega
  · exact Nat.one_pos

/-- The number that is rounded up lies between the same integers. -/
theorem ceil_double (hw : 0 < w) (hw' : w < 2 ^ 31) (hlt : w < dstRoiW) (hd : dstRoiW < 2 ^ 31) :
    ⌈double (double (double (3 / 2 * dstRoiW) / w) + 1 / 2)⌉
      = ⌈3 / 2 * (dstRoiW : ℚ) / w + 1 / 2⌉ := by
  have hpos : (0 : ℚ) < w := Nat.cast_pos.mpr hw
  have hlt' : (w : ℚ) < dstRoiW := Nat.cast_lt.mpr hlt
  have hd' : (dstRoiW : ℚ) ≤ 2 ^ 31 := by exact_mod_cast hd.le
  have hproduct : double (3 / 2 * dstRoiW) = 3 / 2 * dstRoiW := by
    have hhalf := double_half (n := 3 * dstRoiW) (by omega)
    push_cast at hhalf
    rwa [mul_div_right_comm] at hhalf
  rw [hproduct]
  set q : ℚ := 3 / 2 * dstRoiW / w with hq
  have hqpos : 1 < q := by
    rw [hq, one_lt_div hpos]
    linarith
  -- the integer, and how far the number is from the one before
  obtain ⟨n, hn⟩ : ∃ n : ℕ, ⌈q + 1 / 2⌉ = n :=
    Int.eq_ofNat_of_zero_le (Int.ceil_nonneg (by linarith))
  obtain ⟨hlow, hhigh⟩ := Int.ceil_eq_iff.mp hn
  rw [Int.cast_natCast] at hlow hhigh
  have hgap : (n : ℚ) - 1 + 1 / (2 * w) ≤ q + 1 / 2 := by
    have hsum : q + 1 / 2 = (3 * dstRoiW + w) / (2 * w) := by
      rw [hq]
      field_simp
    have htwo : (0 : ℚ) < 2 * w := by linarith
    rw [hsum, lt_div_iff₀ htwo] at hlow
    have hnext : ((n : ℤ) - 1) * (2 * w) + 1 ≤ 3 * dstRoiW + w := by exact_mod_cast hlow
    have hnext' : ((n : ℚ) - 1) * (2 * w) + 1 ≤ 3 * dstRoiW + w := by exact_mod_cast hnext
    rw [hsum, le_div_iff₀ htwo, add_mul, one_div_mul_cancel htwo.ne']
    exact hnext'
  obtain ⟨e, he⟩ : ∃ e : ℚ, e = 1 / (2 * w) := ⟨_, rfl⟩
  have hepos : 0 < e := he ▸ by positivity
  have hone : 1 ≤ 2 ^ 32 * e := by
    have hle : (w : ℚ) ≤ 2 ^ 31 := by exact_mod_cast hw'.le
    rw [he, ← mul_div_assoc, le_div_iff₀ (by linarith)]
    linarith
  have hqle : q ≤ 3 * 2 ^ 31 * e := by
    rw [hq, he, ← mul_div_assoc, div_le_div_iff₀ hpos (by linarith)]
    nlinarith
  rw [← he] at hgap
  -- neither rounding takes more than a quarter of the gap
  have hround := sub_le_double (q := q) (by linarith)
  have hround' := sub_le_double (q := double q + 1 / 2) (by linarith)
  have hn1 : 1 ≤ n := by
    have hcast : (1 : ℚ) < n := by linarith
    exact_mod_cast hcast.le
  have hnlt : n < 2 ^ 34 := by
    have hcast : (n : ℚ) < 2 ^ 34 := by nlinarith
    exact_mod_cast hcast
  have hup : double q + 1 / 2 ≤ n := by
    have hhalf := double_half (n := 2 * n - 1) (by omega)
    push_cast [Nat.cast_sub (show 1 ≤ 2 * n by omega)] at hhalf
    have hle : double q ≤ double ((2 * n - 1) / 2) := double_mono (by linarith)
    linarith
  have hint : double n = n := by
    have hhalf := double_half (n := 2 * n) (by omega)
    rwa [Nat.cast_mul, Nat.cast_two, mul_div_cancel_left₀ _ two_ne_zero] at hhalf
  rw [hn, Int.ceil_eq_iff, Int.cast_natCast]
  constructor
  · linarith
  · rw [← hint]
    exact double_mono hup

theorem mult_eq (hw : 0 < w) (hw' : w < 2 ^ 31) (hd : dstRoiW < 2 ^ 31) :
    mult w dstRoiW = Easybang.mult w dstRoiW := by
  unfold mult Easybang.mult
  split_ifs with hlt
  · rw [ceil_double hw hw' hlt hd]
  · rfl

/-! ## Positions -/

/-- The position is clamped to the columns. -/
theorem srcWIter_eq (hw : 0 < k.w) (d : Nat) : srcWIter k d
    = min (max (float (float (float d * curScaleW k) + srcWIterBase k)) 0) (float (k.w - 1)) := by
  have hlast : 0 ≤ float (k.w - 1) := float_nonneg (sub_nonneg.mpr (Nat.one_le_cast.mpr hw))
  unfold srcWIter
  dsimp only
  split_ifs with hneg hlt hlt
  · exact absurd hlt (not_lt.mpr hlast)
  · rw [max_eq_right hneg.le, min_eq_left hlast]
  · rw [max_eq_left (not_lt.mp hneg), min_eq_right (le_of_lt hlt)]
  · rw [max_eq_left (not_lt.mp hneg), min_eq_left (not_lt.mp hlt)]

theorem curScaleW_nonneg (k : TableKey) : 0 ≤ curScaleW k :=
  float_nonneg (div_nonneg (float_nonneg (Nat.cast_nonneg _)) (float_nonneg (Nat.cast_nonneg _)))

theorem srcWIter_mono (hw : 0 < k.w) : Monotone (srcWIter k) := by
  intro d d' hle
  have hscale := curScaleW_nonneg k
  rw [srcWIter_eq hw, srcWIter_eq hw]
  refine min_le_min_right _ (max_le_max_right _ (float_mono ?_))
  refine add_le_add_left (float_mono ?_) _
  exact mul_le_mul_of_nonneg_right (float_mono (Nat.cast_le.mpr hle)) hscale

theorem srcWIterInt_mono (hw : 0 < k.w) : Monotone (srcWIterInt k) :=
  fun _ _ hle => Int.toNat_le_toNat (Int.floor_mono (srcWIter_mono hw hle))

/-- The last column may be rounded, but not by much. -/
theorem srcWIterInt_le (hw : 0 < k.w) (d : Nat) : srcWIterInt k d ≤ 2 * (k.w - 1) := by
  have hlast : (0 : ℚ) ≤ k.w - 1 := sub_nonneg.mpr (Nat.one_le_cast.mpr hw)
  have hle : srcWIter k d ≤ 2 * (k.w - 1) := by
    rw [srcWIter_eq hw]
    exact (min_le_right _ _).trans (float_le hlast)
  have hcast : ((2 * (k.w - 1) : ℕ) : ℤ) = ⌊(2 * (k.w - 1) : ℚ)⌋ := by
    rw [← Int.floor_natCast (R := ℚ)]
    congr 1
    push_cast [Nat.cast_sub (Nat.one_le_iff_ne_zero.mpr hw.ne')]
    rfl
  have hfloor := Int.floor_mono hle
  rw [← hcast] at hfloor
  unfold srcWIterInt
  omega

theorem columns_inside (hw : 0 < k.w) : (columns k).Inside := by
  intro d hd
  obtain ⟨r, hr, -, hindex⟩ := (columns k).maskLeftIndex_spec d
  have hcol : (columns k).srcWIterInt d ≤ 2 * (k.w - 1) := srcWIterInt_le hw d
  have heven : (columns k).w + (columns k).parity ≤ (columns k).evenW := k.w_le_evenW
  have hwidth : (columns k).w = k.w := rfl
  have hmul : ((columns k).srcWIterInt d + (columns k).parity) * (columns k).mult
      ≤ 2 * (columns k).evenW * (columns k).mult := Nat.mul_le_mul_right _ (by omega)
  have hswap : 2 * (columns k).evenW * (columns k).mult
      = 2 * ((columns k).mult * (columns k).evenW) := by ring
  have hmask : (columns k).maskBytes = (columns k).mult * (columns k).evenW * 4 * 2 := rfl
  have hweight : (columns k).weightBytes = (columns k).dstRoiW * 4 * 2 := rfl
  unfold Columns.bytes
  rw [hindex, hmask, hweight]
  omega

/-! ## Ends -/

theorem dstSrcScaleW_nonneg (dev : Device) (p : Width) : 0 ≤ dstSrcScaleW dev p :=
  dev.float.nonneg
    (div_nonneg (dev.float.nonneg (Nat.cast_nonneg _)) (dev.float.nonneg (Nat.cast_nonneg _)))

theorem dstPosW_mono (dev : Device) (p : Width) : Monotone (dstPosW dev p) := by
  intro b b' hle
  have hscale := dstSrcScaleW_nonneg dev p
  refine dev.float.mono (add_le_add_left (dev.float.mono ?_) _)
  exact mul_le_mul_of_nonneg_right (dev.float.mono (Nat.cast_le.mpr hle)) hscale

theorem dstIdxWEnd_mono (dev : Device) (p : Width) : Monotone (dstIdxWEnd dev p) :=
  fun _ _ hle => min_le_min_right _ (Int.toNat_le_toNat (Int.ceil_mono (dstPosW_mono dev p hle)))

end CambriconGst.Easybang.Rounded
