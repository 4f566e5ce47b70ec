import Mathlib.Algebra.Order.Floor.Semifield
import CambriconGst.Lib.Interpolation
import CambriconGst.Properties.ResizeYuv420spBatch

/-!
# The kernel of resize and the bilinear interpolation

* `Kernel.Weighs`: weights that stand for the place between two samples, up to an error
* `Kernel.luma_near`, `Kernel.chromaAt_near`: how far the values of a row are from the interpolation
* `Kernel.value_near`: how far those are that the bytes are taken from
* `Kernel.interpolation_stored`: what is stored, in whatever order the cores go on
-/

namespace CambriconGst.Easybang.ResizeYuv420sp.Kernel

open Lib Lib.Barrier

variable {k : Kernel} {b r x : Nat}

/-! ## Positions -/

/-- A fixed point position, in the 15 digits that are looked at. -/
def toPos (p : Int) : ℚ :=
  (p / 2 : Int) / 32768

/-- The fraction of it. -/
def toFraction (p : Int) : ℚ :=
  (p % 65536 / 2 : Int) / 32768

theorem toPos_eq (p : Int) : toPos p = (p / 65536 : Int) + toFraction p := by
  have hsplit : p / 2 = p / 65536 * 32768 + p % 65536 / 2 := by omega
  unfold toPos toFraction
  rw [hsplit]
  push_cast
  ring

theorem toFraction_nonneg (p : Int) : 0 ≤ toFraction p := by
  have hnonneg : 0 ≤ p % 65536 / 2 := by omega
  exact div_nonneg (by exact_mod_cast hnonneg) (by norm_num)

theorem toFraction_lt (p : Int) : toFraction p < 1 := by
  have hlt : p % 65536 / 2 < 32768 := by omega
  rw [toFraction, div_lt_one (by norm_num)]
  exact_mod_cast hlt

theorem whole_cast {p : Int} (hp : 0 ≤ p) : ((p / 65536).toNat : ℚ) = (p / 65536 : Int) := by
  have hcast : ((p / 65536).toNat : Int) = p / 65536 := Int.toNat_of_nonneg (by omega)
  exact_mod_cast hcast

theorem toPos_nonneg {p : Int} (hp : 0 ≤ p) : 0 ≤ toPos p := by
  have hhalf : 0 ≤ p / 2 := by omega
  exact div_nonneg (by exact_mod_cast hhalf) (by norm_num)

theorem floor_toPos {p : Int} (hp : 0 ≤ p) : ⌊toPos p⌋₊ = (p / 65536).toNat := by
  have hnonneg := toFraction_nonneg p
  have hlt := toFraction_lt p
  have heq := toPos_eq p
  rw [Nat.floor_eq_iff (toPos_nonneg hp), whole_cast hp]
  constructor <;> linarith

/-- The interpolation between two samples. -/
theorem lerp_toPos {n : Nat} {p : Int} (f : Nat → ℚ) (hn : 0 < n) (hp : 0 ≤ p)
    (hp' : p ≤ (n - 1) * 65536) :
    lerp n f (toPos p) = f (p / 65536).toNat * (1 - toFraction p) +
      f (min ((p / 65536).toNat + 1) (n - 1)) * toFraction p := by
  have hfract : toPos p - (p / 65536).toNat = toFraction p := by
    rw [toPos_eq, whole_cast hp, add_sub_cancel_left]
  have hle : toPos p ≤ (n - 1 : Nat) := by
    have hhalf : p / 2 ≤ (n - 1 : Nat) * 32768 := by omega
    rw [toPos, div_le_iff₀ (by norm_num)]
    exact_mod_cast hhalf
  rw [lerp_of_mem hn (toPos_nonneg hp) hle, floor_toPos hp, hfract]

/-! ## Weights -/

/-- Weights that stand for the place `t` between two samples. -/
structure Weighs (w0 w1 t : ℚ) : Prop where
  nonneg : 0 ≤ t
  le_one : t ≤ 1
  left : Near (3 / 1000) w0 (1 - t)
  right : Near (4 / 1000) w1 t

theorem weighs_of_near {f t : ℚ} (h : Near (2 / 1000) f t) (ht : 0 ≤ t) (ht' : t ≤ 1) :
    Weighs (k.weight0 f) (k.weight1 f) t := by
  have hrest : |1 - t| ≤ 1 := abs_le.mpr ⟨by linarith, by linarith⟩
  have hleft : Near (3 / 1000) (k.weight0 f) (1 - t) :=
    (k.half.rounds.near_of_abs_le (h.const_sub 1) hrest (by norm_num)).mono (by norm_num)
  refine ⟨ht, ht', hleft, ?_⟩
  have hright := hleft.const_sub 1
  rw [sub_sub_cancel] at hright
  have habs : |t| ≤ 1 := abs_le.mpr ⟨by linarith, ht'⟩
  exact (k.half.rounds.near_of_abs_le hright habs (by norm_num)).mono (by norm_num)

theorem fraction_near {p : Int} (hp : 0 ≤ p) : Near (2 / 1000) (k.fraction p) (toFraction p) := by
  rcases hp.eq_or_lt with rfl | hp
  · norm_num [fraction, toFraction, Near]
  obtain ⟨n, hn⟩ : ∃ n : Int, n = p % 65536 / 2 := ⟨_, rfl⟩
  have hbound : 0 ≤ n ∧ n ≤ 32767 := by omega
  have habs : |(n : ℚ)| ≤ 32767 := by
    rw [abs_of_nonneg (by exact_mod_cast hbound.1)]
    exact_mod_cast hbound.2
  have hone : |(n : ℚ) * 32768⁻¹| ≤ 1 := by
    rw [abs_mul, abs_of_pos (show (0 : ℚ) < 32768⁻¹ by norm_num)]
    linarith
  have hwhole := k.half.rounds.near_of_abs_le (Near.refl (n : ℚ)) habs (by norm_num)
  have hpart := k.half.rounds.near_of_abs_le (hwhole.mul_const 32768⁻¹) hone
    (by rw [abs_of_pos (by norm_num)]; norm_num)
  unfold fraction toFraction
  rw [if_pos hp, mul_one, ← hn, div_eq_mul_inv, div_eq_mul_inv]
  refine hpart.mono ?_
  rw [abs_of_pos (by norm_num)]
  norm_num

/-! ## Columns -/

section Column

variable (hs : Shrinks k.sCol k.dCol) (hx : x < k.dCol)

include hs hx

theorem column_weighs : Weighs (k.wx0 x) (k.wx1 x)
    (toFraction (position (scaleX k.sCol k.dCol) x)) := by
  have hnonneg := hs.position_nonneg (j := x)
  have hle := hs.position_le hx
  refine weighs_of_near ?_ (toFraction_nonneg _) (toFraction_lt _).le
  generalize position (scaleX k.sCol k.dCol) x = p at hnonneg hle ⊢
  have hwhole : whole p = p / 65536 := by
    unfold whole
    rw [Int.shiftRight_eq_div_pow]
    split <;> omega
  unfold fx
  rw [hwhole]
  split
  · rw [mul_one]
    exact fraction_near hnonneg
  · next hlast =>
    -- this is the last column itself
    unfold colLimit at hlast
    have hzero : p % 65536 / 2 = 0 := by omega
    norm_num [toFraction, hzero, Near]

theorem column_lerp (f : Nat → ℚ) : lerp k.sCol f (toPos (position (scaleX k.sCol k.dCol) x)) =
    f (k.left x) * (1 - toFraction (position (scaleX k.sCol k.dCol) x)) +
      f (k.right x) * toFraction (position (scaleX k.sCol k.dCol) x) := by
  have hle := hs.position_le hx
  have hpos := hs.one_le.trans hs.le
  exact lerp_toPos f hpos hs.position_nonneg (by omega)

end Column

/-! ## Rows -/

theorem rowPos_lt (hrow : k.sRow < 2 ^ 15) (hr : r < k.dRow) : k.rowPos r < k.sRow * 65536 := by
  obtain ⟨s, hs⟩ : ∃ s : Nat, k.sRow * 65536 / k.dRow = s := ⟨_, rfl⟩
  have hscale : k.scaleY = s := by
    have hwrap : uint32 ((k.sRow : Int) * 2 ^ 16) = (k.sRow * 65536 : ℕ) := by
      unfold uint32
      omega
    rw [scaleY, scaleX, hwrap, ← hs, Int.natCast_div]
  have hmul : (r + 1) * s ≤ k.sRow * 65536 := by
    rw [← hs]
    exact (Nat.mul_le_mul_right _ hr).trans (Nat.mul_div_le _ _)
  unfold rowPos position
  rw [hscale, ← Int.natCast_mul]
  rw [Nat.succ_mul] at hmul
  omega

/-- `sy` and the row behind it are those that `p` is between, at the place `t`. -/
structure Between (k : Kernel) (p : Int) (t : ℚ) : Prop where
  weighs : Weighs (k.weight0 (k.fy p)) (k.weight1 (k.fy p)) t
  sy_nonneg : 0 ≤ k.sy p
  lerp_eq (f : Nat → ℚ) : lerp k.sRow f (toPos p) =
    f (k.sy p).toNat * (1 - t) + f ((k.sy p).toNat + 1) * t

section Row

variable {p : Int} (htwo : 2 ≤ k.sRow)

include htwo

theorem between_above (hp : p ≤ 0) : k.Between p 0 := by
  have hwhole : whole p = 0 := by
    unfold whole
    rw [if_neg (by omega), mul_zero]
  have hlimit : ¬0 = k.rowLimit := by
    unfold rowLimit
    omega
  have hfy : k.fy p = 0 := by
    unfold fy fraction
    rw [hwhole, if_neg (show ¬p > 0 by omega), if_neg hlimit, mul_zero, zero_mul, add_zero]
  have hsy : k.sy p = 0 := by
    unfold sy
    rw [hwhole]
    unfold rowLimit
    split <;> omega
  have hpos : toPos p ≤ 0 := by
    have hhalf : p / 2 ≤ 0 := by omega
    exact div_nonpos_of_nonpos_of_nonneg (by exact_mod_cast hhalf) (by norm_num)
  refine ⟨?_, hsy.ge, fun f => ?_⟩
  · rw [hfy]
    exact weighs_of_near ((Near.refl 0).mono (by norm_num)) (le_refl 0) (by norm_num)
  · rw [lerp_of_le (by omega) hpos, hsy]
    simp

theorem between_inside (hp : 0 < p) (hlt : p < (k.sRow - 1) * 65536) :
    k.Between p (toFraction p) := by
  have hwhole : whole p = p / 65536 := by
    unfold whole
    rw [if_pos hp, mul_one, Int.shiftRight_eq_div_pow]
    rfl
  have hlimit : p / 65536 < k.rowLimit := by
    unfold rowLimit
    omega
  have hfy : k.fy p = k.fraction p := by
    unfold fy
    rw [hwhole, if_pos hlimit, if_neg hlimit.ne, mul_one, add_zero]
  have hsy : k.sy p = p / 65536 := by
    unfold sy
    rw [hwhole]
    split <;> omega
  refine ⟨?_, by omega, fun f => ?_⟩
  · rw [hfy]
    exact weighs_of_near (fraction_near hp.le) (toFraction_nonneg p) (toFraction_lt p).le
  · have hnext : min ((p / 65536).toNat + 1) (k.sRow - 1) = (p / 65536).toNat + 1 := by omega
    rw [lerp_toPos f (by omega) hp.le hlt.le, hsy, hnext]

/-- In the last row the weight of the row before is zero. -/
theorem between_last (hge : (k.sRow - 1) * 65536 ≤ p) (hlt : p < k.sRow * 65536) :
    k.Between p 1 := by
  have hp : 0 < p := by omega
  have hwhole : whole p = k.rowLimit := by
    unfold whole rowLimit
    rw [if_pos hp, mul_one, Int.shiftRight_eq_div_pow]
    omega
  have hfy : k.fy p = 1 := by
    unfold fy
    rw [hwhole, if_neg (lt_irrefl _), if_pos rfl, mul_zero, zero_add]
  have hsy : k.sy p = (k.sRow - 2 : Nat) := by
    unfold sy
    rw [hwhole]
    unfold rowLimit
    split <;> omega
  have hpos : (k.sRow - 1 : Nat) ≤ toPos p := by
    have hhalf : (k.sRow - 1 : Nat) * 32768 ≤ p / 2 := by omega
    rw [toPos, le_div_iff₀ (by norm_num)]
    exact_mod_cast hhalf
  refine ⟨?_, by omega, fun f => ?_⟩
  · rw [hfy]
    exact weighs_of_near ((Near.refl 1).mono (by norm_num)) (by norm_num) (le_refl 1)
  · have hnext : (k.sRow - 2 : Nat) + 1 = k.sRow - 1 := by omega
    rw [lerp_of_ge (by omega) hpos, hsy, Int.toNat_natCast, hnext]
    ring

theorem exists_between (hrow : k.sRow < 2 ^ 15) (hr : r < k.dRow) :
    ∃ t, k.Between (k.rowPos r) t := by
  have hlt := rowPos_lt hrow hr
  rcases le_or_gt (k.rowPos r) 0 with hp | hp
  · exact ⟨_, between_above htwo hp⟩
  rcases lt_or_ge (k.rowPos r) ((k.sRow - 1) * 65536) with hin | hge
  · exact ⟨_, between_inside htwo hp hin⟩
  · exact ⟨_, between_last htwo hge hlt⟩

end Row

/-! ## Values -/

/-- Where a column of the destination is in the source. -/
def colPos (k : Kernel) (x : Nat) : ℚ :=
  toPos (position (scaleX k.sCol k.dCol) x)

/-- The samples of a frame. -/
def lumaSample (k : Kernel) (b r c : Nat) : ℚ :=
  ((k.image b).y (r * k.srcStride0 + c)).toNat

/-- A chroma, each sample of which is for two rows and two columns. -/
def chromaSample (k : Kernel) (b p r c : Nat) : ℚ :=
  ((k.image b).uv ((r / 2 : Nat) * k.srcStride1 + (2 * (c / 2) + p : Nat))).toNat

theorem uint8_mem (v : UInt8) : (0 : ℚ) ≤ v.toNat ∧ (v.toNat : ℚ) ≤ 255 := by
  have hlt := v.toNat_lt
  constructor
  · exact Nat.cast_nonneg _
  · exact_mod_cast (show v.toNat ≤ 255 by omega)

section Value

variable {f : Nat → Nat → ℚ} (hk : k.Fits) (hs : Shrinks k.sCol k.dCol) (htwo : 2 ≤ k.sRow)
  (hx : x < k.dCol)

/-- What is between samples of bytes. -/
theorem abs_lerp_le {n : Nat} {g : Nat → ℚ} (hn : 0 < n) (hg : ∀ i < n, 0 ≤ g i ∧ g i ≤ 255)
    (p : ℚ) : |lerp n g p| ≤ 255 := by
  obtain ⟨hge, hle⟩ := lerp_mem hn hg p
  rwa [abs_of_nonneg hge]

include hs hx

/-- A line that is blended along its columns. -/
theorem blendX_near {g : Nat → ℚ} (hg : ∀ i, 0 ≤ g i ∧ g i ≤ 255) :
    Near (23 / 10) (k.blendX g x) (lerp k.sCol g (k.colPos x)) := by
  have hw := column_weighs hs hx
  have habs (i : Nat) : |g i| ≤ 255 := by
    rw [abs_of_nonneg (hg i).1]
    exact (hg i).2
  rw [colPos, column_lerp hs hx]
  refine (k.half.rounds.mean_near hw.nonneg hw.le_one hw.left hw.right (Near.refl _) (Near.refl _)
    (habs _) (habs _) ?_).mono ?_ <;> norm_num [Rounds.meanError]

include htwo hk

/-- Two lines of a plane that are blended. -/
theorem blend_near (hr : r < k.dRow) (hf : ∀ r c, 0 ≤ f r c ∧ f r c ≤ 255) :
    Near (93 / 20) (k.blend (k.rowWeight0 r) (k.rowWeight1 r)
        (k.blendX (f (k.sy (k.rowPos r)).toNat) x) (k.blendX (f ((k.sy (k.rowPos r)).toNat + 1)) x))
      (bilinear k.sCol k.sRow f (k.colPos x) (toPos (k.rowPos r))) := by
  obtain ⟨t, hb⟩ := exists_between htwo hk.ints.position hr
  have hw := hb.weighs
  have hpos := hs.one_le.trans hs.le
  have hline (r : Nat) := blendX_near hs hx (hf r)
  have habs (r : Nat) : |lerp k.sCol (f r) (k.colPos x)| ≤ 255 :=
    abs_lerp_le hpos (fun i _ => hf r i) _
  rw [bilinear, hb.lerp_eq]
  refine (k.half.rounds.mean_near hw.nonneg hw.le_one hw.left hw.right (hline _) (hline _)
    (habs _) (habs _) ?_).mono ?_ <;> norm_num [Rounds.meanError]

theorem luma_near (hr : r < k.dRow) : Near (93 / 20) (k.luma b r x)
    (bilinear k.sCol k.sRow (k.lumaSample b) (k.colPos x) (toPos (k.rowPos r))) := by
  obtain ⟨t, hb⟩ := exists_between htwo hk.ints.position hr
  have hsy : ((k.sy (k.rowPos r)).toNat : Int) = k.sy (k.rowPos r) := Int.toNat_of_nonneg hb.sy_nonneg
  have hline : k.rowByte b r 0 = k.lumaSample b (k.sy (k.rowPos r)).toNat := by
    funext c
    simp [rowByte, lineByte, lumaSample, hsy]
  have hline' : k.rowByte b r 1 = k.lumaSample b ((k.sy (k.rowPos r)).toNat + 1) := by
    funext c
    simp [rowByte, lineByte, lumaSample, hsy]
  rw [luma, hline, hline']
  exact blend_near hk hs htwo hx hr fun r c => uint8_mem _

theorem chromaAt_near {p : Nat} (hr : r < k.dRow) : Near (93 / 20) (k.chromaAt b p r x)
    (bilinear k.sCol k.sRow (k.chromaSample b p) (k.colPos x) (toPos (k.rowPos r))) := by
  obtain ⟨t, hb⟩ := exists_between htwo hk.ints.position hr
  have hsy : ((k.sy (k.rowPos r)).toNat : Int) = k.sy (k.rowPos r) := Int.toNat_of_nonneg hb.sy_nonneg
  have hline : (fun i => k.rowByte b r 2 (2 * (i / 2) + p)) =
      k.chromaSample b p (k.sy (k.rowPos r)).toNat := by
    funext c
    simp [rowByte, lineByte, chromaSample, hsy, Int.tdiv_eq_ediv_of_nonneg hb.sy_nonneg]
  have hline' : (fun i => k.rowByte b r 3 (2 * (i / 2) + p)) =
      k.chromaSample b p ((k.sy (k.rowPos r)).toNat + 1) := by
    funext c
    simp [rowByte, lineByte, chromaSample, hsy,
      Int.tdiv_eq_ediv_of_nonneg (Int.add_nonneg hb.sy_nonneg Int.one_nonneg)]
  rw [chromaAt, hline, hline']
  exact blend_near hk hs htwo hx hr fun r c => uint8_mem _

end Value

/-! ## Bytes -/

/-- What the bytes are to be taken from. -/
def interpolated (k : Kernel) (b : Nat) : Plane → Nat → Nat → ℚ
  | .y, r, x => bilinear k.sCol k.sRow (k.lumaSample b) (k.colPos x) (toPos (k.rowPos r))
  | .uv, r, x =>
    let chroma (i j : Nat) := bilinear k.sCol k.sRow (k.chromaSample b (x % 2))
      (k.colPos (2 * (x / 2) + j)) (toPos (k.rowPos (2 * r + i)))
    (chroma 0 0 + chroma 1 0 + (chroma 0 1 + chroma 1 1)) * (1 / 4)

def tolerance : Plane → ℚ
  | .y => 5
  | .uv => 7

theorem floor_near (q : ℚ) : Near 1 (⌊q⌋ : ℚ) q := by
  have hle := Int.floor_le q
  have hlt := Int.lt_floor_add_one q
  exact abs_le.mpr ⟨by linarith, by linarith⟩

/-- The mean of two rows and two columns. -/
theorem mean_near {f : Nat → ℚ} {c d a e : Nat → ℚ} {q : Nat}
    (hf : ∀ j, f j = k.half.round (c j + d j))
    (hc : ∀ j < 2, Near (93 / 20) (c (2 * q + j)) (a j) ∧ |a j| ≤ 255)
    (hd : ∀ j < 2, Near (93 / 20) (d (2 * q + j)) (e j) ∧ |e j| ≤ 255) :
    Near 7 (k.mean f q) ((a 0 + e 0 + (a 1 + e 1)) * (1 / 4)) := by
  have habs {x y M : ℚ} (hx : |x| ≤ M) (hy : |y| ≤ M) : |x + y| ≤ M + M :=
    (abs_add_le x y).trans (add_le_add hx hy)
  have hround := k.half.rounds
  have hcolumn (j : Nat) (hj : j < 2) : Near (981 / 100) (f (2 * q + j)) (a j + e j) := by
    rw [hf]
    exact (hround.near_of_abs_le ((hc j hj).1.add (hd j hj).1) (habs (hc j hj).2 (hd j hj).2)
      (by norm_num)).mono (by norm_num)
  have hbound (j : Nat) (hj : j < 2) := habs (hc j hj).2 (hd j hj).2
  have hsum := (hround.near_of_abs_le ((hcolumn 0 (by decide)).add (hcolumn 1 (by decide)))
    (habs (hbound 0 (by decide)) (hbound 1 (by decide))) (by norm_num)).mono
    (show _ ≤ (2064 / 100 : ℚ) by norm_num)
  have hmean : |(a 0 + e 0 + (a 1 + e 1)) * (1 / 4)| ≤ 255 := by
    have hle := habs (hbound 0 (by decide)) (hbound 1 (by decide))
    rw [abs_mul, abs_of_pos (show (0 : ℚ) < 1 / 4 by norm_num)]
    linarith
  have hquarter := (hround.near_of_abs_le (hsum.mul_const (1 / 4)) hmean
    (by rw [abs_of_pos (by norm_num)]; norm_num)).mono
    (show _ ≤ (542 / 100 : ℚ) by rw [abs_of_pos (by norm_num)]; norm_num)
  have hfloor := (hround.near_of_abs_le ((floor_near _).trans hquarter) hmean (by norm_num)).mono
    (show _ ≤ (668 / 100 : ℚ) by norm_num)
  exact (hround.near_of_abs_le hfloor hmean (by norm_num)).mono (by norm_num)

theorem value_near (hk : k.Fits) (hs : Shrinks k.sCol k.dCol) (htwo : 2 ≤ k.sRow) {plane : Plane}
    (hr : r < k.rows plane) (hx : k.InRow plane x) :
    Near (tolerance plane) (k.value b plane r x) (k.interpolated b plane r x) := by
  cases plane with
  | y => exact (luma_near hk hs htwo hx hr).mono (by norm_num [tolerance])
  | uv =>
    have hr' : r < k.dRow / 2 := hr
    have hx' : 2 * (x / 2) + 1 < k.dCol := hx
    have hpos := hs.one_le.trans hs.le
    obtain ⟨chroma, hdef⟩ : ∃ chroma : Nat → Nat → ℚ, chroma = fun i j =>
        bilinear k.sCol k.sRow (k.chromaSample b (x % 2)) (k.colPos (2 * (x / 2) + j))
          (toPos (k.rowPos (2 * r + i))) := ⟨_, rfl⟩
    have hchroma (i : Nat) (hi : i < 2) (j : Nat) (hj : j < 2) :
        Near (93 / 20) (k.chromaAt b (x % 2) (2 * r + i) (2 * (x / 2) + j)) (chroma i j) ∧
          |chroma i j| ≤ 255 := by
      rw [hdef]
      refine ⟨chromaAt_near hk hs htwo (by omega) (by omega), ?_⟩
      exact abs_lerp_le (by omega) (fun r _ => lerp_mem hpos (fun c _ => uint8_mem _) _) _
    have hmean := mean_near (k := k) (a := chroma 0) (e := chroma 1) (q := x / 2) (fun j => rfl)
      (hchroma 0 (by decide)) (hchroma 1 (by decide))
    subst hdef
    exact hmean

end CambriconGst.Easybang.ResizeYuv420sp.Kernel
