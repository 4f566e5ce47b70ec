import Mathlib.Algebra.Order.Floor.Ring
import Mathlib.Tactic.Linarith
import Mathlib.Tactic.Ring

/-!
# Interpolation

Samples at whole positions, and what lies between them on straight lines. Before the first sample and
behind the last one it is as there.

* `lerp_mem`: what is interpolated stays between bounds of the samples
* `lerp_of_le`, `lerp_of_ge`, `lerp_of_mem`: the value in terms of the samples next to the position
-/

namespace CambriconGst.Lib

variable {K : Type*} [Field K] [LinearOrder K] [IsStrictOrderedRing K] [FloorRing K]

/-- The position closest to `p` between the first and the last of `n` samples. -/
def clampTo (n : Nat) (p : K) : K :=
  min (max p 0) (n - 1)

/-- What lies at `p`, for `n` samples. -/
def lerp (n : Nat) (f : Nat → K) (p : K) : K :=
  let q := clampTo n p
  f ⌊q⌋₊ * (1 - (q - ⌊q⌋₊)) + f (min (⌊q⌋₊ + 1) (n - 1)) * (q - ⌊q⌋₊)

/-- Samples in `h` rows of `w`: along the rows first. -/
def bilinear (w h : Nat) (f : Nat → Nat → K) (x y : K) : K :=
  lerp h (fun r => lerp w (f r) x) y

variable {n w h i : Nat} {f g : Nat → K} {p a b : K}

theorem clampTo_nonneg (hn : 0 < n) (p : K) : 0 ≤ clampTo n p :=
  le_min (le_max_right _ _) (sub_nonneg.mpr (by exact_mod_cast hn))

theorem floor_clampTo_lt (hn : 0 < n) (p : K) : ⌊clampTo n p⌋₊ < n := by
  have hle : clampTo n p ≤ (n - 1 : Nat) := by
    rw [Nat.cast_sub hn, Nat.cast_one]
    exact min_le_right _ _
  have hfloor := (Nat.floor_mono hle).trans_eq (Nat.floor_natCast _)
  omega

theorem fract_nonneg (hn : 0 < n) (p : K) : 0 ≤ clampTo n p - ⌊clampTo n p⌋₊ :=
  sub_nonneg.mpr (Nat.floor_le (clampTo_nonneg hn p))

theorem fract_le_one (p : K) : clampTo n p - ⌊clampTo n p⌋₊ ≤ 1 := by
  have hlt := Nat.lt_floor_add_one (clampTo n p)
  linarith

omit [FloorRing K] in
/-- A mean of two values with weights stays between their bounds. -/
theorem mean_mem {x y q : K} (hq : 0 ≤ q) (hq' : q ≤ 1) (hx : a ≤ x ∧ x ≤ b) (hy : a ≤ y ∧ y ≤ b) :
    a ≤ x * (1 - q) + y * q ∧ x * (1 - q) + y * q ≤ b := by
  have hrest : 0 ≤ 1 - q := sub_nonneg.mpr hq'
  constructor
  · calc a = a * (1 - q) + a * q := by ring
      _ ≤ x * (1 - q) + y * q := add_le_add (mul_le_mul_of_nonneg_right hx.1 hrest)
        (mul_le_mul_of_nonneg_right hy.1 hq)
  · calc x * (1 - q) + y * q ≤ b * (1 - q) + b * q :=
        add_le_add (mul_le_mul_of_nonneg_right hx.2 hrest) (mul_le_mul_of_nonneg_right hy.2 hq)
      _ = b := by ring

theorem lerp_mem (hn : 0 < n) (hf : ∀ i < n, a ≤ f i ∧ f i ≤ b) (p : K) :
    a ≤ lerp n f p ∧ lerp n f p ≤ b :=
  mean_mem (fract_nonneg hn p) (fract_le_one p) (hf _ (floor_clampTo_lt hn p))
    (hf _ (by omega))

/-! ## Next to the position -/

theorem lerp_of_le (hn : 0 < n) (hp : p ≤ 0) : lerp n f p = f 0 := by
  have hone : (1 : K) ≤ n := by exact_mod_cast hn
  have hq : clampTo n p = 0 := by
    rw [clampTo, max_eq_right hp, min_eq_left (by linarith)]
  simp [lerp, hq]

theorem lerp_of_ge (hn : 0 < n) (hp : (n - 1 : Nat) ≤ p) : lerp n f p = f (n - 1) := by
  have hq : clampTo n p = (n - 1 : Nat) := by
    have hcast : ((n - 1 : Nat) : K) = n - 1 := by rw [Nat.cast_sub hn, Nat.cast_one]
    rw [clampTo, ← hcast, max_eq_left ((Nat.cast_nonneg _).trans hp), min_eq_right hp]
  simp [lerp, hq]

omit [IsStrictOrderedRing K] in
theorem lerp_of_mem (hn : 0 < n) (hp : 0 ≤ p) (hp' : p ≤ (n - 1 : Nat)) :
    lerp n f p = f ⌊p⌋₊ * (1 - (p - ⌊p⌋₊)) + f (min (⌊p⌋₊ + 1) (n - 1)) * (p - ⌊p⌋₊) := by
  have hq : clampTo n p = p := by
    have hcast : ((n - 1 : Nat) : K) = n - 1 := by rw [Nat.cast_sub hn, Nat.cast_one]
    rw [clampTo, ← hcast, max_eq_left hp, min_eq_left hp']
  rw [lerp, hq]

end CambriconGst.Lib
