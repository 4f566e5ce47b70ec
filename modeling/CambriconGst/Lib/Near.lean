import Mathlib.Algebra.Order.Field.Basic
import Mathlib.Tactic.Linarith
import Mathlib.Tactic.Positivity
import Mathlib.Tactic.Ring

/-!
# Numbers up to an error

* `Near`: a number stands for another one, up to an error; sums and products
* `Rounds`: results are rounded, with an error that is relative except near zero
* `Rounds.mean_near`: a mean with weights, when the weights, the values and the results have errors
-/

namespace CambriconGst.Lib

variable {K : Type*} [Field K] [LinearOrder K] [IsStrictOrderedRing K]

/-- `x` is `y`, up to `ε`. -/
def Near (ε x y : K) : Prop :=
  |x - y| ≤ ε

namespace Near

variable {ε ε' δ x y z v w M : K}

theorem refl (x : K) : Near 0 x x := by
  simp [Near]

theorem nonneg (h : Near ε x y) : 0 ≤ ε :=
  (abs_nonneg _).trans h

omit [IsStrictOrderedRing K] in
theorem mono (h : Near ε x y) (hle : ε ≤ ε') : Near ε' x y :=
  h.trans hle

theorem trans (h : Near ε x y) (h' : Near ε' y z) : Near (ε + ε') x z :=
  (abs_sub_le x y z).trans (add_le_add h h')

theorem add (h : Near ε x y) (h' : Near ε' v w) : Near (ε + ε') (x + v) (y + w) := by
  have hsum : x + v - (y + w) = (x - y) + (v - w) := by ring
  rw [Near, hsum]
  exact (abs_add_le _ _).trans (add_le_add h h')

omit [IsStrictOrderedRing K] in
theorem const_sub (h : Near ε x y) (z : K) : Near ε (z - x) (z - y) := by
  have hdiff : z - x - (z - y) = y - x := by ring
  rwa [Near, hdiff, abs_sub_comm]

theorem abs_le (h : Near ε x y) (hy : |y| ≤ M) : |x| ≤ M + ε := by
  have htri := abs_add_le y (x - y)
  rw [add_sub_cancel] at htri
  exact htri.trans (add_le_add hy h)

/-- The error of a product, the first factor of which is at most `M`. -/
theorem mul (h : Near ε x y) (h' : Near δ w v) (hy : |y| ≤ M) :
    Near (ε * |w| + M * δ) (x * w) (y * v) := by
  have hprod : x * w - y * v = (x - y) * w + y * (w - v) := by ring
  rw [Near, hprod]
  calc |(x - y) * w + y * (w - v)| ≤ |x - y| * |w| + |y| * |w - v| := by
        rw [← abs_mul, ← abs_mul]
        exact abs_add_le _ _
    _ ≤ ε * |w| + M * δ :=
      add_le_add (mul_le_mul_of_nonneg_right h (abs_nonneg w))
        (mul_le_mul hy h' (abs_nonneg _) ((abs_nonneg y).trans hy))

theorem mul_const (h : Near ε x y) (c : K) : Near (ε * |c|) (x * c) (y * c) := by
  rw [Near, ← sub_mul, abs_mul]
  exact mul_le_mul_of_nonneg_right h (abs_nonneg c)

end Near

/-- The function rounds numbers up to `B`: by `u` of them, and by `η` near zero. -/
structure Rounds (u η B : K) (f : K → K) : Prop where
  u_nonneg : 0 ≤ u
  η_nonneg : 0 ≤ η
  near (x : K) (hx : |x| ≤ B) : Near (u * |x| + η) (f x) x

namespace Rounds

variable {u η B ε M x y : K} {f : K → K}

theorem near_of_near (hf : Rounds u η B f) (h : Near ε x y) (hx : |x| ≤ M) (hM : M ≤ B) :
    Near (u * M + η + ε) (f x) y :=
  ((hf.near x (hx.trans hM)).mono
    (add_le_add (mul_le_mul_of_nonneg_left hx hf.u_nonneg) (le_refl η))).trans h

/-- A sum, with what stands for a number of at most `M`. -/
theorem near_of_abs_le (hf : Rounds u η B f) (h : Near ε x y) (hy : |y| ≤ M) (hM : M + ε ≤ B) :
    Near (u * (M + ε) + η + ε) (f x) y :=
  hf.near_of_near h (h.abs_le hy) hM

section Mean

variable {a b w w' t c c' : K}

/-- The error of a mean before it is rounded itself. -/
def meanError (u η M ε c : K) : K :=
  (ε + u * (M + ε)) * (1 + c) + M * c + (η + η)

/-- A value of at most `M` with its weight. -/
theorem near_mul (hf : Rounds u η B f) (ha : Near ε a x) (hw : Near c w t) (hx : |x| ≤ M)
    (hB : (M + ε) * |w| ≤ B) :
    Near ((ε + u * (M + ε)) * |w| + M * c + η) (f (a * w)) (x * t) := by
  have habs : |a * w| ≤ (M + ε) * |w| := by
    rw [abs_mul]
    exact mul_le_mul_of_nonneg_right (ha.abs_le hx) (abs_nonneg w)
  refine (hf.near_of_near (ha.mul hw hx) habs hB).mono (le_of_eq ?_)
  ring

theorem mean_near (hf : Rounds u η B f) (ht : 0 ≤ t) (ht' : t ≤ 1) (hw : Near c w (1 - t))
    (hw' : Near c' w' t) (ha : Near ε a x) (hb : Near ε b y) (hx : |x| ≤ M) (hy : |y| ≤ M)
    (hB : M + meanError u η M ε (c + c') ≤ B) :
    Near (u * (M + meanError u η M ε (c + c')) + η + meanError u η M ε (c + c'))
      (f (f (a * w) + f (b * w'))) (x * (1 - t) + y * t) := by
  have hu := hf.u_nonneg
  have hη := hf.η_nonneg
  have hM : 0 ≤ M := (abs_nonneg x).trans hx
  have hε := ha.nonneg
  have hc := hw.nonneg
  have hc' := hw'.nonneg
  have hrest : 0 ≤ 1 - t := sub_nonneg.mpr ht'
  have hwabs : |w| ≤ 1 - t + c := hw.abs_le (abs_of_nonneg hrest).le
  have hwabs' : |w'| ≤ t + c' := hw'.abs_le (abs_of_nonneg ht).le
  -- the products have room, since the sum has
  have hroom {W : K} (hW : W ≤ 1 + (c + c')) : (M + ε) * W ≤ B := by
    refine le_trans ?_ hB
    have hmul := mul_le_mul_of_nonneg_left hW (add_nonneg hM hε)
    have hmore : 0 ≤ u * (M + ε) * (1 + (c + c')) := by positivity
    unfold meanError
    linarith
  have hsum := (hf.near_mul ha hw hx (hroom (by linarith))).add
    (hf.near_mul hb hw' hy (hroom (by linarith)))
  have hcoeff : 0 ≤ ε + u * (M + ε) := by positivity
  have hweights := mul_le_mul_of_nonneg_left (show |w| + |w'| ≤ 1 + (c + c') by linarith) hcoeff
  have hmean : |x * (1 - t) + y * t| ≤ M := by
    have hx' := mul_le_mul_of_nonneg_right hx hrest
    have hy' := mul_le_mul_of_nonneg_right hy ht
    have htri := abs_add_le (x * (1 - t)) (y * t)
    rw [abs_mul, abs_mul, abs_of_nonneg hrest, abs_of_nonneg ht] at htri
    linarith
  refine hf.near_of_abs_le (hsum.mono ?_) hmean hB
  unfold meanError
  linarith

end Mean

end Rounds

end CambriconGst.Lib
