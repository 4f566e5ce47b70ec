import Mathlib.LinearAlgebra.Matrix.PosDef
import Mathlib.Tactic.NoncommRing

/-!
# Covariances of a linear filter

A covariance `P` through a prediction `A P Aᵀ + Q` and through a measurement `H` with noise `N`,
whose innovation covariance is `H P Hᵀ + N`.

* `joseph`: the updated covariance is a sum of two squares
* `posSemidef_measured`, `posDef_measured`: an update keeps the covariance (semi)definite
* `projected_mean`: what an update does to the measured coordinates
-/

namespace CambriconGst.Lib.Covariance

open Matrix

variable {m n F : Type*} [Fintype m] [Fintype n]

section Algebra

variable [Field F] [DecidableEq m]

/-- The innovation covariance. -/
def innovation (P : Matrix n n F) (H : Matrix m n F) (N : Matrix m m F) : Matrix m m F :=
  H * P * Hᵀ + N

/-- The gain. -/
noncomputable def gain (P : Matrix n n F) (H : Matrix m n F) (N : Matrix m m F) : Matrix n m F :=
  P * Hᵀ * (innovation P H N)⁻¹

/-- The covariance after an update. -/
noncomputable def measured (P : Matrix n n F) (H : Matrix m n F) (N : Matrix m m F) : Matrix n n F :=
  P - gain P H N * H * P

variable {P : Matrix n n F} {H : Matrix m n F} {N : Matrix m m F}

theorem gain_mul_innovation (hS : IsUnit (innovation P H N)) :
    gain P H N * innovation P H N = P * Hᵀ := by
  have hdet : IsUnit (innovation P H N).det := (isUnit_iff_isUnit_det _).mp hS
  rw [gain, Matrix.mul_assoc, nonsing_inv_mul _ hdet, Matrix.mul_one]

theorem measure_gain (hS : IsUnit (innovation P H N)) :
    H * gain P H N = 1 - N * (innovation P H N)⁻¹ := by
  have hdet : IsUnit (innovation P H N).det := (isUnit_iff_isUnit_det _).mp hS
  have hHP : H * P * Hᵀ = innovation P H N - N := by rw [innovation, add_sub_cancel_right]
  rw [gain, ← Matrix.mul_assoc, ← Matrix.mul_assoc, hHP, Matrix.sub_mul, mul_nonsing_inv _ hdet]

/-- The updated covariance in Joseph form. -/
theorem joseph [DecidableEq n] (hS : IsUnit (innovation P H N)) :
    measured P H N = (1 - gain P H N * H) * P * (1 - gain P H N * H)ᵀ
      + gain P H N * N * (gain P H N)ᵀ := by
  set G := gain P H N with hG
  have hsplit : G * (H * P * Hᵀ + N) * Gᵀ = P * Hᵀ * Gᵀ := by
    rw [← innovation, gain_mul_innovation hS]
  have hexpand : (1 - G * H) * P * (1 - G * H)ᵀ + G * N * Gᵀ
      = P - G * H * P - P * Hᵀ * Gᵀ + G * (H * P * Hᵀ + N) * Gᵀ := by
    rw [transpose_sub, transpose_one, transpose_mul]
    simp only [Matrix.sub_mul, Matrix.mul_sub, Matrix.add_mul, Matrix.mul_add, Matrix.one_mul,
      Matrix.mul_one, Matrix.mul_assoc]
    abel
  rw [hexpand, hsplit, measured]
  abel

/-- The measured coordinates after an update miss the measurement by what the noise explains. -/
theorem projected_mean (hS : IsUnit (innovation P H N)) (x : Matrix (Fin 1) n F)
    (y : Matrix (Fin 1) m F) :
    (x + (y - x * Hᵀ) * (gain P H N)ᵀ) * Hᵀ
      = y - (y - x * Hᵀ) * (N * (innovation P H N)⁻¹)ᵀ := by
  have hGH : (gain P H N)ᵀ * Hᵀ = 1 - (N * (innovation P H N)⁻¹)ᵀ := by
    rw [← transpose_mul, measure_gain hS, transpose_sub, transpose_one]
  rw [Matrix.add_mul, Matrix.mul_assoc, hGH, Matrix.mul_sub, Matrix.mul_one]
  abel

end Algebra

section Order

variable [Field F] [StarRing F] [TrivialStar F] {P : Matrix n n F}

/-- The form of a congruence is the form at the transformed vector. -/
theorem form_congr (B : Matrix m n F) (x : m → F) :
    star x ⬝ᵥ (B * P * Bᵀ) *ᵥ x = star (Bᵀ *ᵥ x) ⬝ᵥ P *ᵥ (Bᵀ *ᵥ x) := by
  rw [star_trivial, star_trivial, ← mulVec_mulVec, ← mulVec_mulVec, dotProduct_mulVec,
    ← mulVec_transpose]

variable [PartialOrder F]

theorem posSemidef_congr (hP : P.PosSemidef) (B : Matrix m n F) : (B * P * Bᵀ).PosSemidef := by
  rw [← conjTranspose_eq_transpose_of_trivial]
  exact hP.mul_mul_conjTranspose_same B

theorem posDef_congr (hP : P.PosDef) {B : Matrix m n F} (hB : Function.Injective B.vecMul) :
    (B * P * Bᵀ).PosDef := by
  rw [← conjTranspose_eq_transpose_of_trivial]
  exact hP.mul_mul_conjTranspose_same hB

variable [StarOrderedRing F] [DecidableEq m] [DecidableEq n]
variable {H : Matrix m n F} {N : Matrix m m F}

theorem posSemidef_measured (hS : IsUnit (innovation P H N)) (hP : P.PosSemidef)
    (hN : N.PosSemidef) : (measured P H N).PosSemidef := by
  rw [joseph hS]
  exact (posSemidef_congr hP _).add (posSemidef_congr hN _)

/-- With definite noise an update keeps a definite covariance definite. -/
theorem posDef_measured (hS : IsUnit (innovation P H N)) (hP : P.PosDef) (hN : N.PosDef) :
    (measured P H N).PosDef := by
  refine Matrix.PosDef.of_dotProduct_mulVec_pos
    (posSemidef_measured hS hP.posSemidef hN.posSemidef).isHermitian fun x hx => ?_
  -- the form is that of `P` at `x - Hᵀ Gᵀ x` and that of the noise at `Gᵀ x`
  rw [joseph hS, add_mulVec, dotProduct_add,
    form_congr, form_congr]
  by_cases hz : (gain P H N)ᵀ *ᵥ x = 0
  · have hx' : (1 - gain P H N * H)ᵀ *ᵥ x = x := by
      rw [transpose_sub, transpose_one, transpose_mul, sub_mulVec, one_mulVec, ← mulVec_mulVec, hz,
        mulVec_zero, sub_zero]
    rw [hx', hz]
    simpa using hP.dotProduct_mulVec_pos hx
  · exact add_pos_of_nonneg_of_pos (hP.posSemidef.dotProduct_mulVec_nonneg _)
      (hN.dotProduct_mulVec_pos hz)

end Order

end CambriconGst.Lib.Covariance
