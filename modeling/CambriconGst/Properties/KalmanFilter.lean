import Mathlib.Algebra.Order.Star.Basic
import Mathlib.Data.Rat.Star
import CambriconGst.Easytrack.KalmanFilter
import CambriconGst.Lib.Covariance
import CambriconGst.Lib.Transition
import CambriconGst.Properties.Matrix

/-!
# The covariance of the Kalman filter

`reachable_covariance`: through every run of a filter the covariance stays positive semidefinite,
is positive definite after every prediction, and what is inverted is invertible.

The height in the mean scales the noise, and an update can bring it to zero. `Sound` couples the
two: the covariance is definite or the height is not zero. An update under a zero height has no
noise on the measured height, so it leaves the measured one.
-/

namespace CambriconGst.Easytrack

open Lib Matrix Lib.Covariance

/-! ## Constant matrices -/

theorem updateMat_mul_transpose :
    updateMat ℚ * (updateMat ℚ)ᵀ = 1 := by
  decide +kernel

theorem motionMat_mul_inverse :
    motionMat ℚ * (2 - motionMat ℚ) = 1 := by
  decide +kernel

theorem injective_vecMul_of_mul_eq_one {m n : Nat} {A : Matrix (Fin m) (Fin n) ℚ}
    {B : Matrix (Fin n) (Fin m) ℚ} (h : A * B = 1) : Function.Injective A.vecMul :=
  Function.LeftInverse.injective (g := B.vecMul) fun x => by
    simp only [vecMul_vecMul, h, vecMul_one]

/-- The measurement reads the height of the state. -/
theorem mul_updateMat_transpose (x : Matrix (Fin 1) (Fin 8) ℚ) :
    (x * (updateMat ℚ)ᵀ : Matrix (Fin 1) (Fin 4) ℚ) 0 3 = x 0 3 := by
  simp [mul_apply, updateMat, Fin.sum_univ_succ]

namespace KalmanFilter

variable {kf : KalmanFilter ℚ}

/-! ## Noise -/

theorem deviations_ne_zero {position velocity : ℚ} (hp : position ≠ 0) (hv : velocity ≠ 0)
    (i : Fin 8) : deviations position velocity i ≠ 0 := by
  fin_cases i <;> norm_num [deviations, hp, hv]

theorem posSemidef_motionCov (kf : KalmanFilter ℚ) : kf.motionCov.PosSemidef :=
  PosSemidef.diagonal fun _ => mul_self_nonneg _

theorem posDef_motionCov (h : kf.mean 0 3 ≠ 0) : kf.motionCov.PosDef := by
  refine PosDef.diagonal fun i => mul_self_pos.mpr (deviations_ne_zero ?_ ?_ i)
  · exact mul_ne_zero (by norm_num [stdWeightPosition]) h
  · exact mul_ne_zero (by norm_num [stdWeightVelocity]) h

theorem posSemidef_innovationCov (kf : KalmanFilter ℚ) : kf.innovationCov.PosSemidef := by
  refine PosSemidef.diagonal fun i => ?_
  fin_cases i
  · exact mul_self_nonneg _
  · exact mul_self_nonneg _
  · norm_num
  · exact mul_self_nonneg _

theorem posDef_innovationCov (h : kf.mean 0 3 ≠ 0) : kf.innovationCov.PosDef := by
  have hpos : 0 < stdWeightPosition * kf.mean 0 3 * (stdWeightPosition * kf.mean 0 3) :=
    mul_self_pos.mpr (mul_ne_zero (by norm_num [stdWeightPosition]) h)
  refine PosDef.diagonal fun i => ?_
  fin_cases i
  · exact hpos
  · exact hpos
  · norm_num
  · exact hpos

/-! ## The invariant -/

/-- Where a filter is in a frame: only after a prediction may it be updated. -/
inductive Phase where
  | idle
  | predicted

/-- What holds after every call. -/
structure Sound (phase : Phase) (kf : KalmanFilter ℚ) : Prop where
  posSemidef : kf.covariance.PosSemidef
  posDef : phase = .predicted → kf.covariance.PosDef
  height : kf.covariance.PosDef ∨ kf.mean 0 3 ≠ 0
  cached : kf.needRecalcProject = false → kf.projectMean = kf.mean * (updateMat ℚ)ᵀ ∧
    kf.projectCovariance = innovation kf.covariance (updateMat ℚ) kf.innovationCov

namespace Sound

variable {phase : Phase}

/-- The projection is that of the mean and covariance, computed or cached. -/
theorem project_eq (h : Sound phase kf) : kf.project = { kf with
    projectMean := kf.mean * (updateMat ℚ)ᵀ
    projectCovariance := innovation kf.covariance (updateMat ℚ) kf.innovationCov
    needRecalcProject := false } := by
  unfold project
  split
  · rfl
  · next hc =>
    have hc' : kf.needRecalcProject = false := by simpa using hc
    obtain ⟨hm, hS⟩ := h.cached hc'
    rw [← hm, ← hS, ← hc']

theorem project (h : Sound phase kf) : Sound phase kf.project := by
  rw [h.project_eq]
  exact ⟨h.posSemidef, h.posDef, h.height, fun _ => ⟨rfl, rfl⟩⟩

/-- The innovation covariance is definite: the state's part of it is, or the noise is. -/
theorem posDef_innovation (h : Sound phase kf) :
    (innovation kf.covariance (updateMat ℚ) kf.innovationCov).PosDef := by
  rcases h.height with hP | hh
  · exact (posDef_congr hP (injective_vecMul_of_mul_eq_one updateMat_mul_transpose)).add_posSemidef
      (posSemidef_innovationCov kf)
  · exact PosDef.posSemidef_add (posSemidef_congr h.posSemidef (updateMat ℚ)) (posDef_innovationCov hh)

theorem inv_projectCovariance (h : Sound phase kf) : inv kf.project.projectCovariance
    = (innovation kf.covariance (updateMat ℚ) kf.innovationCov)⁻¹ := by
  rw [h.project_eq]
  exact inv_eq ((isUnit_iff_isUnit_det _).mp h.posDef_innovation.isUnit).ne_zero

/-! ### Predict -/

theorem predict (h : Sound phase kf) : Sound .predicted kf.predict := by
  have hP : kf.predict.covariance.PosDef := by
    show (motionMat ℚ * kf.covariance * (motionMat ℚ)ᵀ + kf.motionCov).PosDef
    rcases h.height with hP | hh
    · exact (posDef_congr hP (injective_vecMul_of_mul_eq_one motionMat_mul_inverse)).add_posSemidef
        (posSemidef_motionCov kf)
    · exact PosDef.posSemidef_add (posSemidef_congr h.posSemidef (motionMat ℚ)) (posDef_motionCov hh)
  exact ⟨hP.posSemidef, fun _ => hP, Or.inl hP, fun hc => by simp [KalmanFilter.predict] at hc⟩

/-! ### Update -/

theorem update_covariance (h : Sound phase kf) (bbox : BoundingBox ℚ) :
    (kf.update bbox).covariance = measured kf.covariance (updateMat ℚ) kf.innovationCov := by
  simp only [KalmanFilter.update, h.inv_projectCovariance]
  rw [h.project_eq]
  rfl

theorem update_mean (h : Sound phase kf) (bbox : BoundingBox ℚ) :
    (kf.update bbox).mean = kf.mean + (bbox.toRow - kf.mean * (updateMat ℚ)ᵀ) *
      (gain kf.covariance (updateMat ℚ) kf.innovationCov)ᵀ := by
  simp only [KalmanFilter.update, h.inv_projectCovariance]
  rw [h.project_eq]
  rfl

/-- Under a zero height the measured height is taken over. -/
theorem update_height (h : Sound phase kf) (hz : kf.mean 0 3 = 0) (bbox : BoundingBox ℚ) :
    (kf.update bbox).mean 0 3 = bbox.height := by
  have hrow : ∀ j, (kf.innovationCov *
      (innovation kf.covariance (updateMat ℚ) kf.innovationCov)⁻¹) 3 j = 0 := by
    intro j
    rw [innovationCov, diagonal_mul]
    simp [hz]
  have hcol : ((bbox.toRow - kf.mean * (updateMat ℚ)ᵀ) * (kf.innovationCov *
      (innovation kf.covariance (updateMat ℚ) kf.innovationCov)⁻¹)ᵀ : Matrix (Fin 1) (Fin 4) ℚ) 0 3
      = 0 := by
    rw [mul_apply]
    exact Finset.sum_eq_zero fun j _ => by rw [transpose_apply, hrow j, mul_zero]
  rw [← mul_updateMat_transpose (kf.update bbox).mean, h.update_mean,
    projected_mean h.posDef_innovation.isUnit, Matrix.sub_apply, hcol, sub_zero]
  rfl

theorem update (h : Sound .predicted kf) {bbox : BoundingBox ℚ} (hb : bbox.height ≠ 0) :
    Sound .idle (kf.update bbox) := by
  have hS := h.posDef_innovation.isUnit
  refine ⟨?_, fun hp => Phase.noConfusion hp, ?_, fun hc => by simp [KalmanFilter.update] at hc⟩
  · rw [h.update_covariance]
    exact posSemidef_measured hS h.posSemidef (posSemidef_innovationCov kf)
  · by_cases hz : kf.mean 0 3 = 0
    · exact Or.inr (by rw [h.update_height hz]; exact hb)
    · left
      rw [h.update_covariance]
      exact posDef_measured hS (h.posDef rfl) (posDef_innovationCov hz)

/-! ### Gating -/

theorem gatingDistance_nonneg (h : Sound phase kf) (measurements : List (BoundingBox ℚ)) :
    ∀ d ∈ (kf.gatingDistance measurements).2, 0 ≤ d := by
  intro d hd
  obtain ⟨m, -, rfl⟩ := List.mem_map.mp hd
  rw [h.inv_projectCovariance]
  exact (posSemidef_congr h.posDef_innovation.inv.posSemidef _).diag_nonneg

end Sound

/-! ## Runs -/

/-- A filter started from a box with a height. -/
def Initiated (s : Phase × KalmanFilter ℚ) : Prop :=
  ∃ bbox : BoundingBox ℚ, bbox.height ≠ 0 ∧ s = (.idle, create.initiate bbox)

/-- A call: frames start with `Predict` and have at most one `Update`. -/
inductive Step : Phase × KalmanFilter ℚ → Phase × KalmanFilter ℚ → Prop where
  | predict (phase : Phase) (kf : KalmanFilter ℚ) : Step (phase, kf) (.predicted, kf.predict)
  | gatingDistance (phase : Phase) (kf : KalmanFilter ℚ) (measurements : List (BoundingBox ℚ)) :
      Step (phase, kf) (phase, (kf.gatingDistance measurements).1)
  | update (kf : KalmanFilter ℚ) (bbox : BoundingBox ℚ) (h : bbox.height ≠ 0) :
      Step (.predicted, kf) (.idle, kf.update bbox)

theorem sound_initiate {bbox : BoundingBox ℚ} (h : bbox.height ≠ 0) :
    Sound .idle (create.initiate bbox) := by
  have hdiag : (create.initiate bbox).covariance = diagonal fun i =>
      deviations (2 * stdWeightPosition * bbox.height) (10 * stdWeightVelocity * bbox.height) i *
        deviations (2 * stdWeightPosition * bbox.height) (10 * stdWeightVelocity * bbox.height) i := by
    ext i j
    by_cases hij : i = j
    · subst hij; simp [initiate]
    · simp [initiate, create, hij]
  refine ⟨?_, fun hp => Phase.noConfusion hp, Or.inr h, fun hc => by simp [initiate, create] at hc⟩
  rw [hdiag]
  exact PosSemidef.diagonal fun _ => mul_self_nonneg _

theorem Step.sound {s t : Phase × KalmanFilter ℚ} (hs : Sound s.1 s.2) (hst : Step s t) :
    Sound t.1 t.2 := by
  cases hst with
  | predict phase kf => exact hs.predict
  | gatingDistance phase kf measurements => exact hs.project
  | update kf bbox h => exact Sound.update hs h

theorem reachable_sound {s : Phase × KalmanFilter ℚ} (h : Reachable Initiated Step s) :
    Sound s.1 s.2 :=
  Reachable.invariant (I := fun s => Sound s.1 s.2)
    (fun _ ⟨_, hb, he⟩ => he ▸ sound_initiate hb) (fun _ _ hs hst => hst.sound hs) h

/--
**The covariance through every run of a filter.**

It stays symmetric and positive semidefinite and is positive definite after every prediction; what
`Update` and `GatingDistance` invert is the innovation covariance and is invertible; no gating
distance is negative.
-/
theorem reachable_covariance {phase : Phase} {kf : KalmanFilter ℚ}
    (h : Reachable Initiated Step (phase, kf)) :
    kf.covariance.IsSymm ∧ kf.covariance.PosSemidef ∧
      (phase = .predicted → kf.covariance.PosDef) ∧
      kf.project.projectCovariance
        = updateMat ℚ * kf.covariance * (updateMat ℚ)ᵀ + kf.innovationCov ∧
      IsUnit kf.project.projectCovariance ∧
      kf.project.projectCovariance * inv kf.project.projectCovariance = 1 ∧
      ∀ measurements, ∀ d ∈ (kf.gatingDistance measurements).2, 0 ≤ d := by
  have hs : Sound phase kf := reachable_sound h
  have hunit : IsUnit kf.project.projectCovariance := by
    rw [hs.project_eq]
    exact hs.posDef_innovation.isUnit
  refine ⟨?_, hs.posSemidef, hs.posDef, ?_, hunit, ?_, hs.gatingDistance_nonneg⟩
  · have hH := hs.posSemidef.isHermitian
    rwa [IsHermitian, conjTranspose_eq_transpose_of_trivial] at hH
  · rw [hs.project_eq]
    rfl
  · exact mul_inv ((isUnit_iff_isUnit_det _).mp hunit).ne_zero

/-- A box one high. -/
def sampleBox : BoundingBox ℚ where
  x := 1 / 2
  y := 1 / 2
  width := 1 / 2
  height := 1

/-- One frame: predict, gate, update, predict. -/
theorem reachable_covariance_sample :
    (((create.initiate sampleBox).predict.gatingDistance [sampleBox]).1.update
      sampleBox).predict.covariance.PosDef :=
  (reachable_covariance (((((Reachable.of_init ⟨sampleBox, by decide, rfl⟩).tail
    (.predict _ _)).tail (.gatingDistance _ _ [sampleBox])).tail
    (.update _ sampleBox (by decide))).tail (.predict _ _))).2.2.1 rfl

end KalmanFilter

end CambriconGst.Easytrack
