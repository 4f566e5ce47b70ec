import CambriconGst.Lib.LeastSquares
import CambriconGst.Properties.KalmanFilter

/-!
# What the Kalman filter computes

A box moves by the motion matrix and noise, and is measured with noise; both noises have the
deviations that the filter gives them. A motion that explains the measured boxes costs the squares of
its noises.

* `least_squares`: the mean is where the cheapest explanation ends, the covariance says what other
  ends cost, and the cost is the sum of the gating distances
-/

namespace CambriconGst.Easytrack.KalmanFilter

open Lib Matrix Lib.Covariance Lib.LeastSquares

/-! ## Explanations -/

/-- A filter, and the motions that explain what it was given: where they end and what they cost. -/
structure Tracked where
  phase : Phase
  kf : KalmanFilter ℚ
  /-- The gating distances of the boxes that it was updated with. -/
  cost : ℚ
  ends : Set ((Fin 8 → ℚ) × ℚ)

namespace Tracked

def Initiated (s : Tracked) : Prop :=
  ∃ bbox : BoundingBox ℚ, bbox.height ≠ 0 ∧ s = {
    phase := .idle
    kf := create.initiate bbox
    cost := 0
    ends := {e | ∃ noise, e =
      ((create.initiate bbox).state + initialStd bbox * noise, noise ⬝ᵥ noise)} }

/-- Frames start with `Predict` and have at most one `Update`. -/
inductive Step : Tracked → Tracked → Prop where
  | predict (s : Tracked) : Step s { s with
      phase := .predicted
      kf := s.kf.predict
      ends := moved (motionMat ℚ) s.kf.motionStd s.ends }
  | gatingDistance (s : Tracked) (measurements : List (BoundingBox ℚ)) :
      Step s { s with kf := (s.kf.gatingDistance measurements).1 }
  | update (s : Tracked) (bbox : BoundingBox ℚ) (hphase : s.phase = .predicted)
      (h : bbox.height ≠ 0) : Step s {
        phase := .idle
        kf := s.kf.update bbox
        cost := s.cost + (s.kf.gatingDistance [bbox]).2.sum
        ends := seen (updateMat ℚ) s.kf.innovationStd (bbox.toRow 0) s.ends }

end Tracked

/-! ## Rows and columns -/

theorem row_mul_transpose {m n : Nat} (x : Matrix (Fin 1) (Fin n) ℚ) (A : Matrix (Fin m) (Fin n) ℚ) :
    (x * Aᵀ) 0 = A *ᵥ x 0 := by
  ext i
  simp only [mul_apply, transpose_apply, mulVec, dotProduct, mul_comm]

theorem row_sub_mul_transpose {m n : Nat} (y : Matrix (Fin 1) (Fin m) ℚ)
    (x : Matrix (Fin 1) (Fin n) ℚ) (A : Matrix (Fin m) (Fin n) ℚ) :
    (y - x * Aᵀ) 0 = y 0 - A *ᵥ x 0 := by
  rw [← row_mul_transpose]
  rfl

theorem row_form {n : Nat} (x : Matrix (Fin 1) (Fin n) ℚ) (P : Matrix (Fin n) (Fin n) ℚ) :
    (x * P * xᵀ) 0 0 = form P (x 0) (x 0) := by
  rw [Matrix.mul_assoc, mul_apply]
  rfl

theorem innovationCov_eq (kf : KalmanFilter ℚ) :
    kf.innovationCov = diagonal (kf.innovationStd * kf.innovationStd) := by
  rw [innovationCov]
  congr 1
  ext i
  fin_cases i <;> rfl

theorem initiate_covariance (bbox : BoundingBox ℚ) :
    (create.initiate bbox).covariance = diagonal (initialStd bbox * initialStd bbox) := by
  ext i j
  by_cases hij : i = j
  · subst hij
    simp [initiate, initialStd]
  · simp [initiate, create, hij]

/-- The gating distance of a box is the form of the inverse at what it is off. -/
theorem Sound.gatingDistance_sum {phase : Phase} {kf : KalmanFilter ℚ} (h : Sound phase kf)
    (bbox : BoundingBox ℚ) : (kf.gatingDistance [bbox]).2.sum =
      form (innovation kf.covariance (updateMat ℚ) kf.innovationCov)⁻¹
        (bbox.toRow 0 - updateMat ℚ *ᵥ kf.mean 0) (bbox.toRow 0 - updateMat ℚ *ᵥ kf.mean 0) := by
  simp only [KalmanFilter.gatingDistance, List.map_cons, List.map_nil, List.sum_singleton,
    h.inv_projectCovariance]
  rw [row_form, h.project_eq, row_sub_mul_transpose]

namespace Tracked

/-! ## The invariant -/

structure Explained (s : Tracked) : Prop where
  sound : Sound s.phase s.kf
  best : Best (s.kf.mean 0) s.kf.covariance s.cost s.ends

variable {s t : Tracked}

theorem Explained.isSymm (hs : s.Explained) : s.kf.covariance.IsSymm := by
  have hH := hs.sound.posSemidef.isHermitian
  rwa [IsHermitian, conjTranspose_eq_transpose_of_trivial] at hH

theorem Explained.form_nonneg (hs : s.Explained) (u : Fin 8 → ℚ) :
    0 ≤ form s.kf.covariance u u := by
  have h := hs.sound.posSemidef.dotProduct_mulVec_nonneg u
  rwa [star_trivial] at h

theorem Explained.step (hs : s.Explained) (h : Step s t) : t.Explained := by
  cases h with
  | predict =>
    have hsound := hs.sound.predict
    refine ⟨hsound, ?_⟩
    have hunit : IsUnit (motionMat ℚ * s.kf.covariance * (motionMat ℚ)ᵀ
        + diagonal (s.kf.motionStd * s.kf.motionStd)) := (hsound.posDef rfl).isUnit
    have hbest := hs.best.moved hs.isSymm hs.form_nonneg hunit
    rwa [← row_mul_transpose] at hbest
  | gatingDistance measurements =>
    refine ⟨hs.sound.project, ?_⟩
    have hbest := hs.best
    simp only [KalmanFilter.gatingDistance, hs.sound.project_eq]
    exact hbest
  | update bbox hphase h =>
    have hpredicted : Sound .predicted s.kf := by
      rw [← hphase]
      exact hs.sound
    refine ⟨hpredicted.update h, ?_⟩
    have hS := hs.sound.posDef_innovation.isUnit
    have hmean : (s.kf.update bbox).mean 0 = s.kf.mean 0 + gain s.kf.covariance (updateMat ℚ)
        s.kf.innovationCov *ᵥ (bbox.toRow 0 - updateMat ℚ *ᵥ s.kf.mean 0) := by
      rw [hs.sound.update_mean, ← row_sub_mul_transpose, ← row_mul_transpose]
      rfl
    have hbest := hs.best.seen (z := bbox.toRow 0) hs.isSymm (d := s.kf.innovationStd)
      (by rwa [← innovationCov_eq])
    rw [← innovationCov_eq, ← hmean, ← hs.sound.update_covariance bbox,
      ← hs.sound.gatingDistance_sum] at hbest
    exact hbest

theorem explained_initiated (h : Initiated s) : s.Explained := by
  obtain ⟨bbox, hheight, rfl⟩ := h
  refine ⟨sound_initiate hheight, ?_⟩
  dsimp only
  rw [initiate_covariance]
  exact .of_diagonal _ _

theorem reachable_explained (h : Reachable Initiated Step s) : s.Explained :=
  h.invariant (fun _ => explained_initiated) fun _ _ hs hst => hs.step hst

/--
**The filter computes the least squares estimate.**

Through every run, the mean is the end of the cheapest motion that explains the boxes, and of no
other one as cheap. That motion costs the sum of the gating distances. From the mean, `P w` costs
what the covariance `P` says, and nothing costs less.
-/
theorem least_squares (h : Reachable Initiated Step s) :
    (s.kf.mean 0, s.cost) ∈ s.ends ∧
      (∀ e ∈ s.ends, s.cost ≤ e.2 ∧ (e.2 = s.cost → e.1 = s.kf.mean 0)) ∧
      (∀ w, (s.kf.mean 0 + s.kf.covariance *ᵥ w, s.cost + w ⬝ᵥ s.kf.covariance *ᵥ w) ∈ s.ends) ∧
      ∀ e ∈ s.ends, ∀ a : Fin 8 → ℚ,
        (a ⬝ᵥ (e.1 - s.kf.mean 0)) ^ 2 ≤ (a ⬝ᵥ s.kf.covariance *ᵥ a) * (e.2 - s.cost) := by
  have hs := reachable_explained h
  exact ⟨hs.best.mean_mem, fun e he => ⟨hs.best.cost_le hs.form_nonneg he,
    hs.best.unique hs.isSymm hs.form_nonneg he⟩, hs.best.mem,
    fun e he => hs.best.sq_le hs.isSymm hs.form_nonneg he⟩

/-- One frame: the box has not moved. -/
theorem least_squares_sample : ∃ s : Tracked,
    s.kf = (create.initiate sampleBox).predict.update sampleBox ∧ (s.kf.mean 0, s.cost) ∈ s.ends :=
  have hinit : Initiated _ := ⟨sampleBox, by decide, rfl⟩
  have hrun := ((Reachable.of_init hinit).tail (.predict _)).tail
    (.update _ sampleBox rfl (by decide))
  ⟨_, rfl, (least_squares hrun).1⟩

end Tracked

end CambriconGst.Easytrack.KalmanFilter
