import CambriconGst.Lib.Covariance
import Mathlib.LinearAlgebra.Matrix.SesquilinearForm
import Mathlib.Tactic.Linarith

/-!
# Least squares, step by step

What is known of a vector is the set of the values that it may have, each at a cost. The vector moves
and is measured, both with noise that costs its square.

* `Best`: a mean, a covariance and a cost that describe such a set
* `Best.moved`, `Best.seen`: how they change with the set
* `Best.sq_le`, `Best.unique`: what they say of it
-/

namespace CambriconGst.Lib.LeastSquares

open Matrix Lib.Covariance

variable {m n F : Type*} [Fintype m] [Fintype n]

/-! ## Forms -/

section Form

variable [CommRing F]

/-- The form of a matrix. -/
def form (P : Matrix n n F) (u v : n → F) : F :=
  u ⬝ᵥ P *ᵥ v

theorem form_add (P Q : Matrix n n F) (u v : n → F) : form (P + Q) u v = form P u v + form Q u v := by
  rw [form, add_mulVec, dotProduct_add]
  rfl

theorem form_comm {P : Matrix n n F} (hP : P.IsSymm) (u v : n → F) : form P u v = form P v u := by
  rw [form, form, dotProduct_mulVec, ← mulVec_transpose, hP.eq, dotProduct_comm]

theorem form_add_add {P : Matrix n n F} (hP : P.IsSymm) (u v : n → F) :
    form P (u + v) (u + v) = form P u u + 2 * form P u v + form P v v := by
  have hcomm := form_comm hP v u
  unfold form at hcomm ⊢
  rw [mulVec_add, add_dotProduct, dotProduct_add, dotProduct_add, hcomm]
  ring

theorem form_sub_sub {P : Matrix n n F} (hP : P.IsSymm) (u v : n → F) :
    form P (u - v) (u - v) = form P u u - 2 * form P u v + form P v v := by
  have hcomm := form_comm hP v u
  unfold form at hcomm ⊢
  rw [mulVec_sub, sub_dotProduct, dotProduct_sub, dotProduct_sub, hcomm]
  ring

theorem form_transform (A : Matrix m n F) (P : Matrix n n F) (u v : m → F) :
    form (A * P * Aᵀ) u v = form P (Aᵀ *ᵥ u) (Aᵀ *ᵥ v) := by
  rw [form, form, ← mulVec_mulVec, ← mulVec_mulVec, dotProduct_mulVec, ← mulVec_transpose]

variable [DecidableEq n]

theorem form_diagonal (d u v : n → F) : form (diagonal (d * d)) u v = (d * u) ⬝ᵥ (d * v) := by
  simp only [form, mulVec_diagonal, dotProduct, Pi.mul_apply]
  exact Finset.sum_congr rfl fun i _ => by ring

theorem diagonal_mulVec (d u : n → F) : diagonal (d * d) *ᵥ u = d * (d * u) := by
  ext i
  simp only [mulVec_diagonal, Pi.mul_apply, mul_assoc]

end Form

/-! ## What a vector may be -/

section Sets

variable [CommRing F]

/-- The vector is moved by `A`, and by noise of the deviations `d`. -/
def moved (A : Matrix m n F) (d : m → F) (E : Set ((n → F) × F)) : Set ((m → F) × F) :=
  {e | ∃ e₀ ∈ E, ∃ s : m → F, e = (A *ᵥ e₀.1 + d * s, e₀.2 + s ⬝ᵥ s)}

/-- `H` of the vector is measured to be `z`, with noise of the deviations `d`. -/
def seen (H : Matrix m n F) (d z : m → F) (E : Set ((n → F) × F)) : Set ((n → F) × F) :=
  {e | ∃ e₀ ∈ E, ∃ v : m → F, z = H *ᵥ e₀.1 + d * v ∧ e = (e₀.1, e₀.2 + v ⬝ᵥ v)}

variable [LE F]

/-- The cheapest value is the mean, and `P w` from it costs the form of `P` at `w` more. -/
structure Best (mean : n → F) (P : Matrix n n F) (c : F) (E : Set ((n → F) × F)) : Prop where
  le : ∀ e ∈ E, ∃ w, e.1 = mean + P *ᵥ w ∧ c + form P w w ≤ e.2
  mem : ∀ w, (mean + P *ᵥ w, c + form P w w) ∈ E

theorem Best.mean_mem {mean : n → F} {P : Matrix n n F} {c : F} {E : Set ((n → F) × F)}
    (hE : Best mean P c E) : (mean, c) ∈ E := by
  have h := hE.mem 0
  rwa [mulVec_zero, add_zero, form, zero_dotProduct, add_zero] at h

end Sets

section Steps

variable [Field F] {mean : n → F} {P : Matrix n n F} {c : F} {E : Set ((n → F) × F)}

omit [Fintype m] in
theorem isSymm_innovation (hP : P.IsSymm) {H : Matrix m n F} {N : Matrix m m F} (hN : N.IsSymm) :
    (innovation P H N).IsSymm := by
  rw [innovation, IsSymm, transpose_add, transpose_mul, transpose_mul, transpose_transpose, hP.eq,
    hN.eq, Matrix.mul_assoc]

variable [DecidableEq m]

theorem form_inv_mul {S : Matrix m m F} (hS : IsUnit S) (a y : m → F) :
    form S⁻¹ a (S *ᵥ y) = a ⬝ᵥ y := by
  rw [form, mulVec_mulVec, nonsing_inv_mul _ ((isUnit_iff_isUnit_det _).mp hS), one_mulVec]

theorem form_measured_self (hP : P.IsSymm) (H : Matrix m n F) (N : Matrix m m F) (w : n → F) :
    form (measured P H N) w w =
      form P w w - form (innovation P H N)⁻¹ (H *ᵥ P *ᵥ w) (H *ᵥ P *ᵥ w) := by
  have hgain : gain P H N * H * P = (H * P)ᵀ * (innovation P H N)⁻¹ * (H * P)ᵀᵀ := by
    rw [gain, transpose_transpose, transpose_mul, hP.eq]
    simp only [Matrix.mul_assoc]
  rw [measured, hgain, sub_eq_add_neg, form_add, form, form, neg_mulVec, dotProduct_neg,
    ← sub_eq_add_neg]
  congr 1
  exact (form_transform (H * P)ᵀ (innovation P H N)⁻¹ w w).trans
    (by rw [transpose_transpose, mulVec_mulVec])

/-- **A measurement, as a sum of squares**: of what is known after it, and of the surprise. -/
theorem form_measured (hP : P.IsSymm) {H : Matrix m n F} {N : Matrix m m F}
    (hN : N.IsSymm) (hS : IsUnit (innovation P H N)) (w : n → F) (y : m → F) :
    form P (w + Hᵀ *ᵥ y) (w + Hᵀ *ᵥ y) + form N y y = form (measured P H N) w w
      + form (innovation P H N)⁻¹ (H *ᵥ P *ᵥ w + innovation P H N *ᵥ y)
        (H *ᵥ P *ᵥ w + innovation P H N *ᵥ y) := by
  set S := innovation P H N with hSdef
  have hSsymm : S.IsSymm := isSymm_innovation hP hN
  have hcross : form P w (Hᵀ *ᵥ y) = (H *ᵥ P *ᵥ w) ⬝ᵥ y := by
    rw [form_comm hP, form, mulVec_transpose, ← dotProduct_mulVec, dotProduct_comm]
  have hown : form P (Hᵀ *ᵥ y) (Hᵀ *ᵥ y) + form N y y = form S y y := by
    rw [← form_transform, ← form_add]
    rfl
  have hsurprise : form S⁻¹ (S *ᵥ y) (S *ᵥ y) = form S y y := by
    rw [form_inv_mul hS, dotProduct_comm]
    rfl
  rw [form_add_add hP, form_add_add (hSsymm.inv), form_measured_self hP, ← hSdef, hcross,
    form_inv_mul hS, hsurprise, add_assoc, hown]
  ring

/-- Where a measurement leaves the vector. -/
theorem measured_mulVec {H : Matrix m n F} {N : Matrix m m F} (hS : IsUnit (innovation P H N))
    (w : n → F) (y : m → F) :
    gain P H N *ᵥ (H *ᵥ P *ᵥ w + innovation P H N *ᵥ y) + measured P H N *ᵥ w =
      P *ᵥ (w + Hᵀ *ᵥ y) := by
  have hgain : gain P H N *ᵥ innovation P H N *ᵥ y = P *ᵥ Hᵀ *ᵥ y := by
    rw [mulVec_mulVec, gain_mul_innovation hS, ← mulVec_mulVec]
  rw [mulVec_add, hgain, measured, sub_mulVec, mulVec_add, ← mulVec_mulVec, ← mulVec_mulVec]
  abel

variable [LinearOrder F] [IsStrictOrderedRing F]

/-- Noise, as the covariance at a vector that costs no more. -/
theorem exists_scaled (d s : n → F) :
    ∃ w, d * (d * w) = d * s ∧ (d * w) ⬝ᵥ (d * w) ≤ s ⬝ᵥ s := by
  refine ⟨s / d, ?_, Finset.sum_le_sum fun i _ => ?_⟩
  · ext i
    by_cases hd : d i = 0
    · simp [hd]
    · simp [mul_div_cancel₀ _ hd]
  · by_cases hd : d i = 0
    · simpa [hd] using mul_self_nonneg (s i)
    · simp [mul_div_cancel₀ _ hd]

theorem Best.of_diagonal [DecidableEq n] (mean d : n → F) :
    Best mean (diagonal (d * d)) 0 {e | ∃ s : n → F, e = (mean + d * s, s ⬝ᵥ s)} where
  le := by
    rintro e ⟨s, rfl⟩
    obtain ⟨w, hw, hle⟩ := exists_scaled d s
    refine ⟨w, ?_, ?_⟩
    · rw [diagonal_mulVec, hw]
    · rwa [zero_add, form_diagonal]
  mem w := ⟨d * w, by rw [diagonal_mulVec, zero_add, form_diagonal]⟩

/-- **The vector moves.** -/
theorem Best.moved (hE : Best mean P c E) (hP : P.IsSymm) (hnonneg : ∀ u, 0 ≤ form P u u)
    {A : Matrix m n F} {d : m → F} (hunit : IsUnit (A * P * Aᵀ + diagonal (d * d))) :
    Best (A *ᵥ mean) (A * P * Aᵀ + diagonal (d * d)) c (moved A d E) where
  le := by
    rintro e ⟨⟨x, cost⟩, he, s, rfl⟩
    obtain ⟨u, hu, hle⟩ := hE.le _ he
    dsimp only at hu hle
    set Q := A * P * Aᵀ + diagonal (d * d) with hQ
    obtain ⟨w, hw⟩ : ∃ w, Q *ᵥ w = A *ᵥ P *ᵥ u + d * s :=
      ⟨Q⁻¹ *ᵥ (A *ᵥ P *ᵥ u + d * s), by
        rw [mulVec_mulVec, mul_nonsing_inv _ ((isUnit_iff_isUnit_det _).mp hunit), one_mulVec]⟩
    refine ⟨w, ?_, ?_⟩
    · rw [hu, hw, mulVec_add, add_assoc]
    · -- what `u` and `s` cost over `w` is a sum of squares
      have hstate := hnonneg (u - Aᵀ *ᵥ w)
      have hnoise : 0 ≤ (s - d * w) ⬝ᵥ (s - d * w) := Finset.sum_nonneg fun i _ => mul_self_nonneg _
      have hcross : form Q w w = form P u (Aᵀ *ᵥ w) + s ⬝ᵥ (d * w) := by
        have hs : w ⬝ᵥ (d * s) = s ⬝ᵥ (d * w) := Finset.sum_congr rfl fun i _ => by
          simp only [Pi.mul_apply]
          ring
        rw [form, hw, dotProduct_add, hs, form_comm hP, form, mulVec_transpose, ← dotProduct_mulVec]
      have hsquare : form Q w w = form P (Aᵀ *ᵥ w) (Aᵀ *ᵥ w) + (d * w) ⬝ᵥ (d * w) := by
        rw [hQ, form_add, form_transform, form_diagonal]
      rw [form_sub_sub hP] at hstate
      rw [sub_dotProduct, dotProduct_sub, dotProduct_sub, dotProduct_comm (d * w) s] at hnoise
      linarith
  mem w := by
    refine ⟨_, hE.mem (Aᵀ *ᵥ w), d * w, Prod.ext ?_ ?_⟩
    · rw [mulVec_add, add_mulVec, diagonal_mulVec, ← mulVec_mulVec, ← mulVec_mulVec, add_assoc]
    · rw [form_add, form_transform, form_diagonal, add_assoc]

/-- **The vector is measured.** -/
theorem Best.seen (hE : Best mean P c E) (hP : P.IsSymm) {H : Matrix m n F} {d z : m → F}
    (hS : IsUnit (innovation P H (diagonal (d * d)))) :
    Best (mean + gain P H (diagonal (d * d)) *ᵥ (z - H *ᵥ mean)) (measured P H (diagonal (d * d)))
      (c + form (innovation P H (diagonal (d * d)))⁻¹ (z - H *ᵥ mean) (z - H *ᵥ mean))
      (seen H d z E) := by
  set N := diagonal (d * d) with hN
  have hsymm : N.IsSymm := isSymm_diagonal _
  have hsplit : ∀ w y, innovation P H N *ᵥ y + H *ᵥ P *ᵥ w = H *ᵥ P *ᵥ (w + Hᵀ *ᵥ y) + d * (d * y) := by
    intro w y
    rw [innovation, add_mulVec, hN, diagonal_mulVec, mulVec_add, mulVec_add, ← mulVec_mulVec,
      ← mulVec_mulVec]
    abel
  refine ⟨?_, fun w => ?_⟩
  · rintro e ⟨⟨x, cost⟩, he, v, hz, rfl⟩
    obtain ⟨u, hu, hle⟩ := hE.le _ he
    obtain ⟨y, hy, hyle⟩ := exists_scaled d v
    dsimp only at hu hle hz
    have hr : z - H *ᵥ mean = H *ᵥ P *ᵥ (u - Hᵀ *ᵥ y) + innovation P H N *ᵥ y := by
      rw [add_comm, hsplit, sub_add_cancel, hz, hu, hy, mulVec_add]
      abel
    refine ⟨u - Hᵀ *ᵥ y, ?_, ?_⟩
    · rw [hr, add_assoc, measured_mulVec hS, sub_add_cancel, hu]
    · have hcost := form_measured hP hsymm hS (u - Hᵀ *ᵥ y) y
      rw [sub_add_cancel, ← hr, hN, form_diagonal, ← hN] at hcost
      dsimp only
      linarith
  · obtain ⟨y, hy⟩ : ∃ y, innovation P H N *ᵥ y = z - H *ᵥ mean - H *ᵥ P *ᵥ w :=
      ⟨(innovation P H N)⁻¹ *ᵥ (z - H *ᵥ mean - H *ᵥ P *ᵥ w), by
        rw [mulVec_mulVec, mul_nonsing_inv _ ((isUnit_iff_isUnit_det _).mp hS), one_mulVec]⟩
    have hr : z - H *ᵥ mean = H *ᵥ P *ᵥ w + innovation P H N *ᵥ y := by
      rw [hy]
      abel
    refine ⟨_, hE.mem (w + Hᵀ *ᵥ y), d * y, ?_, Prod.ext ?_ ?_⟩
    · rw [mulVec_add, add_assoc, ← hsplit, hy]
      abel
    · rw [hr, add_assoc, measured_mulVec hS]
    · have hcost := form_measured hP hsymm hS w y
      rw [← hr, hN, form_diagonal, ← hN] at hcost
      dsimp only
      linarith

/-! ## What the covariance says -/

theorem Best.cost_le (hE : Best mean P c E) (hnonneg : ∀ u, 0 ≤ form P u u) {e : (n → F) × F}
    (he : e ∈ E) : c ≤ e.2 := by
  obtain ⟨w, -, hle⟩ := hE.le e he
  have := hnonneg w
  linarith

variable [DecidableEq n]

/-- **How far a value is from the mean**, in each direction, for what it costs. -/
theorem Best.sq_le (hE : Best mean P c E) (hP : P.IsSymm) (hnonneg : ∀ u, 0 ≤ form P u u)
    {e : (n → F) × F} (he : e ∈ E) (a : n → F) :
    (a ⬝ᵥ (e.1 - mean)) ^ 2 ≤ form P a a * (e.2 - c) := by
  obtain ⟨w, hw, hle⟩ := hE.le e he
  have hcauchy : form P a w ^ 2 ≤ form P a a * form P w w := by
    have h := LinearMap.BilinForm.apply_mul_apply_le_of_forall_zero_le P.toBilin'
      (fun u => by rw [toBilin'_apply']; exact hnonneg u) a w
    simp only [toBilin'_apply'] at h
    rw [sq]
    nth_rewrite 2 [form_comm hP]
    exact h
  rw [hw, add_sub_cancel_left]
  exact hcauchy.trans (mul_le_mul_of_nonneg_left (by linarith) (hnonneg a))

/-- Nothing else costs as little as the mean. -/
theorem Best.unique (hE : Best mean P c E) (hP : P.IsSymm) (hnonneg : ∀ u, 0 ≤ form P u u)
    {e : (n → F) × F} (he : e ∈ E) (hcost : e.2 = c) : e.1 = mean := by
  ext i
  have h := hE.sq_le hP hnonneg he (Pi.single i 1)
  rw [hcost, sub_self, mul_zero, single_one_dotProduct] at h
  exact sub_eq_zero.mp (pow_eq_zero_iff two_ne_zero |>.mp (le_antisymm h (sq_nonneg _)))

end Steps

end CambriconGst.Lib.LeastSquares
