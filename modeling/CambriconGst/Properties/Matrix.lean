import Mathlib.LinearAlgebra.Matrix.Block
import Mathlib.LinearAlgebra.Matrix.NonsingularInverse
import Mathlib.Tactic.FieldSimp
import Mathlib.Tactic.Ring
import CambriconGst.Easytrack.Matrix
import CambriconGst.Lib.FinLoop

/-!
# `Matrix::Inv` inverts

* `transpose_eq`: the transposition in place transposes
* `Decomposed`: what the decomposition has established before a column; for an invertible matrix it
  finds a pivot in every column
* `inv_eq`: the result is the inverse
-/

namespace CambriconGst.Easytrack

open Lib

variable {K : Type} {n : Nat}

/-! ## Transposition -/

theorem getPre_getNext (m n i : Nat) (h : i < m * n) :
    ((i % n * m + i / n) % m) * n + (i % n * m + i / n) / m = i := by
  have hd : i / n < m := Nat.div_lt_of_lt_mul (by rwa [Nat.mul_comm])
  have hm : 0 < m := Nat.zero_lt_of_lt hd
  rw [Nat.mul_comm (i % n) m, Nat.mul_add_mod, Nat.mod_eq_of_lt hd, Nat.mul_add_div hm,
    Nat.div_eq_of_lt hd, Nat.add_zero, Nat.mul_comm, Nat.div_add_mod]

/-- The index permutation of the transposition. -/
def nextPerm (m n : Nat) : Equiv.Perm (Fin (m * n)) where
  toFun := getNext m n
  invFun := getPre m n
  left_inv := fun i => Fin.ext (getPre_getNext m n i i.isLt)
  right_inv := fun i => Fin.ext (getPre_getNext n m i (i.isLt.trans_eq (Nat.mul_comm m n)))

theorem transpose_eq (m n : Nat) (mtx : Fin (m * n) → K) :
    transpose m n mtx = some fun k => mtx (getPre m n k) :=
  CycleLeader.permute_spec (nextPerm m n) mtx (List.nodup_finRange _) List.mem_finRange
    (Fintype.card_fin _).le

/-! ## Substitution -/

section Substitution

variable [Field K]

theorem finRange_sum (f : Fin n → K) : ((List.finRange n).map f).sum = ∑ i, f i :=
  (Fin.sum_univ_def f).symm

theorem finRange_reverse_sum (f : Fin n → K) : ((List.finRange n).reverse.map f).sum = ∑ i, f i := by
  rw [List.map_reverse, List.sum_reverse, finRange_sum]

theorem forward_spec (L : Matrix (Fin n) (Fin n) K) (b : Fin n → K) (i : Fin n) :
    (∑ j, if j < i then L i j * forward L b j else 0) + forward L b i = b i := by
  have key := foldl_finRange_invariant (n := n) (s := (0 : Fin n → K))
    (f := fun y i => Function.update y i
      ((List.finRange n).foldl (fun yi j => if j < i then yi - L i j * y j else yi) (b i)))
    (I := fun k y => ∀ i : Fin n, i.val < k →
      (∑ j, if j < i then L i j * y j else 0) + y i = b i)
    (fun i hi => absurd hi (Nat.not_lt_zero _)) ?_
  · exact key i i.isLt
  · intro k y hy i hi
    have hsum : ∀ {v : K}, (∑ j, if j < i then L i j * Function.update y k v j else 0)
        = ∑ j, if j < i then L i j * y j else 0 := by
      intro v
      refine Finset.sum_congr rfl fun j _ => ?_
      split
      · next hj =>
        rw [Function.update_of_ne]
        rintro rfl
        exact absurd hj (by rw [Fin.lt_def]; omega)
      · rfl
    rw [hsum]
    by_cases hik : i = k
    · subst hik
      rw [Function.update_self, foldl_sub_ite, finRange_sum, add_sub_cancel]
    · rw [Function.update_of_ne hik]
      exact hy i (by have := Fin.val_ne_of_ne hik; omega)

theorem backward_spec (U : Matrix (Fin n) (Fin n) K) (y : Fin n → K) (hU : ∀ i, U i i ≠ 0)
    (i : Fin n) :
    (∑ j, if i < j then U i j * backward U y j else 0) + U i i * backward U y i = y i := by
  have key := foldl_finRange_reverse_invariant (n := n) (s := (0 : Fin n → K))
    (f := fun x i => Function.update x i
      ((List.finRange n).reverse.foldl (fun xi j => if i < j then xi - U i j * x j else xi) (y i)
        / U i i))
    (I := fun k x => ∀ i : Fin n, k ≤ i.val →
      (∑ j, if i < j then U i j * x j else 0) + U i i * x i = y i)
    (fun i hi => absurd i.isLt (by omega)) ?_
  · exact key i (Nat.zero_le _)
  · intro k x hx i hi
    have hsum : ∀ {v : K}, (∑ j, if i < j then U i j * Function.update x k v j else 0)
        = ∑ j, if i < j then U i j * x j else 0 := by
      intro v
      refine Finset.sum_congr rfl fun j _ => ?_
      split
      · next hj =>
        rw [Function.update_of_ne]
        rintro rfl
        exact absurd hj (by rw [Fin.lt_def]; omega)
      · rfl
    rw [hsum]
    by_cases hik : i = k
    · subst hik
      rw [Function.update_self, foldl_sub_ite, finRange_reverse_sum, mul_div_cancel₀ _ (hU i),
        add_sub_cancel]
    · rw [Function.update_of_ne hik]
      exact hx i (by have := Fin.val_ne_of_ne hik; omega)

end Substitution

/-! ## Decomposition -/

section Decomposition

variable [Field K]

/-- The factors kept below the diagonal of the columns before `k`, with a unit diagonal. -/
def Lup.lowerBefore (s : Lup n K) (k : Nat) : Matrix (Fin n) (Fin n) K :=
  fun r j => if j.val < k ∧ j < r then s.A r j else if j = r then 1 else 0

/-- The rows before `k` of the upper factor, over the matrix still to decompose. -/
def Lup.upperBefore (s : Lup n K) (k : Nat) : Matrix (Fin n) (Fin n) K :=
  fun j c => if j ≤ c ∨ k ≤ c.val then s.A j c else 0

section Factors

variable {s : Lup n K} {k : Nat} {r j c : Fin n}

theorem Lup.lowerBefore_lt (hj : j.val < k) :
    s.lowerBefore k r j = if j < r then s.A r j else if j = r then 1 else 0 := by
  simp [Lup.lowerBefore, hj]

theorem Lup.lowerBefore_ge (hj : k ≤ j.val) :
    s.lowerBefore k r j = if j = r then 1 else 0 := by
  simp [Lup.lowerBefore, hj]

theorem Lup.upperBefore_lt (hj : j.val < k) :
    s.upperBefore k j c = if j ≤ c then s.A j c else 0 := by
  have : (j ≤ c ∨ k ≤ c.val) ↔ j ≤ c :=
    ⟨fun h => h.elim id fun hk => (hj.trans_le hk).le, Or.inl⟩
  simp [Lup.upperBefore, this]

theorem Lup.upperBefore_ge (hj : k ≤ j.val) :
    s.upperBefore k j c = if k ≤ c.val then s.A j c else 0 := by
  have : (j ≤ c ∨ k ≤ c.val) ↔ k ≤ c.val :=
    ⟨fun h => h.elim (fun hc => hj.trans hc) id, Or.inr⟩
  simp [Lup.upperBefore, this]

end Factors

/-- Before column `k`: the rows permuted so far are the product of the two. -/
structure Decomposed (A₀ : Matrix (Fin n) (Fin n) K) (k : Nat) (s : Lup n K) : Prop where
  perm : Function.Bijective s.P
  eq : ∀ r c, A₀ (s.P r) c = ∑ j, s.lowerBefore k r j * s.upperBefore k j c

theorem decomposed_zero (A₀ : Matrix (Fin n) (Fin n) K) :
    Decomposed A₀ 0 { A := A₀, P := id } where
  perm := Function.bijective_id
  eq := fun r c => by simp [Lup.lowerBefore, Lup.upperBefore]

/-- Exchanging two rows not decomposed yet. -/
theorem Decomposed.exchange {A₀ : Matrix (Fin n) (Fin n) K} {s : Lup n K} {i row : Fin n}
    (h : Decomposed A₀ i s) (hrow : i ≤ row) : Decomposed A₀ i (s.exchange i row) := by
  have hlow : ∀ j : Fin n, j.val < i.val → Equiv.swap i row j = j := fun j hj =>
    Equiv.swap_apply_of_ne_of_ne (Fin.ne_of_lt hj) (Fin.ne_of_lt (hj.trans_le hrow))
  have hhigh : ∀ j : Fin n, i.val ≤ j.val → i.val ≤ (Equiv.swap i row j).val := by
    intro j hj
    rw [Equiv.swap_apply_def]
    split
    · exact hrow
    · split
      · exact le_refl i.val
      · exact hj
  refine ⟨h.perm.comp (Equiv.swap i row).bijective, fun r c => ?_⟩
  show A₀ (s.P (Equiv.swap i row r)) c = _
  rw [h.eq, ← Equiv.sum_comp (Equiv.swap i row)]
  refine Finset.sum_congr rfl fun j _ => ?_
  by_cases hj : j.val < i.val
  · have hlt : j < Equiv.swap i row r ↔ j < r := by
      by_cases hr : r.val < i.val
      · rw [hlow r hr]
      · have := hhigh r (not_lt.mp hr)
        exact iff_of_true (lt_of_lt_of_le hj this) (lt_of_lt_of_le hj (not_lt.mp hr))
    have heq : j = Equiv.swap i row r ↔ j = r := by
      rw [← (Equiv.swap i row).injective.eq_iff (a := j) (b := r), hlow j hj]
    rw [hlow j hj, Lup.lowerBefore_lt hj, Lup.lowerBefore_lt hj, Lup.upperBefore_lt hj,
      Lup.upperBefore_lt hj]
    simp only [hlt, heq, Lup.exchange, hlow j hj]
  · have hij := not_lt.mp hj
    rw [Lup.lowerBefore_ge hij, Lup.lowerBefore_ge (hhigh j hij), Lup.upperBefore_ge hij,
      Lup.upperBefore_ge (hhigh j hij)]
    simp only [(Equiv.swap i row).injective.eq_iff, Lup.exchange]

/-- What elimination moves from row `r` into the factor. -/
def pivotPart (A : Matrix (Fin n) (Fin n) K) (i r c : Fin n) : K :=
  if i < r ∧ i ≤ c then A r i / A i i * A i c else 0

/-- One term of the product, before and after a column is eliminated. -/
theorem eliminate_term {s s' : Lup n K} {i : Fin n} (hs : s'.A = eliminate s.A i)
    (hpivot : s.A i i ≠ 0) (r j c : Fin n) :
    s'.lowerBefore (i + 1) r j * s'.upperBefore (i + 1) j c
      = s.lowerBefore i r j * s.upperBefore i j c +
        ((if j = i then pivotPart s.A i r c else 0) - if j = r then pivotPart s.A i r c else 0) := by
  rcases lt_trichotomy j i with hj | rfl | hj
  -- earlier columns and rows are left alone
  · have hjv : j.val < i.val := hj
    have hr : (if j = r then pivotPart s.A i r c else 0) = 0 := by
      split
      · next he => exact if_neg fun h => absurd (he ▸ hj) (not_lt.mpr h.1.le)
      · rfl
    rw [hr, if_neg hj.ne, sub_zero, add_zero, Lup.lowerBefore_lt hjv, Lup.upperBefore_lt hjv,
      Lup.lowerBefore_lt (by omega), Lup.upperBefore_lt (by omega), hs]
    simp [eliminate, hj.ne, hj.not_gt]
  -- the pivot column keeps the factors, the pivot row stays
  · have hr : (if j = r then pivotPart s.A j r c else 0) = 0 := by
      split
      · next he => exact if_neg fun h => absurd h.1 (he ▸ lt_irrefl j)
      · rfl
    rw [hr, if_pos rfl, sub_zero, Lup.lowerBefore_ge (le_refl _), Lup.upperBefore_ge (le_refl _),
      Lup.lowerBefore_lt (by omega), Lup.upperBefore_lt (by omega), hs]
    rcases lt_trichotomy j r with h | rfl | h
    · by_cases hc : j ≤ c <;> simp [eliminate, pivotPart, h, h.ne, hc]
    · by_cases hc : j ≤ c <;> simp [eliminate, pivotPart, hc]
    · simp [eliminate, pivotPart, h.not_gt, h.ne']
  -- later rows lose their part
  · have hjv : i.val + 1 ≤ j.val := hj
    have hjv' : i.val ≤ j.val := hj.le
    rw [if_neg hj.ne', zero_sub, Lup.lowerBefore_ge hjv, Lup.upperBefore_ge hjv,
      Lup.lowerBefore_ge hjv', Lup.upperBefore_ge hjv', hs]
    by_cases hr : j = r
    · subst hr
      have hmoved : ∀ d : Fin n, i < d → eliminate s.A i j d
          = s.A j d - s.A i d * (s.A j i / s.A i i) := fun d hd => by
        simp [eliminate, hj, hd.ne', hd]
      rw [if_pos rfl, if_pos rfl, one_mul, one_mul, pivotPart]
      rcases lt_trichotomy i c with hc | rfl | hc
      · have hcv : i.val + 1 ≤ c.val := hc
        have hcv' : i.val ≤ c.val := hc.le
        rw [if_pos hcv, if_pos hcv', if_pos ⟨hj, hc.le⟩, hmoved c hc]
        ring
      · rw [if_neg (by omega), if_pos (le_refl _), if_pos ⟨hj, le_refl _⟩,
          div_mul_cancel₀ _ hpivot, add_neg_cancel]
      · have hcv : c.val < i.val := hc
        rw [if_neg (by omega), if_neg (by omega), if_neg fun h => absurd hc (not_lt.mpr h.2),
          neg_zero, add_zero]
    · simp [hr]

/-- Eliminating below a nonzero pivot. -/
theorem Decomposed.eliminate {A₀ : Matrix (Fin n) (Fin n) K} {s s' : Lup n K} {i : Fin n}
    (h : Decomposed A₀ i s) (hA : s'.A = Easytrack.eliminate s.A i) (hP : s'.P = s.P)
    (hpivot : s.A i i ≠ 0) : Decomposed A₀ (i + 1) s' := by
  refine ⟨hP ▸ h.perm, fun r c => ?_⟩
  rw [hP, h.eq, Finset.sum_congr rfl fun j _ => eliminate_term hA hpivot r j c,
    Finset.sum_add_distrib, Finset.sum_sub_distrib, Finset.sum_ite_eq', Finset.sum_ite_eq',
    if_pos (Finset.mem_univ _), if_pos (Finset.mem_univ _), sub_self, add_zero]

/-- Before column `k` the product is the whole matrix, rows permuted. -/
theorem Decomposed.submatrix_eq {A₀ : Matrix (Fin n) (Fin n) K} {s : Lup n K} {k : Nat}
    (h : Decomposed A₀ k s) :
    A₀.submatrix (Equiv.ofBijective s.P h.perm) id = s.lowerBefore k * s.upperBefore k := by
  ext r c
  rw [Matrix.mul_apply]
  exact h.eq r c

theorem Decomposed.det_eq_zero {A₀ : Matrix (Fin n) (Fin n) K} {s : Lup n K} {k : Nat}
    (h : Decomposed A₀ k s) (hU : (s.upperBefore k).det = 0) : A₀.det = 0 := by
  have hdet := congrArg Matrix.det h.submatrix_eq
  rw [Matrix.det_permute, Matrix.det_mul, hU, mul_zero] at hdet
  rcases Int.units_eq_one_or (Equiv.Perm.sign (Equiv.ofBijective s.P h.perm)) with hs | hs <;>
    simpa [hs] using hdet

/-- A column without a pivot makes the matrix singular. -/
theorem Decomposed.det_eq_zero_of_column {A₀ : Matrix (Fin n) (Fin n) K} {s : Lup n K} {i : Fin n}
    (h : Decomposed A₀ i s) (hcol : ∀ j, i ≤ j → s.A j i = 0) : A₀.det = 0 := by
  refine h.det_eq_zero ?_
  rw [Matrix.twoBlockTriangular_det _ (fun j => j < i) fun r hr c hc => ?_]
  · have hzero : (Matrix.toSquareBlockProp (s.upperBefore i) fun j => ¬j < i).det = 0 := by
      refine Matrix.det_eq_zero_of_column_eq_zero ⟨i, lt_irrefl i⟩ fun r => ?_
      show s.upperBefore i r.1 i = 0
      have hr : i ≤ r.1 := not_lt.mp r.2
      rw [Lup.upperBefore_ge hr, if_pos (le_refl _), hcol r.1 hr]
    rw [hzero, mul_zero]
  · have hr' : i.val ≤ r.val := not_lt.mp hr
    rw [Lup.upperBefore_ge hr', if_neg (not_le.mpr (Fin.lt_def.mp hc))]

/-- Before the last column the factors are those the decomposition returns. -/
theorem Lup.lowerBefore_last (s : Lup n K) : s.lowerBefore (n - 1) = s.lower := by
  ext r j
  have : (j.val < n - 1 ∧ j < r) ↔ j < r :=
    ⟨fun h => h.2, fun h => ⟨by have := r.isLt; rw [Fin.lt_def] at h; omega, h⟩⟩
  simp only [Lup.lowerBefore, Lup.lower, this]

theorem Lup.upperBefore_last (s : Lup n K) : s.upperBefore (n - 1) = s.upper := by
  ext j c
  have : (j ≤ c ∨ n - 1 ≤ c.val) ↔ j ≤ c :=
    ⟨fun h => h.elim id fun hc => by have := j.isLt; rw [Fin.le_def]; omega, Or.inl⟩
  simp only [Lup.upperBefore, Lup.upper, this]

/-! ### Triangular factors -/

theorem Lup.lower_mulVec (s : Lup n K) (y : Fin n → K) (i : Fin n) :
    s.lower.mulVec y i = (∑ j, if j < i then s.lower i j * y j else 0) + y i := by
  have hterm : ∀ j, s.lower i j * y j
      = (if j < i then s.lower i j * y j else 0) + if j = i then y j else 0 := by
    intro j
    by_cases hlt : j < i
    · rw [if_pos hlt, if_neg hlt.ne, add_zero]
    · by_cases he : j = i <;> simp [Lup.lower, hlt, he]
  show ∑ j, s.lower i j * y j = _
  rw [Finset.sum_congr rfl fun j _ => hterm j, Finset.sum_add_distrib, Finset.sum_ite_eq',
    if_pos (Finset.mem_univ i)]

theorem Lup.upper_mulVec (s : Lup n K) (x : Fin n → K) (i : Fin n) :
    s.upper.mulVec x i = (∑ j, if i < j then s.upper i j * x j else 0) + s.upper i i * x i := by
  have hterm : ∀ j, s.upper i j * x j
      = (if i < j then s.upper i j * x j else 0) + if j = i then s.upper i i * x i else 0 := by
    intro j
    by_cases hlt : i < j
    · rw [if_pos hlt, if_neg hlt.ne', add_zero]
    · by_cases he : j = i
      · simp [he]
      · have hji : ¬i ≤ j := fun hle => hlt (lt_of_le_of_ne hle (Ne.symm he))
        simp [Lup.upper, hji, hlt, he]
  show ∑ j, s.upper i j * x j = _
  rw [Finset.sum_congr rfl fun j _ => hterm j, Finset.sum_add_distrib, Finset.sum_ite_eq',
    if_pos (Finset.mem_univ i)]

variable [LinearOrder K]

/-- The row the scan reports holds the value it reports. -/
theorem pivotScan_row {A : Matrix (Fin n) (Fin n) K} {i : Fin n} :
    i ≤ (pivotScan A i).2 ∧ ((pivotScan A i).1 = 0 ∨ |A (pivotScan A i).2 i| = (pivotScan A i).1) := by
  refine List.foldlRecOn (motive := fun b : K × Fin n => i ≤ b.2 ∧ (b.1 = 0 ∨ |A b.2 i| = b.1)) _ _
    ⟨le_refl i, Or.inl rfl⟩ fun best h j _ => ?_
  by_cases hj : i ≤ j ∧ |A j i| > best.1
  · simp only [if_pos hj]
    exact ⟨hj.1, Or.inr trivial⟩
  · simp only [if_neg hj]
    exact h

variable [IsStrictOrderedRing K]

/-- With a pivot in the column no regularisation happens. -/
theorem choosePivot_eq {A : Matrix (Fin n) (Fin n) K} {i : Fin n} (h : (pivotScan A i).1 ≠ 0) :
    choosePivot A i = (A, (pivotScan A i).2) := by
  rw [choosePivot, if_neg h]

/-- **One column of an invertible matrix**: there is a pivot, and the column is decomposed. -/
theorem Decomposed.step {A₀ : Matrix (Fin n) (Fin n) K} {s : Lup n K} {i : Fin n}
    (h : Decomposed A₀ i s) (hdet : A₀.det ≠ 0) :
    (pivotScan s.A i).1 ≠ 0 ∧ Decomposed A₀ (i + 1) (lupStep s i) := by
  have hp : (pivotScan s.A i).1 ≠ 0 := by
    intro hp
    refine hdet (h.det_eq_zero_of_column fun j hj => ?_)
    exact abs_eq_zero.mp (le_antisymm (hp ▸ pivotScan_le s.A i hj) (abs_nonneg _))
  obtain ⟨hrow, hval⟩ := pivotScan_row (A := s.A) (i := i)
  refine ⟨hp, ?_⟩
  have hpivot : (s.exchange i (pivotScan s.A i).2).A i i ≠ 0 := by
    show s.A (Equiv.swap i _ i) i ≠ 0
    rw [Equiv.swap_apply_left]
    intro hz
    rw [hz, abs_zero] at hval
    exact hp (hval.elim id Eq.symm)
  have hstep : lupStep s i = { s.exchange i (pivotScan s.A i).2 with
      A := Easytrack.eliminate (s.exchange i (pivotScan s.A i).2).A i } := by
    simp only [lupStep, choosePivot_eq hp]
  rw [hstep]
  exact (h.exchange hrow).eliminate rfl rfl hpivot

theorem lupLoop_decomposed {A₀ : Matrix (Fin n) (Fin n) K} (hdet : A₀.det ≠ 0) :
    Decomposed A₀ (n - 1) (lupLoop A₀) :=
  foldl_finRange_invariant (I := fun k s => Decomposed A₀ k s) (decomposed_zero A₀)
    fun i _ h => (Decomposed.step (i := i.castLE (Nat.sub_le n 1)) h hdet).2

theorem upper_diag_ne_zero {A₀ : Matrix (Fin n) (Fin n) K} (hdet : A₀.det ≠ 0) (i : Fin n) :
    (lupLoop A₀).upper i i ≠ 0 := by
  intro hz
  refine hdet ((lupLoop_decomposed hdet).det_eq_zero ?_)
  have htri : (lupLoop A₀).upper.IsUpperTriangular := fun r c hrc => if_neg (not_le.mpr hrc)
  rw [Lup.upperBefore_last, Matrix.det_of_isUpperTriangular htri]
  exact Finset.prod_eq_zero (Finset.mem_univ i) hz

/-! ## Inversion -/

/-- The substitutions solve the system. -/
theorem mulVec_solveUnits {A : Matrix (Fin n) (Fin n) K} (hdet : A.det ≠ 0) (i : Fin n) :
    A.mulVec (solveUnits A i) = fun j => if j = i then 1 else 0 := by
  have hD := lupLoop_decomposed hdet
  funext j
  obtain ⟨r, rfl⟩ := hD.perm.2 j
  set s := lupLoop A
  set y := forward s.lower fun r => if s.P r = i then (1 : K) else 0
  have hU : s.upper.mulVec (backward s.upper y) = y := by
    funext k
    rw [Lup.upper_mulVec, backward_spec s.upper y (upper_diag_ne_zero hdet)]
  have hL : s.lower.mulVec y r = if s.P r = i then 1 else 0 := by
    rw [Lup.lower_mulVec, forward_spec]
  have hA := hD.submatrix_eq
  rw [Lup.lowerBefore_last, Lup.upperBefore_last] at hA
  calc A.mulVec (solveUnits A i) (s.P r)
      = (A.submatrix (Equiv.ofBijective s.P hD.perm) id).mulVec (backward s.upper y) r := rfl
    _ = s.lower.mulVec (s.upper.mulVec (backward s.upper y)) r := by
        rw [hA, Matrix.mulVec_mulVec]
    _ = if s.P r = i then 1 else 0 := by rw [hU, hL]

/-- The transposition puts the solution for unit vector `j` in column `j`. -/
theorem inv_apply (A : Matrix (Fin n) (Fin n) K) (i j : Fin n) : inv A i j = solveUnits A j i := by
  have h : solveInverse A = some _ := transpose_eq n n _
  have hpre : getPre n n (finProdFinEquiv (i, j)) = finProdFinEquiv (j, i) := by
    refine Fin.ext ?_
    have hi := i.isLt
    have hj := j.isLt
    show ((j.val + n * i.val) % n) * n + (j.val + n * i.val) / n = i.val + n * j.val
    rw [Nat.add_mul_mod_self_left, Nat.mod_eq_of_lt hj, Nat.add_mul_div_left _ _ (by omega),
      Nat.div_eq_of_lt hj, Nat.zero_add, Nat.mul_comm, Nat.add_comm]
  have hsymm : finProdFinEquiv.symm (finProdFinEquiv (j, i)) = (j, i) := Equiv.symm_apply_apply _ _
  simp only [inv, h, hpre]
  rw [show (finProdFinEquiv (j, i)).divNat = j from congrArg Prod.fst hsymm,
    show (finProdFinEquiv (j, i)).modNat = i from congrArg Prod.snd hsymm]

/-- **`Inv` returns the inverse of an invertible matrix.** -/
theorem mul_inv {A : Matrix (Fin n) (Fin n) K} (hdet : A.det ≠ 0) : A * inv A = 1 := by
  ext i j
  have h := congrFun (mulVec_solveUnits hdet j) i
  rw [Matrix.mul_apply, Matrix.one_apply]
  simpa only [Matrix.mulVec, dotProduct, inv_apply] using h

theorem inv_eq {A : Matrix (Fin n) (Fin n) K} (hdet : A.det ≠ 0) : inv A = A⁻¹ :=
  (Matrix.inv_eq_right_inv (mul_inv hdet)).symm

end Decomposition

end CambriconGst.Easytrack
