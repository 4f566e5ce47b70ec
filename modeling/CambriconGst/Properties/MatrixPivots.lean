import CambriconGst.Properties.Matrix

/-!
# The pivots of the decomposition

* `inv_exact`: for an invertible matrix there is a pivot in each column, nothing is regularised, and
  the result is the inverse
* `trailing_lupStep`: a pass of the loop, on the rows and columns that are left
* `upper_diag_ne_zero_iff`: the loop does not look at the last pivot, so only some of the singular
  matrices are repaired
-/

namespace CambriconGst.Easytrack

open Lib

variable {K : Type} {n : Nat} [Field K] [LinearOrder K]

/-! ## Invertible matrices -/

section Invertible

variable [IsStrictOrderedRing K]

/-- The state of `LupDescomposition` after `k` passes of its loop. -/
def lupAfter (A : Matrix (Fin n) (Fin n) K) (k : Nat) : Lup n K :=
  ((List.finRange (n - 1)).take k).foldl (fun s i => lupStep s (i.castLE (Nat.pred_le n)))
    { A := A, P := id }

/-- `u`, what the pass for column `i` divides by. -/
def pivotOf (s : Lup n K) (i : Fin n) : K :=
  let (A, row) := choosePivot s.A i
  (Lup.exchange { s with A := A } i row).A i i

theorem lupAfter_succ (A : Matrix (Fin n) (Fin n) K) (i : Fin (n - 1)) :
    lupAfter A (i + 1) = lupStep (lupAfter A i) (i.castLE (Nat.sub_le n 1)) := by
  have hlt : i.val < (List.finRange (n - 1)).length := by
    rw [List.length_finRange]
    exact i.isLt
  unfold lupAfter
  rw [List.take_succ_eq_append_getElem hlt, List.foldl_append, List.getElem_finRange]
  rfl

theorem lupAfter_decomposed {A : Matrix (Fin n) (Fin n) K} (hdet : A.det ≠ 0) {k : Nat}
    (hk : k ≤ n - 1) : Decomposed A k (lupAfter A k) := by
  induction k with
  | zero => exact decomposed_zero A
  | succ k ih =>
    have h := ih (Nat.le_of_succ_le hk)
    rw [lupAfter_succ A ⟨k, hk⟩]
    exact (Decomposed.step (i := Fin.castLE (Nat.sub_le n 1) ⟨k, hk⟩) h hdet).2

theorem pivotOf_eq (s : Lup n K) (i : Fin n) :
    pivotOf s i = (choosePivot s.A i).1 (choosePivot s.A i).2 i :=
  congrFun (congrArg (choosePivot s.A i).1 (Equiv.swap_apply_left i _)) i

theorem pivotOf_ne_zero {s : Lup n K} {i : Fin n} (h : (pivotScan s.A i).1 ≠ 0) :
    pivotOf s i ≠ 0 := by
  intro hzero
  rw [pivotOf_eq, choosePivot_eq h] at hzero
  rcases (pivotScan_row (A := s.A) (i := i)).2 with hp | hp
  · exact h hp
  · exact h (hp.symm.trans (abs_eq_zero.mpr hzero))

/--
**`Inv` of an invertible matrix is its inverse from both sides**, and on the way nothing is
regularised and neither the elimination nor the substitution divides by zero.
-/
theorem inv_exact (A : Matrix (Fin n) (Fin n) K) (hA : IsUnit A) :
    A * inv A = 1 ∧ inv A * A = 1 ∧
      (∀ k : Fin (n - 1), let i := k.castLE (Nat.sub_le n 1)
        (choosePivot (lupAfter A k).A i).1 = (lupAfter A k).A ∧
          pivotOf (lupAfter A k) i ≠ 0) ∧
      ∀ i, (lupLoop A).upper i i ≠ 0 := by
  have hdet : A.det ≠ 0 := ((Matrix.isUnit_iff_isUnit_det A).mp hA).ne_zero
  have hmul : A * inv A = 1 := mul_inv hdet
  refine ⟨hmul, mul_eq_one_comm.mp hmul, fun k => ?_, upper_diag_ne_zero hdet⟩
  have hscan := (Decomposed.step (i := k.castLE (Nat.sub_le n 1))
    (lupAfter_decomposed hdet k.isLt.le) hdet).1
  exact ⟨congrArg Prod.fst (choosePivot_eq hscan), pivotOf_ne_zero hscan⟩

/-- Without the exchange of the rows the first pivot is zero. -/
theorem inv_exact_exchange :
    !![0, 1; 1, (0 : ℚ)] * inv !![0, 1; 1, 0] = 1 :=
  (inv_exact _ ((Matrix.isUnit_iff_isUnit_det _).mpr (by simp [Matrix.det_fin_two]))).1

end Invertible

/-! ## The scan and the repair -/

section Eliminate

variable {F : Type} {m : Nat} [Field F] {A : Matrix (Fin m) (Fin m) F} {i j c : Fin m}

theorem eliminate_below (hj : i < j) (hc : i < c) :
    eliminate A i j c = A j c - A i c * (A j i / A i i) := by
  rw [eliminate, if_pos hj, if_neg hc.ne', if_pos hc]

theorem eliminate_above (hj : j ≤ i) : eliminate A i j c = A j c := by
  rw [eliminate, if_neg (not_lt.mpr hj)]

end Eliminate

section Scan

variable {A : Matrix (Fin n) (Fin n) K} {i j : Fin n}

/-- The rows before the one that the scan reports hold less. -/
theorem pivotScan_lt (hij : i ≤ j) (hj : j < (pivotScan A i).2) : |A j i| < (pivotScan A i).1 := by
  have key := foldl_finRange_invariant (n := n) (s := ((0 : K), i))
    (f := fun best j => if i ≤ j ∧ |A j i| > best.1 then (|A j i|, j) else best)
    (I := fun k best => (best.2 = i ∨ best.2.val < k) ∧
      ∀ j : Fin n, j.val < k → i ≤ j → |A j i| ≤ best.1 ∧ (j < best.2 → |A j i| < best.1))
    ⟨.inl rfl, fun j hj => absurd hj (Nat.not_lt_zero _)⟩ ?_
  · exact (key.2 j j.isLt hij).2 hj
  · rintro k best ⟨hbest, hrows⟩
    by_cases hk : i ≤ k ∧ |A k i| > best.1
    · rw [if_pos hk]
      refine ⟨.inr (Nat.lt_succ_self _), fun j hj hij => ?_⟩
      rcases Nat.lt_succ_iff_lt_or_eq.mp hj with hlt | heq
      · have hless := (hrows j hlt hij).1.trans_lt hk.2
        exact ⟨hless.le, fun _ => hless⟩
      · obtain rfl := Fin.ext heq
        exact ⟨le_refl _, fun hlt => absurd hlt (lt_irrefl _)⟩
    · rw [if_neg hk]
      refine ⟨hbest.imp_right fun h => h.trans (Nat.lt_succ_self _), fun j hj hij => ?_⟩
      rcases Nat.lt_succ_iff_lt_or_eq.mp hj with hlt | heq
      · exact hrows j hlt hij
      · obtain rfl := Fin.ext heq
        refine ⟨not_lt.mp fun hlt => hk ⟨hij, hlt⟩, fun hlt => ?_⟩
        rcases hbest with rfl | hbest
        · exact absurd hlt (not_lt.mpr hij)
        · exact absurd hlt (not_lt.mpr (Fin.le_def.mpr hbest.le))

variable [IsStrictOrderedRing K]

theorem pivotScan_eq_zero_iff : (pivotScan A i).1 = 0 ↔ ∀ j, i ≤ j → A j i = 0 := by
  constructor
  · intro h j hij
    exact abs_eq_zero.mp (le_antisymm (h ▸ pivotScan_le A i hij) (abs_nonneg _))
  · intro h
    obtain ⟨hrow, hval | hval⟩ := pivotScan_row (A := A) (i := i)
    · exact hval
    · rw [← hval, h _ hrow, abs_zero]

/-- A column of zeros gets its pivot on the diagonal, in one go. -/
theorem choosePivot_of_zero (h : ∀ j, i ≤ j → A j i = 0) :
    choosePivot A i = (regularise A i, i) := by
  have hzero : (pivotScan A i).1 = 0 := pivotScan_eq_zero_iff.mpr h
  have hne := pivotScan_regularise hzero
  rw [choosePivot, if_pos hzero, choosePivot_eq hne]
  obtain ⟨hrow, hval⟩ := pivotScan_row (A := regularise A i) (i := i)
  have hdiag : (pivotScan (regularise A i) i).2 = i := by
    by_contra hother
    have hbelow : regularise A i (pivotScan (regularise A i) i).2 i = 0 := by
      rw [regularise, if_neg fun h => hother h.1, h _ hrow]
    rw [hbelow, abs_zero] at hval
    exact hne (hval.elim id Eq.symm)
  rw [hdiag]

/-- There is a pivot at the end of the `do` loop, and only the diagonal may have changed. -/
theorem choosePivot_spec (A : Matrix (Fin n) (Fin n) K) (i : Fin n) :
    i ≤ (choosePivot A i).2 ∧ (choosePivot A i).1 (choosePivot A i).2 i ≠ 0 ∧
      ∀ r c, r ≠ i → (choosePivot A i).1 r c = A r c := by
  by_cases hscan : (pivotScan A i).1 = 0
  · have hzero := pivotScan_eq_zero_iff.mp hscan
    rw [choosePivot_of_zero hzero]
    refine ⟨le_refl i, ?_, fun r c hr => if_neg fun h => hr h.1⟩
    show regularise A i i i ≠ 0
    rw [regularise, if_pos ⟨rfl, rfl⟩, hzero i (le_refl i)]
    norm_num
  · obtain ⟨hrow, hval⟩ := pivotScan_row (A := A) (i := i)
    rw [choosePivot_eq hscan]
    exact ⟨hrow, abs_ne_zero.mp ((hval.resolve_left hscan).trans_ne hscan), fun r c _ => rfl⟩

end Scan

/-! ## What is left of the matrix -/

section Trailing

/-- The first of the rows with the largest element in the first column. -/
def FirstLargest {m : Nat} (T : Matrix (Fin (m + 1)) (Fin (m + 1)) K) (r : Fin (m + 1)) : Prop :=
  (∀ j, |T j 0| ≤ |T r 0|) ∧ ∀ j < r, |T j 0| < |T r 0|

/-- The Schur complement of the element of the first column in row `r`, which is exchanged. -/
def schurComplement {m : Nat} (T : Matrix (Fin (m + 2)) (Fin (m + 2)) K) (r : Fin (m + 2)) :
    Matrix (Fin (m + 1)) (Fin (m + 1)) K :=
  fun j c => T (Equiv.swap 0 r j.succ) c.succ
    - T r c.succ * (T (Equiv.swap 0 r j.succ) 0 / T r 0)

/--
The matrix keeps a last element: a first column of zeros is dropped together with the first row, and
any other is eliminated by the first of its largest elements.
-/
def KeepsLast : (m : Nat) → Matrix (Fin (m + 1)) (Fin (m + 1)) K → Prop
  | 0, T => T 0 0 ≠ 0
  | m + 1, T =>
    (∀ j, T j 0 = 0) ∧ KeepsLast m (T.submatrix Fin.succ Fin.succ) ∨
      ∃ r, T r 0 ≠ 0 ∧ FirstLargest T r ∧ KeepsLast m (schurComplement T r)

variable {m k : Nat} {T : Matrix (Fin (m + 2)) (Fin (m + 2)) K} {r r' : Fin (m + 2)}

theorem FirstLargest.unique (h : FirstLargest T r) (h' : FirstLargest T r') : r = r' := by
  rcases lt_trichotomy r r' with hlt | heq | hlt
  · exact absurd (h'.2 r hlt) (not_lt.mpr (h.1 r'))
  · exact heq
  · exact absurd (h.2 r' hlt) (not_lt.mpr (h'.1 r))

theorem keepsLast_of_zero (h : ∀ j, T j 0 = 0) :
    KeepsLast (m + 1) T ↔ KeepsLast m (T.submatrix Fin.succ Fin.succ) := by
  constructor
  · rintro (⟨-, hrest⟩ | ⟨r, hr, -⟩)
    · exact hrest
    · exact absurd (h r) hr
  · exact fun hrest => .inl ⟨h, hrest⟩

theorem keepsLast_of_largest (hr : T r 0 ≠ 0) (hfirst : FirstLargest T r) :
    KeepsLast (m + 1) T ↔ KeepsLast m (schurComplement T r) := by
  constructor
  · rintro (⟨hzero, -⟩ | ⟨r', -, hfirst', hrest⟩)
    · exact absurd (hzero r) hr
    · rwa [hfirst.unique hfirst']
  · exact fun hrest => .inr ⟨r, hr, hfirst, hrest⟩

/-- The index `a` among the last `m`. -/
def lastIndex (h : k + m = n) (a : Fin m) : Fin n :=
  ⟨k + a, by omega⟩

theorem lastIndex_injective (h : k + m = n) : Function.Injective (lastIndex h) := by
  intro a b hab
  have hval := congrArg Fin.val hab
  exact Fin.ext (Nat.add_left_cancel hval)

/-- The rows and columns from `k` on. -/
def trailing (A : Matrix (Fin n) (Fin n) K) (h : k + m = n) : Matrix (Fin m) (Fin m) K :=
  A.submatrix (lastIndex h) (lastIndex h)

variable {s : Lup n K} {i : Fin n} {h : k + (m + 2) = n}

theorem lt_lastIndex (hi : i.val = k) (h : k + (m + 2) = n) (a : Fin (m + 1)) :
    i < lastIndex h a.succ := by
  have hval : (lastIndex h a.succ).val = k + (a.val + 1) := rfl
  rw [Fin.lt_def, hval]
  omega

theorem lastIndex_zero (hi : i.val = k) (h : k + (m + 2) = n) : lastIndex h 0 = i :=
  Fin.ext (by rw [hi]; rfl)

theorem lastIndex_succ (h : k + (m + 2) = n) (h' : k + 1 + (m + 1) = n) (a : Fin (m + 1)) :
    lastIndex h' a = lastIndex h a.succ :=
  Fin.ext (by simp only [lastIndex, Fin.val_succ]; omega)

theorem le_lastIndex (hi : i.val = k) (h : k + (m + 2) = n) (a : Fin (m + 2)) :
    i ≤ lastIndex h a := by
  rw [Fin.le_def, hi]
  exact Nat.le_add_right k a

theorem exists_lastIndex (hi : i.val = k) (h : k + (m + 2) = n) {j : Fin n} (hj : i ≤ j) :
    ∃ a, lastIndex h a = j := by
  have hle : k ≤ j.val := hi ▸ Fin.le_def.mp hj
  exact ⟨⟨j - k, by omega⟩, Fin.ext (Nat.add_sub_cancel' hle)⟩

variable [IsStrictOrderedRing K]

/-- A column of zeros: the first row and the first column are dropped. -/
theorem trailing_of_zero (hi : i.val = k) (h' : k + 1 + (m + 1) = n)
    (hzero : ∀ j, trailing s.A h j 0 = 0) :
    trailing (lupStep s i).A h' = (trailing s.A h).submatrix Fin.succ Fin.succ := by
  have hcolumn : ∀ j, i ≤ j → s.A j i = 0 := by
    intro j hj
    obtain ⟨a, rfl⟩ := exists_lastIndex hi h hj
    have ha := hzero a
    rwa [trailing, Matrix.submatrix_apply, lastIndex_zero hi h] at ha
  have hstep : (lupStep s i).A = eliminate (regularise s.A i) i := by
    simp only [lupStep, choosePivot_of_zero hcolumn, Lup.exchange, Equiv.swap_self,
      Equiv.refl_apply]
  ext a b
  have ha := lt_lastIndex hi h a
  have hb := lt_lastIndex hi h b
  simp only [trailing, Matrix.submatrix_apply, lastIndex_succ h h']
  rw [hstep, eliminate_below ha hb]
  simp only [regularise, ha.ne', hb.ne', false_and, and_false, if_false, hcolumn _ ha.le, zero_div,
    mul_zero, sub_zero]

/-- Any other column: the scan finds the first of its largest elements. -/
theorem trailing_of_largest (hi : i.val = k) (h' : k + 1 + (m + 1) = n)
    (hscan : (pivotScan s.A i).1 ≠ 0) :
    ∃ r, trailing s.A h r 0 ≠ 0 ∧ FirstLargest (trailing s.A h) r ∧
      trailing (lupStep s i).A h' = schurComplement (trailing s.A h) r := by
  obtain ⟨hrow, hval⟩ := pivotScan_row (A := s.A) (i := i)
  have hval := hval.resolve_left hscan
  obtain ⟨r, hr⟩ := exists_lastIndex hi h hrow
  have hzero := lastIndex_zero hi h
  have hentry (j : Fin (m + 2)) : trailing s.A h j 0 = s.A (lastIndex h j) i := by
    rw [trailing, Matrix.submatrix_apply, hzero]
  refine ⟨r, ?_, ⟨fun j => ?_, fun j hj => ?_⟩, ?_⟩
  · rw [hentry, hr]
    exact abs_ne_zero.mp (hval.trans_ne hscan)
  · rw [hentry, hentry, hr, hval]
    exact pivotScan_le s.A i (le_lastIndex hi h j)
  · rw [hentry, hentry, hr, hval]
    refine pivotScan_lt (le_lastIndex hi h j) ?_
    rw [← hr]
    exact Nat.add_lt_add_left hj k
  · have hstep : (lupStep s i).A = eliminate (s.exchange i (lastIndex h r)).A i := by
      simp only [lupStep, choosePivot_eq hscan, hr]
    have hswap (a : Fin (m + 1)) : Equiv.swap i (lastIndex h r) (lastIndex h a.succ)
        = lastIndex h (Equiv.swap 0 r a.succ) := by
      rw [← hzero]
      exact ((lastIndex_injective h).map_swap 0 r a.succ).symm
    ext a b
    simp only [trailing, schurComplement, Matrix.submatrix_apply, lastIndex_succ h h', hzero]
    rw [hstep, eliminate_below (lt_lastIndex hi h a) (lt_lastIndex hi h b)]
    simp only [Lup.exchange, hswap, Equiv.swap_apply_left]

/-- **A pass of the loop, on what is left of the matrix.** -/
theorem keepsLast_lupStep (hi : i.val = k) (h : k + (m + 2) = n) (h' : k + 1 + (m + 1) = n) :
    KeepsLast (m + 1) (trailing s.A h) ↔ KeepsLast m (trailing (lupStep s i).A h') := by
  by_cases hscan : (pivotScan s.A i).1 = 0
  · have hzero : ∀ j, trailing s.A h j 0 = 0 := by
      intro j
      rw [trailing, Matrix.submatrix_apply, lastIndex_zero hi h]
      exact pivotScan_eq_zero_iff.mp hscan _ (le_lastIndex hi h j)
    rw [keepsLast_of_zero hzero, trailing_of_zero hi h' hzero]
  · obtain ⟨r, hr, hfirst, hrest⟩ := trailing_of_largest (h := h) hi h' hscan
    rw [keepsLast_of_largest hr hfirst, hrest]

/-- Each pass leaves a pivot behind, and the earlier ones alone. -/
theorem lupStep_diag (s : Lup n K) (i : Fin n) :
    (lupStep s i).A i i ≠ 0 ∧ ∀ j < i, (lupStep s i).A j j = s.A j j := by
  obtain ⟨hrow, hpivot, hkept⟩ := choosePivot_spec s.A i
  have hstep {j : Fin n} (hj : j ≤ i) : (lupStep s i).A j j
      = (choosePivot s.A i).1 (Equiv.swap i (choosePivot s.A i).2 j) j := eliminate_above hj
  constructor
  · rw [hstep (le_refl i), Equiv.swap_apply_left]
    exact hpivot
  · intro j hj
    rw [hstep hj.le, Equiv.swap_apply_of_ne_of_ne hj.ne (hj.trans_le hrow).ne, hkept j j hj.ne]

end Trailing

/-! ## The last pivot -/

section LastPivot

variable [IsStrictOrderedRing K]

/-- After the loop only the last element is left as it was found. -/
theorem lupLoop_diag (A : Matrix (Fin (n + 1)) (Fin (n + 1)) K) :
    (∀ i, i ≠ Fin.last n → (lupLoop A).A i i ≠ 0) ∧
      ((lupLoop A).A (Fin.last n) (Fin.last n) ≠ 0 ↔ KeepsLast n A) := by
  have key := foldl_finRange_invariant (n := n + 1 - 1) (s := ({ A := A, P := id } : Lup (n + 1) K))
    (f := fun s i => lupStep s (i.castLE (Nat.sub_le (n + 1) 1)))
    (I := fun k s => (∀ i : Fin (n + 1), i.val < k → s.A i i ≠ 0) ∧
      ∀ m (h : k + (m + 1) = n + 1), KeepsLast m (trailing s.A h) ↔ KeepsLast n A)
    ⟨fun i hi => absurd hi (Nat.not_lt_zero _), ?_⟩ ?_
  · obtain ⟨hdiag, hlast⟩ := key
    refine ⟨fun i hi => hdiag i ?_, hlast 0 rfl⟩
    exact Fin.val_lt_last hi
  · intro m h
    obtain rfl : m = n := by omega
    have hall : trailing A h = A := by
      ext a b
      simp only [trailing, Matrix.submatrix_apply, lastIndex, Nat.zero_add, Fin.eta]
    rw [hall]
  · rintro k s ⟨hdiag, hlast⟩
    set i := k.castLE (Nat.sub_le (n + 1) 1)
    have hi : i.val = k := rfl
    obtain ⟨hpivot, hkept⟩ := lupStep_diag s i
    constructor
    · intro j hj
      rcases Nat.lt_succ_iff_lt_or_eq.mp hj with hlt | heq
      · rw [hkept j hlt]
        exact hdiag j hlt
      · obtain rfl : j = i := Fin.ext heq
        exact hpivot
    · intro m h'
      have h : k.val + (m + 2) = n + 1 := by omega
      rw [← keepsLast_lupStep hi h h']
      exact hlast (m + 1) h

/--
**The factorisation leaves pivots everywhere but in the last place**, which the loop does not visit:
there it leaves one exactly for the matrices that keep their last element.
-/
theorem upper_diag_ne_zero_iff (A : Matrix (Fin (n + 1)) (Fin (n + 1)) K) :
    (∀ i, i ≠ Fin.last n → (lupLoop A).upper i i ≠ 0) ∧
      ((∀ i, (lupLoop A).upper i i ≠ 0) ↔ KeepsLast n A) := by
  have hdiag (i : Fin (n + 1)) : (lupLoop A).upper i i = (lupLoop A).A i i := if_pos (le_refl i)
  obtain ⟨hfirst, hlast⟩ := lupLoop_diag A
  simp only [hdiag]
  refine ⟨hfirst, fun h => hlast.mp (h _), fun h i => ?_⟩
  by_cases hi : i = Fin.last n
  · rw [hi]
    exact hlast.mpr h
  · exact hfirst i hi

/-- A matrix of ones has a first pivot. -/
theorem upper_diag_ne_zero_ones : (lupLoop !![1, 1; 1, (1 : ℚ)]).upper 0 0 ≠ 0 :=
  (upper_diag_ne_zero_iff !![1, 1; 1, (1 : ℚ)]).1 0 (by decide)

/-- Among them are the invertible ones. -/
theorem keepsLast_of_det {A : Matrix (Fin (n + 1)) (Fin (n + 1)) K} (hdet : A.det ≠ 0) :
    KeepsLast n A :=
  (lupLoop_diag A).2.mp ((if_pos (le_refl _)).symm.trans_ne (upper_diag_ne_zero hdet (Fin.last n)))

end LastPivot

/-- A single zero is the last pivot, and the first. -/
theorem zero_not_repaired :
    ¬∀ (n : Nat) (A : Matrix (Fin (n + 1)) (Fin (n + 1)) ℚ) (i : Fin (n + 1)),
      (lupLoop A).upper i i ≠ 0 := by
  intro h
  exact h 0 !![0] 0 rfl

end CambriconGst.Easytrack
