import Mathlib.Algebra.Order.Field.Basic
import Mathlib.Algebra.Order.Group.Unbundled.Abs
import Mathlib.Algebra.Order.Ring.Abs
import Mathlib.Data.Fin.Tuple.Basic
import Mathlib.LinearAlgebra.Matrix.Defs
import Mathlib.Logic.Equiv.Fin.Basic
import Mathlib.Tactic.NormNum.OfScientific
import CambriconGst.Lib.CycleLeader

/-!
# Matrix inversion

`easytrack/matrix.cpp`: `Matrix::Inv` by LUP decomposition, substitution for each unit vector, and
a transposition in place. Matrices are indexed by row and column; only the transposition looks at
the flat array.
-/

namespace CambriconGst.Easytrack

open Lib

variable {K : Type} {n : Nat}

/-! ## Transposition in place -/

section Transpose

variable {m : Nat}

theorem index_lt {m n i : Nat} (h : i < m * n) : (i % n) * m + i / n < m * n := by
  have hn : 0 < n := Nat.pos_of_mul_pos_left (Nat.zero_lt_of_lt h)
  have hr : i % n < n := Nat.mod_lt _ hn
  have hd : i / n < m := Nat.div_lt_of_lt_mul (by rwa [Nat.mul_comm])
  calc (i % n) * m + i / n < (i % n) * m + m := by omega
    _ = (i % n + 1) * m := by rw [Nat.add_mul, Nat.one_mul]
    _ ≤ n * m := Nat.mul_le_mul_right m hr
    _ = m * n := Nat.mul_comm n m

def getNext (m n : Nat) (i : Fin (m * n)) : Fin (m * n) :=
  ⟨(i.val % n) * m + i.val / n, index_lt i.isLt⟩

def getPre (m n : Nat) (i : Fin (m * n)) : Fin (m * n) :=
  ⟨(i.val % m) * n + i.val / m,
    (index_lt (i.isLt.trans_eq (Nat.mul_comm m n))).trans_eq (Nat.mul_comm n m)⟩

/-- `Transpose`: `seek` is its inner search, `rotate` is `MoveData`. -/
def transpose (m n : Nat) (mtx : Fin (m * n) → K) : Option (Fin (m * n) → K) :=
  CycleLeader.permute (getNext m n) (getPre m n) (m * n) (List.finRange (m * n)) mtx

/-- `Transpose`, its loops cut off after `fuel` turns, with the indices `MoveData` is called for. -/
def transposeLogged (m n fuel : Nat) (mtx : Fin (m * n) → K) :
    Option ((Fin (m * n) → K) × List (Fin (m * n))) :=
  CycleLeader.permuteLogged (getNext m n) (getPre m n) fuel (List.finRange (m * n)) mtx

end Transpose

/-! ## LUP decomposition -/

section Decomposition

/-- The matrix being decomposed in place and the row permutation. -/
structure Lup (n : Nat) (K : Type) where
  A : Matrix (Fin n) (Fin n) K
  P : Fin n → Fin n

/-- Exchange two rows. -/
def Lup.exchange (s : Lup n K) (i row : Fin n) : Lup n K where
  A := fun r => s.A (Equiv.swap i row r)
  P := fun r => s.P (Equiv.swap i row r)

variable [Field K]

/-- Eliminate below the pivot of column `i`, keeping the factors in the column. -/
def eliminate (A : Matrix (Fin n) (Fin n) K) (i : Fin n) : Matrix (Fin n) (Fin n) K :=
  fun j k =>
    if i < j then
      if k = i then A j i / A i i
      else if i < k then A j k - A i k * (A j i / A i i)
      else A j k
    else A j k

/-- `L` of `LupDescomposition`. -/
def Lup.lower (s : Lup n K) : Matrix (Fin n) (Fin n) K :=
  fun i j => if j < i then s.A i j else if j = i then 1 else 0

/-- `U` of `LupDescomposition`. -/
def Lup.upper (s : Lup n K) : Matrix (Fin n) (Fin n) K :=
  fun i k => if i ≤ k then s.A i k else 0

variable [LinearOrder K]

/--
The scan for a pivot in column `i`: the largest absolute value `p` and its row. The row is
meaningful when `p` is not zero.
-/
def pivotScan (A : Matrix (Fin n) (Fin n) K) (i : Fin n) : K × Fin n :=
  (List.finRange n).foldl (fun best j =>
    if i ≤ j ∧ |A j i| > best.1 then (|A j i|, j) else best) (0, i)

/-- The scan finds the largest element. -/
theorem pivotScan_le (A : Matrix (Fin n) (Fin n) K) (i : Fin n) {j : Fin n} (hj : i ≤ j) :
    |A j i| ≤ (pivotScan A i).1 := by
  have hfold : ∀ (js : List (Fin n)) (best : K × Fin n),
      best.1 ≤ (js.foldl (fun best j =>
        if i ≤ j ∧ |A j i| > best.1 then (|A j i|, j) else best) best).1 ∧
      ∀ j ∈ js, i ≤ j → |A j i| ≤ (js.foldl (fun best j =>
        if i ≤ j ∧ |A j i| > best.1 then (|A j i|, j) else best) best).1 := by
    intro js
    induction js with
    | nil => intro best; exact ⟨le_refl _, by simp⟩
    | cons k js ih =>
      intro best
      rw [List.foldl_cons]
      obtain ⟨hle, hmem⟩ := ih (if i ≤ k ∧ |A k i| > best.1 then (|A k i|, k) else best)
      split at hle
      · next hk =>
        rw [if_pos hk] at hmem ⊢
        refine ⟨hk.2.le.trans hle, fun j hj hij => ?_⟩
        rcases List.mem_cons.mp hj with rfl | hj
        · exact hle
        · exact hmem j hj hij
      · next hk =>
        rw [if_neg hk] at hmem ⊢
        refine ⟨hle, fun j hj hij => ?_⟩
        rcases List.mem_cons.mp hj with rfl | hj
        · exact (not_lt.mp fun hlt => hk ⟨hij, hlt⟩).trans hle
        · exact hmem j hj hij
  exact (hfold (List.finRange n) (0, i)).2 j (List.mem_finRange j) hj

/-- `A[i * n + i] += 1e-5`. -/
def regularise (A : Matrix (Fin n) (Fin n) K) (i : Fin n) : Matrix (Fin n) (Fin n) K :=
  fun r c => if r = i ∧ c = i then A r c + 1e-5 else A r c

theorem pivotScan_regularise [IsStrictOrderedRing K] {A : Matrix (Fin n) (Fin n) K} {i : Fin n}
    (h : (pivotScan A i).1 = 0) : (pivotScan (regularise A i) i).1 ≠ 0 := by
  have hzero : A i i = 0 := abs_eq_zero.mp
    (le_antisymm (h ▸ pivotScan_le A i (le_refl i)) (abs_nonneg _))
  have hle := pivotScan_le (regularise A i) i (le_refl i)
  have hpos : (0 : K) < |regularise A i i i| := by
    rw [regularise, if_pos ⟨rfl, rfl⟩, hzero, zero_add]
    exact abs_pos.mpr (by norm_num)
  exact (hpos.trans_le hle).ne'

/-- The `do` loop: scan for a pivot, regularising the diagonal until there is one. -/
def choosePivot [IsStrictOrderedRing K] (A : Matrix (Fin n) (Fin n) K) (i : Fin n) :
    Matrix (Fin n) (Fin n) K × Fin n :=
  if (pivotScan A i).1 = 0 then choosePivot (regularise A i) i else (A, (pivotScan A i).2)
termination_by if (pivotScan A i).1 = 0 then 1 else 0
decreasing_by
  next h => rw [if_pos h, if_neg (pivotScan_regularise h)]; exact Nat.one_pos

variable [IsStrictOrderedRing K]

/-- One pass of the loop of `LupDescomposition`. -/
def lupStep (s : Lup n K) (i : Fin n) : Lup n K :=
  let (A, row) := choosePivot s.A i
  let s' := Lup.exchange { s with A := A } i row
  { s' with A := eliminate s'.A i }

/-- The loop of `LupDescomposition`, over all but the last column. -/
def lupLoop (A : Matrix (Fin n) (Fin n) K) : Lup n K :=
  (List.finRange (n - 1)).foldl (fun s i => lupStep s (i.castLE (Nat.sub_le n 1)))
    { A := A, P := id }

end Decomposition

/-! ## Substitution -/

section Solve

variable [Field K]

/-- Forward substitution. -/
def forward (L : Matrix (Fin n) (Fin n) K) (b : Fin n → K) : Fin n → K :=
  (List.finRange n).foldl (fun y i => Function.update y i
    ((List.finRange n).foldl (fun yi j => if j < i then yi - L i j * y j else yi) (b i))) 0

/-- Backward substitution. -/
def backward (U : Matrix (Fin n) (Fin n) K) (y : Fin n → K) : Fin n → K :=
  (List.finRange n).reverse.foldl (fun x i => Function.update x i
    ((List.finRange n).reverse.foldl (fun xi j => if i < j then xi - U i j * x j else xi) (y i)
      / U i i)) 0

/-- `SolveLup`. Every element is written before it is read. -/
def solveLup (L U : Matrix (Fin n) (Fin n) K) (P : Fin n → Fin n) (b : Fin n → K) : Fin n → K :=
  backward U (forward L fun i => b (P i))

end Solve

variable [Field K] [LinearOrder K] [IsStrictOrderedRing K]

/-- Row `i` of `SolveInverse` before the transposition: the solution for unit vector `i`. -/
def solveUnits (A : Matrix (Fin n) (Fin n) K) (i : Fin n) : Fin n → K :=
  let s := lupLoop A
  solveLup s.lower s.upper s.P fun j => if j = i then 1 else 0

/-- `SolveInverse`, over the flat array. -/
def solveInverse (A : Matrix (Fin n) (Fin n) K) : Option (Fin (n * n) → K) :=
  transpose n n fun k => solveUnits A k.divNat k.modNat

/-- `Matrix::Inv`. The transposition always succeeds, see `solveInverse_eq`. -/
def inv (A : Matrix (Fin n) (Fin n) K) : Matrix (Fin n) (Fin n) K :=
  match solveInverse A with
  | some mtx => fun i j => mtx (finProdFinEquiv (i, j))
  | none => 0

end CambriconGst.Easytrack
