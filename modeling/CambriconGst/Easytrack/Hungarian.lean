import Mathlib.Algebra.Order.Group.Defs
import Mathlib.Logic.Function.Basic
import Mathlib.Data.List.FinRange
import CambriconGst.Lib.Transition

/-!
# The Hungarian algorithm

`easytrack/hungarian.cpp`: Munkres' assignment algorithm over a cost matrix of `R` rows and `C`
columns.

The arrays of the workspace are indexed by row and column instead of `row + nOfRows * col`. The
entries are exact, so `fabs(x) < DBL_EPSILON` is `x = 0`. The steps call each other in tail
position; a call is one step of a machine whose state is the workspace.

`dblMax` is the bound step 5 starts from, `DBL_MAX` in the source.
-/

namespace CambriconGst.Hungarian

open Lib

variable {R C : Nat} {K : Type}

/-- The part of the workspace the steps share. -/
structure Workspace (R C : Nat) (K : Type) where
  distMatrix : Fin R → Fin C → K
  starMatrix : Fin R → Fin C → Bool
  primeMatrix : Fin R → Fin C → Bool
  coveredColumns : Fin C → Bool
  coveredRows : Fin R → Bool

/-- Assign one element of a matrix. -/
def setEntry {β : Type} (m : Fin R → Fin C → β) (row : Fin R) (col : Fin C) (x : β) :
    Fin R → Fin C → β :=
  Function.update m row (Function.update (m row) col x)

@[simp] theorem setEntry_self {β : Type} (m : Fin R → Fin C → β) (row : Fin R) (col : Fin C)
    (x : β) : setEntry m row col x row col = x := by
  simp [setEntry]

theorem setEntry_apply {β : Type} (m : Fin R → Fin C → β) (row r : Fin R) (col c : Fin C)
    (x : β) : setEntry m row col x r c = if r = row ∧ c = col then x else m r c := by
  unfold setEntry
  by_cases hr : r = row
  · subst hr
    by_cases hc : c = col
    · subst hc; simp
    · simp [hc]
  · simp [hr]

/-- Setting an entry to `true` keeps the others. -/
theorem setEntry_true_of {m : Fin R → Fin C → Bool} {r : Fin R} {c : Fin C} (h : m r c = true)
    (row : Fin R) (col : Fin C) : setEntry m row col true r c = true := by
  rw [setEntry_apply, h]
  split <;> rfl

/-! ## Preliminary steps -/

section Numeric

variable [AddCommGroup K] [LinearOrder K]

/-- The smallest element of a row. Comparing the first with itself changes nothing. -/
def rowMin (d : Fin R → Fin C → K) (hC : 0 < C) (row : Fin R) : K :=
  (List.finRange C).foldl (fun minValue col =>
    if d row col < minValue then d row col else minValue) (d row ⟨0, hC⟩)

/-- The smallest element of a column. -/
def colMin (d : Fin R → Fin C → K) (hR : 0 < R) (col : Fin C) : K :=
  (List.finRange R).foldl (fun minValue row =>
    if d row col < minValue then d row col else minValue) (d ⟨0, hR⟩ col)

/-- Nothing starred, primed or covered. -/
def cleared (d : Fin R → Fin C → K) : Workspace R C K where
  distMatrix := d
  starMatrix := fun _ _ => false
  primeMatrix := fun _ _ => false
  coveredColumns := fun _ => false
  coveredRows := fun _ => false

/-- Steps 1 and 2a by rows: star the first zero of the row in a column not covered yet. -/
def starRow (w : Workspace R C K) (row : Fin R) : Workspace R C K :=
  match (List.finRange C).find?
      fun col => decide (w.distMatrix row col = 0) && !w.coveredColumns col with
  | some col =>
    { w with
      starMatrix := setEntry w.starMatrix row col true
      coveredColumns := Function.update w.coveredColumns col true }
  | none => w

/-- Steps 1 and 2a by columns: star the first zero of the column in a row not covered yet. -/
def starCol (w : Workspace R C K) (col : Fin C) : Workspace R C K :=
  match (List.finRange R).find?
      fun row => decide (w.distMatrix row col = 0) && !w.coveredRows row with
  | some row =>
    { w with
      starMatrix := setEntry w.starMatrix row col true
      coveredColumns := Function.update w.coveredColumns col true
      coveredRows := Function.update w.coveredRows row true }
  | none => w

/-- The preliminary steps of `assignmentoptimal`. -/
def preliminary (distMatrixIn : Fin R → Fin C → K) : Workspace R C K :=
  if h : R ≤ C then
    (List.finRange R).foldl starRow (cleared fun row col =>
      distMatrixIn row col - rowMin distMatrixIn (lt_of_lt_of_le row.pos h) row)
  else
    let w := (List.finRange C).foldl starCol (cleared fun row col =>
      distMatrixIn row col - colMin distMatrixIn row.pos col)
    { w with coveredRows := fun _ => false }

/-! ## The steps -/

/-- The steps of the mutual recursion, with the arguments that are not in the workspace. -/
inductive Call (R C : Nat) where
  | step2a
  | step2b
  | step3
  | step4 (row : Fin R) (col : Fin C)
  | step5

/-- `minDim` of `assignmentoptimal`. -/
def minDim (R C : Nat) : Nat := if R ≤ C then R else C

/-- The first starred zero of a row. -/
def starInRow (star : Fin R → Fin C → Bool) (row : Fin R) : Option (Fin C) :=
  (List.finRange C).find? fun col => star row col

/-- The first starred zero of a column. -/
def starInCol (star : Fin R → Fin C → Bool) (col : Fin C) : Option (Fin R) :=
  (List.finRange R).find? fun row => star row col

/-- `buildassignmentvector`, `none` being the initial -1. -/
def buildassignmentvector (star : Fin R → Fin C → Bool) : Fin R → Option (Fin C) :=
  starInRow star

/-- `step2a`: cover every column containing a starred zero. -/
def step2a (w : Workspace R C K) : Workspace R C K :=
  { w with coveredColumns := fun col =>
      w.coveredColumns col || (starInCol w.starMatrix col).isSome }

/-- What a scan of step 3 ends in. -/
inductive Scan (R C : Nat) (K : Type) where
  | augment (w : Workspace R C K) (row : Fin R) (col : Fin C)
  | finished (w : Workspace R C K) (zerosFound : Bool)

/-- Prime a zero, cover its row and uncover the column of the row's star. -/
def primeAndCover (w : Workspace R C K) (row : Fin R) (col starCol : Fin C) : Workspace R C K :=
  { w with
    primeMatrix := setEntry w.primeMatrix row col true
    coveredRows := Function.update w.coveredRows row true
    coveredColumns := Function.update w.coveredColumns starCol false }

/-- One pass of the `while` loop of `step3` over the columns. -/
def scanColumns : List (Fin C) → Bool → Workspace R C K → Scan R C K
  | [], zerosFound, w => .finished w zerosFound
  | col :: cols, zerosFound, w =>
    if w.coveredColumns col then scanColumns cols zerosFound w
    else
      match (List.finRange R).find?
          fun row => !w.coveredRows row && decide (w.distMatrix row col = 0) with
      | none => scanColumns cols zerosFound w
      | some row =>
        match starInRow w.starMatrix row with
        | none => .augment { w with primeMatrix := setEntry w.primeMatrix row col true } row col
        | some starCol => scanColumns cols true (primeAndCover w row col starCol)

/--
The `while` loop of `step4`. `newStar` is the copy being changed, `col` the column just given a
star. `none` when a row has no primed zero, where the source would write past the row's end.
-/
def flipPath (star prime : Fin R → Fin C → Bool) :
    Nat → (Fin R → Fin C → Bool) → Fin C → Option (Fin R → Fin C → Bool)
  | 0, _, _ => none
  | fuel + 1, newStar, col =>
    match starInCol star col with
    | none => some newStar
    | some starRow =>
      match starInRow prime starRow with
      | none => none
      | some primeCol =>
        flipPath star prime fuel
          (setEntry (setEntry newStar starRow col false) starRow primeCol true) primeCol

/-- `step4`: flip the stars along the alternating path from a zero, forget primes and rows. -/
def step4 (w : Workspace R C K) (row : Fin R) (col : Fin C) : Option (Workspace R C K) :=
  (flipPath w.starMatrix w.primeMatrix (R + 1) (setEntry w.starMatrix row col true) col).map
    fun newStar =>
      { w with
        starMatrix := newStar
        primeMatrix := fun _ _ => false
        coveredRows := fun _ => false }

variable (dblMax : (Fin R → Fin C → K) → K)

/-- The smallest uncovered element, as `step5` finds it. -/
def smallestUncovered (w : Workspace R C K) : K :=
  (List.finRange R).foldl (fun h row =>
    if w.coveredRows row then h
    else (List.finRange C).foldl (fun h col =>
      if w.coveredColumns col then h
      else if w.distMatrix row col < h then w.distMatrix row col else h) h) (dblMax w.distMatrix)

/-- `step5`: add `h` to each covered row, subtract it from each uncovered column. -/
def step5 (w : Workspace R C K) : Workspace R C K :=
  let h := smallestUncovered dblMax w
  let added := fun row col =>
    if w.coveredRows row then w.distMatrix row col + h else w.distMatrix row col
  { w with distMatrix := fun row col =>
      if w.coveredColumns col then added row col else added row col - h }

/-- One call, up to the call it makes in tail position. -/
def call : Call R C × Workspace R C K → Outcome (Call R C × Workspace R C K) (Fin R → Option (Fin C))
  | (.step2a, w) => .next (.step2b, step2a w)
  | (.step2b, w) =>
    if (List.finRange C).countP w.coveredColumns = minDim R C then
      .halt (buildassignmentvector w.starMatrix)
    else .next (.step3, w)
  | (.step3, w) =>
    match scanColumns (List.finRange C) false w with
    | .augment w' row col => .next (.step4 row col, w')
    | .finished w' true => .next (.step3, w')
    | .finished w' false => .next (.step5, w')
  | (.step4 row col, w) =>
    match step4 w row col with
    | some w' => .next (.step2a, w')
    | none => .stuck
  | (.step5, w) => .next (.step3, step5 dblMax w)

/-! ## The wrapper -/

/-- `computeassignmentcost`. -/
def computeassignmentcost (assignment : Fin R → Option (Fin C)) (distMatrix : Fin R → Fin C → K) :
    K :=
  (List.finRange R).foldl (fun cost row =>
    match assignment row with
    | some col => cost + distMatrix row col
    | none => cost) 0

/-- `assignmentoptimal`, run for at most `fuel` calls. -/
def assignmentoptimal (fuel : Nat) (distMatrixIn : Fin R → Fin C → K) :
    Option ((Fin R → Option (Fin C)) × K) :=
  (runMachine (call dblMax) fuel (.step2b, preliminary distMatrixIn)).map fun assignment =>
    (assignment, computeassignmentcost assignment distMatrixIn)

/-- An entry of the assignment vector as the `int` of the source. -/
def toInt : Option (Fin C) → Int
  | some col => col.val
  | none => -1

/-- `Solve`: the assignment vector and its cost. -/
def solve (fuel : Nat) (DistMatrix : Fin R → Fin C → K) : Option (List Int × K) :=
  (assignmentoptimal dblMax fuel DistMatrix).map fun r =>
    ((List.finRange R).map fun row => toInt (r.1 row), r.2)

end Numeric

end CambriconGst.Hungarian
