import Mathlib.Algebra.Order.Field.Rat
import Mathlib.Data.Nat.Sqrt
import CambriconGst.Easytrack.Match
import CambriconGst.Properties.Hungarian

/-!
# The matcher with the Hungarian algorithm

`MatchAlgorithm` leaves `HungarianMatch` open; `munkres` fills it with the algorithm the trackers
use.
-/

namespace CambriconGst.Easytrack

open Hungarian

variable {K : Type} [Ring K] [LinearOrder K] [IsStrictOrderedRing K]

/-- `HungarianMatch` by `Solve`. -/
def hungarianMatch (m : CostMatrix K) : List Int :=
  match solve aboveEntries (fuelBound m.rows m.cols) m.entry with
  | some (assignment, _) => assignment
  | none => []

theorem hungarianMatch_valid (m : CostMatrix K) :
    Lib.ValidAssignment m.rows m.cols (hungarianMatch m) := by
  obtain ⟨a, hrun, d, star, hs, -, -, rfl⟩ :=
    runMachine_halts m.entry lt_aboveEntries (Nat.le_refl _)
  have h : hungarianMatch m = assignmentVector star := by
    simp only [hungarianMatch, solve, assignmentoptimal, hrun, Option.map_some, assignmentVector]
  rw [h]
  exact hs.validAssignment

/-- The matcher of the source, over a given square root. -/
def munkres (sqrt : K → K) : MatchAlgorithm K where
  sqrt := sqrt
  hungarianMatch := hungarianMatch
  valid := hungarianMatch_valid

/-- A square root of rationals, exact on squares. -/
def ratSqrt (q : ℚ) : ℚ := q.num.toNat.sqrt / q.den.sqrt

end CambriconGst.Easytrack
