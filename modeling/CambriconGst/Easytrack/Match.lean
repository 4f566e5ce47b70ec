import Mathlib.Algebra.Order.Field.Basic
import CambriconGst.Easytrack.DataType
import CambriconGst.Lib.Assignment
import CambriconGst.Lib.Checked

/-!
# Matching

`easytrack/match.cpp`, `easytrack/match.h`, and the loop over an assignment the trackers share.
-/

namespace CambriconGst.Easytrack

open Lib

variable {K : Type}

/-- `Matrix`, as the cost matrices use it. -/
structure CostMatrix (K : Type) where
  rows : Nat
  cols : Nat
  entry : Fin rows → Fin cols → K

/-- Access by index. -/
def CostMatrix.read (m : CostMatrix K) (row col : Nat) : Except Fault K :=
  if h : row < m.rows ∧ col < m.cols then .ok (m.entry ⟨row, h.1⟩ ⟨col, h.2⟩)
  else .error .outOfRange

/--
`MatchAlgorithm`: the square root of the numbers, and a `HungarianMatch` that returns an
assignment vector for every matrix.
-/
structure MatchAlgorithm (K : Type) where
  sqrt : K → K
  hungarianMatch : CostMatrix K → List Int
  valid : ∀ m, ValidAssignment m.rows m.cols (hungarianMatch m)

/-! ## Feature distance -/

section Distance

variable [Field K] [LinearOrder K]

def innerProduct (lhs rhs : List K) : Except Fault K :=
  if lhs.length = rhs.length then
    .ok ((lhs.zip rhs).foldl (fun sum x => sum + x.1 * x.2) 0)
  else .error (.invalidArg "inner product need two vector of equal size")

/-- `L2Norm`. The inner product of a vector with itself never throws. -/
def l2Norm (sqrt : K → K) (feature : List K) : K :=
  sqrt ((feature.zip feature).foldl (fun sum x => sum + x.1 * x.2) 0)

/-- Compute the norm of a feature unless it is cached. -/
def Feature.cache (sqrt : K → K) (f : Feature K) : Feature K :=
  { f with mold := if f.mold < 0 then l2Norm sqrt f.vec else f.mold }

/--
The loop of `CosineDistance`, with the features as they are left: those reached have their norm
cached.
-/
def maxSimilarity (sqrt : K → K) (det : Feature K) :
    K → List (Feature K) → Except Fault K × List (Feature K)
  | maxSimi, [] => (.ok maxSimi, [])
  | maxSimi, track :: tracks =>
    let track := track.cache sqrt
    match innerProduct track.vec det.vec with
    | .error e => (.error e, track :: tracks)
    | .ok xy =>
      let cosSimi := if det.mold = 0 ∨ track.mold = 0 then -1 else xy / (det.mold * track.mold)
      let (r, tracks) := maxSimilarity sqrt det (max cosSimi maxSimi) tracks
      (r, track :: tracks)

def cosineDistance (sqrt : K → K) (trackFeats : List (Feature K)) (det : Feature K) :
    Except Fault K × List (Feature K) :=
  let (r, feats) := maxSimilarity sqrt (det.cache sqrt) 0 trackFeats
  (r.map fun maxSimi => 1 - if maxSimi > 1 then 1 else maxSimi, feats)

/-! ## IoU -/

def iou (a b : Rect K) : K :=
  let w := min a.xmax b.xmax - max a.xmin b.xmin
  let h := min a.ymax b.ymax - max a.ymin b.ymin
  if w ≤ 0 ∨ h ≤ 0 then 0
  else
    let areaIntersection := w * h
    let areaA := (a.xmax - a.xmin) * (a.ymax - a.ymin)
    let areaB := (b.xmax - b.xmin) * (b.ymax - b.ymin)
    areaIntersection / (areaA + areaB - areaIntersection)

/-- `IoUCost`: a row for each of `detRects`, a column for each of `traRects`. -/
def iouCost (detRects traRects : List (Rect K)) : CostMatrix K where
  rows := detRects.length
  cols := traRects.length
  entry := fun detIdx traIdx => 1 - iou traRects[traIdx] detRects[detIdx]

end Distance

/-! ## Arranging an assignment -/

section Arrange

variable [LinearOrder K]

/-- A row of the assignment leaves its track unmatched: no column, or one that costs too much. -/
def rejected (cost : CostMatrix K) (maxDistance : K) (row : Nat) (a : Int) : Except Fault Bool :=
  if a < 0 then .ok true
  else do
    let c ← cost.read row a.toNat
    return decide (c > maxDistance)

/--
The loop over `assignments` from row `i` on. `remained_detections` is a set; its elements are kept
in increasing order in `unmatchedDetections`.
-/
def arrangeFrom (cost : CostMatrix K) (maxDistance : K) (detectIndices trackIndices : List Nat) :
    Nat → List Int → MatchResult → Except Fault MatchResult
  | _, [], res => .ok res
  | i, a :: as, res => do
    let track ← readAt .outOfRange trackIndices i
    if ← rejected cost maxDistance i a then
      arrangeFrom cost maxDistance detectIndices trackIndices (i + 1) as
        { res with unmatchedTracks := res.unmatchedTracks ++ [track] }
    else
      let det ← readAt .outOfRange detectIndices a.toNat
      arrangeFrom cost maxDistance detectIndices trackIndices (i + 1) as
        { res with
          matched := res.matched ++ [(det, track)]
          unmatchedDetections := res.unmatchedDetections.erase det }

/--
Pair detections with tracks by an assignment of columns to rows, leaving out what costs more than
`maxDistance`.
-/
def arrange (cost : CostMatrix K) (maxDistance : K) (detectIndices trackIndices : List Nat)
    (assignments : List Int) : Except Fault MatchResult :=
  arrangeFrom cost maxDistance detectIndices trackIndices 0 assignments
    { matched := [], unmatchedTracks := [], unmatchedDetections := detectIndices }

end Arrange

end CambriconGst.Easytrack
