import Mathlib.Data.Int.Init
import CambriconGst.Easytrack.KalmanFilter
import CambriconGst.Easytrack.Match
import CambriconGst.Lib.Attempt

/-!
# The feature match tracker

`easytrack/track_fm.cpp`. A frame predicts the tracks, matches them with the detections (by feature
in cascade, then by IoU), updates, starts and erases tracks. What throws is the matching; the
tracks stay as it left them.
-/

namespace CambriconGst.TrackFm

open Lib Easytrack

variable {K : Type}

structure FeatureMatchTrackObject (K : Type) where
  kf : KalmanFilter K
  features : List (Feature K)
  pos : Rect K
  classId : Int
  trackId : Int
  score : K
  state : TrackState
  age : Nat
  timeSinceLastUpdate : Nat
  hasFeature : Bool

/-- The parameters a `FeatureMatchTrack` holds. -/
structure Params (K : Type) where
  maxCosineDistance : K
  maxIouDistance : K
  maxAge : Int
  nInit : Int
  nnBudget : Nat

/-- `FeatureMatchPrivate`, with the parameters it reads through `fm_`. -/
structure FeatureMatchPrivate (K : Type) where
  params : Params K
  tracks : List (FeatureMatchTrackObject K)
  nextId : Nat

/-- The matches of a frame, and the detections with the norms of their features. -/
structure Matches (K : Type) where
  detects : List (DetectObject K)
  cascade : MatchResult
  iou : MatchResult
deriving DecidableEq

/-- Conversion to a 32-bit `int`. -/
def toInt32 (n : Nat) : Int :=
  (n : Int).bmod (2 ^ 32)

variable [Field K]

/-- chi2inv95 at 4 degree of freedom. -/
def gatingThreshold : K := 9.4877

/-- `SetParams`. The budget is held unsigned. -/
def FeatureMatchPrivate.setParams (s : FeatureMatchPrivate K) (maxCosineDistance : K)
    (nnBudget : Int) (maxIouDistance : K) (maxAge nInit : Int) : FeatureMatchPrivate K :=
  { s with params :=
      { maxCosineDistance, maxIouDistance, maxAge, nInit, nnBudget := (nnBudget % 2 ^ 32).toNat } }

def initial : FeatureMatchPrivate K where
  params :=
    { maxCosineDistance := 0.2, maxIouDistance := 0.7, maxAge := 30, nInit := 3, nnBudget := 100 }
  tracks := []
  nextId := 0

/-! ## One track -/

/-- The tracks of a frame before the matching. -/
def predictTrack (track : FeatureMatchTrackObject K) : FeatureMatchTrackObject K :=
  let kf := track.kf.predict
  { track with
    kf
    pos := boundingBox2Rect (toTlwh kf.getCurPos)
    timeSinceLastUpdate := track.timeSinceLastUpdate + 1 }

def markMiss (p : Params K) (track : FeatureMatchTrackObject K) : FeatureMatchTrackObject K :=
  if track.state = .tentative ∨ track.timeSinceLastUpdate > p.maxAge then
    { track with state := .deleted }
  else track

/-- Append a feature; the oldest one goes when there are more than the budget. -/
def pushFeature (nnBudget : Nat) (features : List (Feature K)) (f : Feature K) :
    List (Feature K) :=
  let features := features ++ [f]
  if features.length > nnBudget then features.tail else features

/-- The track goes from tentative to confirmed. -/
def Confirms (p : Params K) (track : FeatureMatchTrackObject K) : Prop :=
  track.state = .tentative ∧ track.age > p.nInit

instance (p : Params K) (track : FeatureMatchTrackObject K) : Decidable (Confirms p track) :=
  inferInstanceAs (Decidable (_ ∧ _))

/-- The tracks that are erased. -/
def Dead (p : Params K) (track : FeatureMatchTrackObject K) : Prop :=
  track.state = .deleted ∨ track.timeSinceLastUpdate > p.maxAge

instance (p : Params K) (track : FeatureMatchTrackObject K) : Decidable (Dead p track) :=
  inferInstanceAs (Decidable (_ ∨ _))

/-! ## Access to the tracks -/

abbrev OnTracks (K : Type) := Attempt Fault (List (FeatureMatchTrackObject K))

/-- Compute with the track at an index and write it back. -/
def onTrack {α : Type} (idx : Nat)
    (f : FeatureMatchTrackObject K → Except Fault α × FeatureMatchTrackObject K) : OnTracks K α :=
  .ofExec fun tracks =>
    match readAt .outOfRange tracks idx with
    | .error e => (.error e, tracks)
    | .ok track => ((f track).1, tracks.set idx (f track).2)

/-- The tracks matched by feature first. -/
def confirmedTracks (tracks : List (FeatureMatchTrackObject K)) : List Nat :=
  (List.range tracks.length).filter fun i =>
    tracks[i]?.any fun track => track.state = .confirmed ∧ track.hasFeature

def unconfirmedTracks (tracks : List (FeatureMatchTrackObject K)) : List Nat :=
  (List.range tracks.length).filter fun i =>
    ¬tracks[i]?.any fun track => track.state = .confirmed ∧ track.hasFeature

/-- `age_track_indices` at an age. -/
def ageTrackIndices (tracks : List (FeatureMatchTrackObject K)) (confirmed : List Nat) (age : Nat) :
    List Nat :=
  confirmed.filter fun i => tracks[i]?.any fun track => (track.timeSinceLastUpdate : Int) - 1 = age

variable [LinearOrder K]

def initNewTrack (det : DetectObject K) : FeatureMatchTrackObject K :=
  let hasFeature := det.feature.any fun val => val ≠ 0
  { kf := KalmanFilter.create.initiate (toXyah det.bbox)
    features := if hasFeature then [⟨det.feature, det.featMold⟩] else []
    pos := boundingBox2Rect det.bbox
    classId := det.label
    trackId := -1
    score := det.score
    state := .tentative
    age := 1
    timeSinceLastUpdate := 0
    hasFeature }

variable [IsStrictOrderedRing K]

/-! ## The cascade -/

section Cascade

variable (algo : MatchAlgorithm K) (p : Params K)

def trackGating (measurements : List (BoundingBox K)) (idx : Nat) : OnTracks K (List K) :=
  onTrack idx fun track =>
    let (kf, gatingDist) := track.kf.gatingDistance measurements
    (.ok gatingDist, { track with kf })

def trackDistance (det : Feature K) (idx : Nat) : OnTracks K K :=
  onTrack idx fun track =>
    let (r, features) := cosineDistance algo.sqrt track.features det
    (r, { track with features })

/-- The cost of a distance: above the limit when either distance is. -/
def gatedCost (distance gatingDist : K) : K :=
  if distance > p.maxCosineDistance ∨ gatingDist > gatingThreshold then p.maxCosineDistance + 1e-5
  else distance

/-- An entry of the cost matrix. -/
def costEntry (idx : Nat) (det : DetectObject K) (gatingDist : K) : OnTracks K K := do
  let distance ← trackDistance algo ⟨det.feature, det.featMold⟩ idx
  return gatedCost p distance gatingDist

/-- A row of the cost matrix. -/
def costRow (columns : List (DetectObject K)) (idx : Nat) : OnTracks K (List K) := do
  let gatingDist ← trackGating (columns.map fun det => toXyah det.bbox) idx
  (columns.zip gatingDist).mapM fun c => costEntry algo p idx c.1 c.2

/-- `cost_matrix`, once filled. -/
def CostMatrix.ofRows (rows : List (List K)) (cols : Nat) : CostMatrix K where
  rows := rows.length
  cols := cols
  entry := fun i j => (rows[i][j]?).getD 0

/-- The round of one age. -/
def cascadeRound (detects : List (DetectObject K)) (trackIndices unmatchedDetections : List Nat) :
    OnTracks K MatchResult := do
  let columns ← Attempt.look fun _ => unmatchedDetections.mapM (readAt .outOfRange detects)
  let rows ← trackIndices.mapM (costRow algo p columns)
  let cost := CostMatrix.ofRows rows unmatchedDetections.length
  Attempt.look fun _ => arrange cost p.maxCosineDistance unmatchedDetections trackIndices
    (algo.hungarianMatch cost)

/-- The rounds of a list of ages. `aged` gives the tracks of an age. -/
def cascadeRounds (detects : List (DetectObject K)) (aged : Nat → List Nat) :
    List Nat → MatchResult → OnTracks K MatchResult
  | [], res => pure res
  | age :: ages, res =>
    if res.unmatchedDetections.isEmpty then pure res
    else if (aged age).isEmpty then cascadeRounds detects aged ages res
    else do
      let round ← cascadeRound algo p detects (aged age) res.unmatchedDetections
      cascadeRounds detects aged ages
        { matched := res.matched ++ round.matched
          unmatchedTracks := res.unmatchedTracks ++ round.unmatchedTracks
          unmatchedDetections := round.unmatchedDetections }

/-- `MatchCascade`, with the detections as it leaves them. -/
def matchCascade (detects : List (DetectObject K)) (confirmed : List Nat) :
    OnTracks K (List (DetectObject K) × MatchResult) :=
  let res : MatchResult :=
    { matched := [], unmatchedTracks := [], unmatchedDetections := List.range detects.length }
  if confirmed.isEmpty ∨ detects.isEmpty then pure (detects, res)
  else do
    let detects := detects.map fun det => { det with featMold := l2Norm algo.sqrt det.feature }
    let aged ← Attempt.look fun tracks => .ok (ageTrackIndices tracks confirmed)
    let res ← cascadeRounds algo p detects aged (List.range p.maxAge.toNat) res
    return (detects, res)

end Cascade

/-! ## The frame -/

section Frame

variable (algo : MatchAlgorithm K) (p : Params K)

/-- Give first missed objects a chance: they are matched by IoU after `matchIouTrack`. -/
def giveChance : List Nat → List Nat → OnTracks K (List Nat)
  | [], matchIouTrack => pure matchIouTrack
  | idx :: idxs, matchIouTrack => do
    let track ← Attempt.look fun tracks => readAt .outOfRange tracks idx
    if track.timeSinceLastUpdate = 1 then giveChance idxs (matchIouTrack ++ [idx])
    else do
      onTrack idx fun track => (.ok (), markMiss p track)
      giveChance idxs matchIouTrack

/-- `MatchIou`, over the tracks as the cascade left them. -/
def matchIou (detects : List (DetectObject K)) (detectIndices trackIndices : List Nat)
    (tracks : List (FeatureMatchTrackObject K)) : Except Fault MatchResult :=
  if detectIndices.isEmpty then
    .ok { matched := [], unmatchedTracks := trackIndices, unmatchedDetections := [] }
  else if trackIndices.isEmpty then
    .ok { matched := [], unmatchedTracks := [], unmatchedDetections := detectIndices }
  else do
    let dets ← detectIndices.mapM (readAt .outOfRange detects)
    let tras ← trackIndices.mapM (readAt .outOfRange tracks)
    let cost := iouCost (tras.map (·.pos)) (dets.map fun det => boundingBox2Rect det.bbox)
    arrange cost p.maxIouDistance detectIndices trackIndices (algo.hungarianMatch cost)

/-- The matching of a frame, from predicted tracks. -/
def matchTracks (detects : List (DetectObject K)) (confirmed unconfirmed : List Nat) :
    OnTracks K (Matches K) := do
  let (detects, cascade) ← matchCascade algo p detects confirmed
  let matchIouTrack ← giveChance p cascade.unmatchedTracks unconfirmed
  let iou ← Attempt.look (matchIou algo p detects cascade.unmatchedDetections matchIouTrack)
  return { detects, cascade, iou }

/-- The tracks, `next_id_` and the output while the matches are applied. -/
structure Progress (K : Type) where
  tracks : List (FeatureMatchTrackObject K)
  nextId : Nat
  output : List (DetectObject K)

/-- A matched track before it may be confirmed. -/
def touchTrack (det : DetectObject K) (track : FeatureMatchTrackObject K) :
    FeatureMatchTrackObject K :=
  { track with
    kf := track.kf.update (toXyah det.bbox)
    features := if track.hasFeature then
        pushFeature p.nnBudget track.features ⟨det.feature, det.featMold⟩
      else track.features
    timeSinceLastUpdate := 0
    age := track.age + 1 }

/-- A matched track. -/
def updateTrack (det : DetectObject K) (nextId : Nat) (track : FeatureMatchTrackObject K) :
    FeatureMatchTrackObject K :=
  let track := touchTrack p det track
  if Confirms p track then { track with state := .confirmed, trackId := toInt32 nextId } else track

/-- A match: the output entry is filled before the track may be confirmed. -/
def updateMatched (detects : List (DetectObject K)) (u : Progress K) (pair : Nat × Nat) :
    Except Fault (Progress K) := do
  let track ← readAt .outOfRange u.tracks pair.2
  let det ← readAt .outOfRange detects pair.1
  return {
    tracks := u.tracks.set pair.2 (updateTrack p det u.nextId track)
    nextId := if Confirms p (touchTrack p det track) then u.nextId + 1 else u.nextId
    output := u.output ++ [{ det with trackId := track.trackId, detectId := pair.1 }] }

/-- A detection no track was matched with. -/
def startTrack (detects : List (DetectObject K)) (u : Progress K) (idx : Nat) :
    Except Fault (Progress K) := do
  let det ← readAt .outOfRange detects idx
  let track := initNewTrack det
  return { u with
    tracks := u.tracks ++ [track]
    output := u.output ++ [{ det with trackId := track.trackId, detectId := idx }] }

/-- The end of a frame, up to the erasing of dead tracks. -/
def applyMatches (m : Matches K) (tracks : List (FeatureMatchTrackObject K)) (nextId : Nat) :
    Except Fault (Progress K) := do
  let u ← (m.cascade.matched ++ m.iou.matched).foldlM (updateMatched p m.detects)
    { tracks, nextId, output := [] }
  let u ← m.iou.unmatchedDetections.foldlM (startTrack m.detects) u
  let tracks ← updateEach .outOfRange id (fun _ => .ok (markMiss p)) m.iou.unmatchedTracks u.tracks
  return { u with tracks }

/-- The matching of a frame: the result, and the tracks after it. -/
def matchFrame (detects : List (DetectObject K)) (tracks : List (FeatureMatchTrackObject K)) :
    Except Fault (Matches K) × List (FeatureMatchTrackObject K) :=
  (matchTracks algo p detects (confirmedTracks tracks) (unconfirmedTracks tracks)).exec
    (tracks.map predictTrack)

/-- Mark the norms of the features as not computed. -/
def resetMolds (detects : List (DetectObject K)) : List (DetectObject K) :=
  detects.map fun det => { det with featMold := -1 }

/-- The first frame, and any other without tracks. -/
def firstEnter (s : FeatureMatchPrivate K) (detects : List (DetectObject K)) :
    FeatureMatchPrivate K × List (DetectObject K) :=
  ({ s with tracks := detects.map initNewTrack },
    detects.mapIdx fun i det => { det with trackId := -1, detectId := i })

/-- The frame with tracks, up to the erasing of dead tracks. -/
def processFrame (s : FeatureMatchPrivate K) (detects : List (DetectObject K)) :
    Except (Fault × List (FeatureMatchTrackObject K)) (Progress K) :=
  match matchFrame algo s.params detects s.tracks with
  | (.error e, tracks) => .error (e, tracks)
  | (.ok m, tracks) =>
    match applyMatches s.params m tracks s.nextId with
    | .error e => .error (e, tracks)
    | .ok u => .ok u

/-- `UpdateFrame`: the state after the call, and the entries it appends or what it throws. -/
def updateFrame (s : FeatureMatchPrivate K) (detects : List (DetectObject K)) :
    FeatureMatchPrivate K × Except Fault (List (DetectObject K)) :=
  let detects := resetMolds detects
  if s.tracks.isEmpty then
    let (s, tracks) := firstEnter s detects
    (s, .ok tracks)
  else
    match processFrame algo s detects with
    | .error (e, tracks) => ({ s with tracks }, .error e)
    | .ok u =>
      let tracks := u.tracks.filter fun track => ¬Dead s.params track
      ({ s with tracks, nextId := u.nextId }, .ok u.output)

end Frame

end CambriconGst.TrackFm
