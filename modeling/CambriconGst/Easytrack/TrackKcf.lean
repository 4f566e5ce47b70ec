import CambriconGst.Easytrack.Match

/-!
# The KCF tracker's tracks

`easytrack/track_kcf.cpp`: `KcfTrackPrivate::ProcessTrack`, which updates the tracks from the boxes
the KCF kernel reports.
-/

namespace CambriconGst.TrackKcf

open Lib Easytrack

variable {K : Type}

structure KcfTrackObject (K : Type) where
  trackId : Int
  classId : Int
  confidence : K
  rect : Rect K
  state : TrackState
  kcfOutIdx : Nat
deriving DecidableEq, Repr

/-- The part of `KcfTrackPrivate` that `ProcessTrack` changes. -/
structure KcfTrackPrivate (K : Type) where
  trackObjs : List (KcfTrackObject K)
  nextIdx : Int
deriving DecidableEq, Repr

variable [Field K]

/-- The track started for a detection. -/
def newTrack (nextIdx : Int) (detObj : DetectObject K) (idx : Nat) : KcfTrackObject K where
  trackId := nextIdx
  classId := detObj.label
  confidence := detObj.score
  rect := boundingBox2Rect detObj.bbox
  state := .confirmed
  kcfOutIdx := idx

/-- Append a track for the detection at an index. -/
def pushTrack (detObjs : List (DetectObject K)) (p : KcfTrackPrivate K) (idx : Nat) :
    Except Fault (KcfTrackPrivate K) := do
  let detObj ← readAt .outOfRange detObjs idx
  return {
    trackObjs := p.trackObjs ++ [newTrack p.nextIdx detObj idx]
    nextIdx := p.nextIdx + 1 }

/-- A track on a frame that is not a key frame: it follows its box. -/
def followTrack (detObjs : List (DetectObject K)) (traObj : KcfTrackObject K) :
    Except Fault (KcfTrackObject K) := do
  let det ← readAt .outOfRange detObjs traObj.kcfOutIdx
  return { traObj with
    classId := det.label
    confidence := det.score
    rect := boundingBox2Rect det.bbox }

/-- A matched track takes its detection's box. -/
def takeDetection (det : DetectObject K) (idx : Nat) (tra : KcfTrackObject K) : KcfTrackObject K :=
  { tra with
    kcfOutIdx := idx
    confidence := det.score
    rect := boundingBox2Rect det.bbox }

/-- The change a match makes to its track. -/
def matchTrack (detObjs : List (DetectObject K)) (m : Nat × Nat) :
    Except Fault (KcfTrackObject K → KcfTrackObject K) := do
  let det ← readAt .outOfRange detObjs m.1
  return takeDetection det m.1

variable [LinearOrder K]

/-- `dist_cost`: a row for each detection, a column for each track. -/
def distCost (detObjs : List (DetectObject K)) (trackObjs : List (KcfTrackObject K)) :
    CostMatrix K :=
  iouCost (detObjs.map fun det => boundingBox2Rect det.bbox) (trackObjs.map (·.rect))

variable (algo : MatchAlgorithm K) (maxIouDistance : K)

/-- The key frame branch of `ProcessTrack`. -/
def associate (detObjs : List (DetectObject K)) (p : KcfTrackPrivate K) :
    Except Fault (KcfTrackPrivate K) := do
  let cost := distCost detObjs p.trackObjs
  let assignments := algo.hungarianMatch cost
  -- row `i` is taken for track `i`
  let res ← arrange cost maxIouDistance (List.range detObjs.length)
    (List.range assignments.length) assignments
  let trackObjs ← updateEach .outOfRange Prod.snd (matchTrack detObjs) res.matched p.trackObjs
  let trackObjs ← updateEach .outOfRange id
    (fun _ => .ok fun tra => { tra with state := .deleted }) res.unmatchedTracks trackObjs
  let trackObjs := trackObjs.filter fun tra => tra.state ≠ .deleted
  res.unmatchedDetections.foldlM (pushTrack detObjs) { p with trackObjs }

/-- `ProcessTrack`. -/
def processTrack (detObjs : List (DetectObject K)) (frameIndex : Nat) (p : KcfTrackPrivate K) :
    Except Fault (KcfTrackPrivate K) :=
  if detObjs.isEmpty then .ok { p with trackObjs := [] }
  else if p.trackObjs.isEmpty then (List.range detObjs.length).foldlM (pushTrack detObjs) p
  else if frameIndex % 4 ≠ 0 then do
    let trackObjs ← p.trackObjs.mapM (followTrack detObjs)
    return { p with trackObjs }
  else associate algo maxIouDistance detObjs p

end CambriconGst.TrackKcf
