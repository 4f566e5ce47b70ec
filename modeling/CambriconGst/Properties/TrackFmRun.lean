import CambriconGst.Lib.Kept
import CambriconGst.Lib.Transition
import CambriconGst.Properties.TrackFmFrame

/-!
# Runs of the feature match tracker

* `call_step`: what a call does, whether it returns or throws
* `lineage`: where a track is after a sequence of calls
-/

namespace CambriconGst.TrackFm

open Lib Easytrack

variable {K : Type}

/-- The calls of the tracker's interface. -/
inductive Call (K : Type) where
  | setParams (maxCosineDistance : K) (nnBudget : Int) (maxIouDistance : K) (maxAge nInit : Int)
  | updateFrame (detects : List (DetectObject K))

variable [Field K] [LinearOrder K] [IsStrictOrderedRing K]

section Runs

variable (algo : MatchAlgorithm K)

/-- The state after a call, and the entries it appends or what it throws. -/
def call (s : FeatureMatchPrivate K) :
    Call K → FeatureMatchPrivate K × Except Fault (List (DetectObject K))
  | .setParams maxCosineDistance nnBudget maxIouDistance maxAge nInit =>
    (s.setParams maxCosineDistance nnBudget maxIouDistance maxAge nInit, .ok [])
  | .updateFrame detects => updateFrame algo s detects

def run : FeatureMatchPrivate K → List (Call K) → FeatureMatchPrivate K
  | s, [] => s
  | s, c :: cs => run (call algo s c).1 cs

/-- Some call leads from a state to another. -/
def Step (s t : FeatureMatchPrivate K) : Prop :=
  ∃ c, t = (call algo s c).1

/-- Tracks that stay in `tracks_` at the end of a frame. -/
def alive (p : Params K) (track : FeatureMatchTrackObject K) : Bool :=
  ¬Dead p track

/-- Where in `tracks_` the track at an index is after a call; none when it was erased. -/
def survivor (s : FeatureMatchPrivate K) : Call K → Nat → Option Nat
  | .setParams .., i => some i
  | .updateFrame detects, i =>
    if s.tracks.isEmpty then some i
    else
      match processFrame algo s (resetMolds detects) with
      | .error _ => some i
      | .ok u => keptAt (alive s.params) u.tracks i

/-- Where the track at an index is after calls; none once it was erased. -/
def lineage : FeatureMatchPrivate K → List (Call K) → Nat → Option Nat
  | _, [], i => some i
  | s, c :: cs, i => (survivor algo s c i).bind (lineage (call algo s c).1 cs)

end Runs

variable {algo : MatchAlgorithm K}

/-- What a call can do: the state after it, its result, and where the tracks are. -/
inductive CallStep (algo : MatchAlgorithm K) (s : FeatureMatchPrivate K) :
    FeatureMatchPrivate K → Except Fault (List (DetectObject K)) → (Nat → Option Nat) → Prop where
  | setParams (params : Params K) : CallStep algo s { s with params } (.ok []) some
  | firstEnter (detects : List (DetectObject K)) (h : s.tracks = []) :
      CallStep algo s { s with tracks := detects.map initNewTrack }
        (.ok (detects.mapIdx fun i det => { det with trackId := -1, detectId := i })) some
  | throws (detects : List (DetectObject K)) (e : Fault) :
      CallStep algo s { s with tracks := (matchFrame algo s.params detects s.tracks).2 }
        (.error e) some
  | frame (detects : List (DetectObject K)) (m : Matches K) (u : Progress K)
      (hp : processFrame algo s detects = .ok u) (hF : Frame algo s detects m u) :
      CallStep algo s { s with tracks := u.tracks.filter (alive s.params), nextId := u.nextId }
        (.ok u.output) (keptAt (alive s.params) u.tracks)

theorem processFrame_error {s : FeatureMatchPrivate K} {detects : List (DetectObject K)} {e : Fault}
    {ts : List (FeatureMatchTrackObject K)} (h : processFrame algo s detects = .error (e, ts)) :
    ts = (matchFrame algo s.params detects s.tracks).2 := by
  unfold processFrame at h
  rcases hm : matchFrame algo s.params detects s.tracks with ⟨e' | m, ts'⟩
  · simp only [hm] at h
    exact ((Prod.mk.inj (Except.error.inj h)).2).symm
  · simp only [hm] at h
    cases ha : applyMatches s.params m ts' s.nextId with
    | error e' =>
      simp only [ha] at h
      exact ((Prod.mk.inj (Except.error.inj h)).2).symm
    | ok u =>
      simp only [ha] at h
      simp at h

/-- **Every call is one of these steps.** -/
theorem call_step (algo : MatchAlgorithm K) (s : FeatureMatchPrivate K) (c : Call K) :
    CallStep algo s (call algo s c).1 (call algo s c).2 (survivor algo s c) := by
  cases c with
  | setParams maxCosineDistance nnBudget maxIouDistance maxAge nInit =>
    exact CallStep.setParams _
  | updateFrame detects =>
    unfold call survivor updateFrame
    by_cases hs : s.tracks.isEmpty
    · simp only [if_pos hs, firstEnter]
      exact CallStep.firstEnter _ (List.isEmpty_iff.mp hs)
    · simp only [if_neg hs]
      rcases hp : processFrame algo s (resetMolds detects) with ⟨e, ts⟩ | u
      · obtain rfl := processFrame_error hp
        exact CallStep.throws _ e
      · obtain ⟨m, hF⟩ := processFrame_ok hp
        exact CallStep.frame _ m u hp hF

end CambriconGst.TrackFm
