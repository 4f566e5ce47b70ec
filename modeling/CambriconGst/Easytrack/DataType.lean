import Mathlib.Algebra.Field.Basic

/-!
# Data of the trackers

`easytrack/easy_track.h` and `easytrack/track_data_type.h`. Numbers are exact, of a type `K`.
-/

namespace CambriconGst.Easytrack

variable {K : Type}

structure BoundingBox (K : Type) where
  x : K
  y : K
  width : K
  height : K
deriving DecidableEq, Repr

structure Rect (K : Type) where
  xmin : K
  ymin : K
  xmax : K
  ymax : K
deriving DecidableEq, Repr

def boundingBox2Rect [Add K] (bbox : BoundingBox K) : Rect K where
  xmin := bbox.x
  ymin := bbox.y
  xmax := bbox.x + bbox.width
  ymax := bbox.y + bbox.height

/-- Detection objects. `featMold` is the cached norm of the feature, negative when not computed. -/
structure DetectObject (K : Type) where
  label : Int
  score : K
  bbox : BoundingBox K
  trackId : Int
  detectId : Int
  feature : List K
  featMold : K
deriving DecidableEq, Repr

inductive TrackState where
  | tentative
  | confirmed
  | deleted
deriving DecidableEq, Repr

/-- A feature and its cached norm, negative when not computed. -/
structure Feature (K : Type) where
  vec : List K
  mold : K
deriving DecidableEq, Repr

/-- `matched` is `matches` of the source: pairs of a detection and a track. -/
structure MatchResult where
  matched : List (Nat × Nat)
  unmatchedTracks : List Nat
  unmatchedDetections : List Nat
deriving DecidableEq, Repr

/-- What stops a call: an exception, or an index outside its vector. -/
inductive Fault where
  | invalidArg (msg : String)
  | outOfRange
deriving DecidableEq, Repr

end CambriconGst.Easytrack
