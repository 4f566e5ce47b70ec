import Mathlib.Logic.Function.Basic
import CambriconGst.Easytrack.TrackKcf
import CambriconGst.Lib.System

/-!
# The frames of the KCF tracker

`KcfTrack::UpdateFrame` and `KcfTrackPrivate::KcfUpdate` of `easytrack/track_kcf.cpp`, with the host
side of `kcf_initKernel` and `kcf_updateKernel` of `easytrack/kcf/kcf.cpp`. The kernels themselves
run on the device: what they report is a label of the step.
-/

namespace CambriconGst.TrackKcf

open Lib Easytrack

/-- `__Rect`. The score is a `float` converted from an `int`. -/
structure Roi where
  x : Int
  y : Int
  width : Int
  height : Int
  score : Int
  label : Int
deriving DecidableEq, Repr

def maxKcfObjNum : Nat := 10

/-- `MAX_ROI_NUM` of `kcf_macro.h`. -/
def maxRoiNum : Nat := 10

/-- `rois_`, of `4 * maxKcfObjNum` entries, with the indices at which it has been accessed. -/
structure Rois where
  cells : Nat → Roi
  accesses : List Nat

/-- What the device leaves in `cpu_buffer`. The number is read on key frames only. -/
structure Report where
  roiNum : Int
  detectRoi : Nat → Roi

namespace Rois

def write (rois : Rois) (idx : Nat) (roi : Roi) : Rois where
  cells := Function.update rois.cells idx roi
  accesses := rois.accesses ++ [idx]

/-- The loop at the end of both kernel wrappers; `out_roi` is `rois_ + base`. -/
def store (rois : Rois) (base : Nat) (detectRoi : Nat → Roi) (roiNum : Int) : Rois :=
  (List.range roiNum.toNat).foldl (fun rois i => rois.write (base + i) (detectRoi i)) rois

end Rois

/-- Conversion to `uint32_t`. -/
def toUint32 (n : Int) : Nat :=
  (n % 2 ^ 32).toNat

variable {K : Type}

/-- `KcfTrackPrivate`, as far as frames change it. -/
structure Kcf (K : Type) where
  rois : Rois
  trackNum : Int
  p : KcfTrackPrivate K

/-- The state after the constructor; `new` leaves the entries of `rois_` as they are. -/
def Kcf.create (garbage : Nat → Roi) : Kcf K where
  rois := { cells := garbage, accesses := [] }
  trackNum := -1
  p := { trackObjs := [], nextIdx := 1 }

/-- A frame, the limit of the last `SetParams`, and what the device reports for the frame. -/
structure KcfFrame (K : Type) where
  frameId : Int
  width : Nat
  height : Nat
  maxIouDistance : K
  report : Report

/-- `frame_index`: the remainder of an `int64_t`, which is not positive for a negative id. -/
def KcfFrame.frameIndex (frame : KcfFrame K) : Nat :=
  toUint32 (frame.frameId.tmod 4)

namespace Kcf

/-- `frame_index * track_num_`, an unsigned product. -/
def base (trackNum : Int) (frameIndex : Nat) : Nat :=
  toUint32 (frameIndex * trackNum)

/-- The kernel of the frame, and the copy of its ROIs. -/
def runKernel (s : Kcf K) (frameIndex : Nat) (report : Report) : Kcf K :=
  if frameIndex % 4 = 0 then
    { s with
      rois := s.rois.store 0 report.detectRoi report.roiNum
      trackNum := report.roiNum }
  else { s with rois := s.rois.store (base s.trackNum frameIndex) report.detectRoi s.trackNum }

/-- The indices that the loop over `objs` reads. -/
def objIndices (trackNum : Int) (frameIndex : Nat) : List Nat :=
  (List.range (min trackNum.toNat maxKcfObjNum)).map fun oi : Nat =>
    toUint32 (base trackNum frameIndex + oi : Nat)

end Kcf

variable [Field K]

def rect2BoundingBox (rect : Rect K) : BoundingBox K where
  x := rect.xmin
  y := rect.ymin
  width := rect.xmax - rect.xmin
  height := rect.ymax - rect.ymin

/-- The detection of a ROI, in parts of the frame. The fields left over are not read. -/
def Roi.toObj (roi : Roi) (frameWidth frameHeight : Nat) : DetectObject K where
  label := roi.label
  score := (roi.score : K) / 1000
  bbox :=
    { x := (roi.x : K) / frameWidth
      y := (roi.y : K) / frameHeight
      width := (roi.width : K) / frameWidth
      height := (roi.height : K) / frameHeight }
  trackId := -1
  detectId := -1
  feature := []
  featMold := -1

variable [LinearOrder K]

/-- The tracks that are not put out. -/
def KcfTrackObject.Hidden (t : KcfTrackObject K) : Prop :=
  t.classId < 0 ∨ t.trackId < 0 ∨ t.rect.xmin < 0 ∨ t.rect.xmin > 1 ∨ t.rect.ymin < 0 ∨
    t.rect.ymin > 1 ∨ t.rect.xmax < 0 ∨ t.rect.xmax > 1 ∨ t.rect.ymax < 0 ∨ t.rect.ymax > 1

instance (t : KcfTrackObject K) : Decidable t.Hidden :=
  inferInstanceAs (Decidable (_ ∨ _))

def KcfTrackObject.output (t : KcfTrackObject K) : DetectObject K where
  label := t.classId
  score := t.confidence
  bbox := rect2BoundingBox t.rect
  trackId := t.trackId
  detectId := -1
  feature := []
  featMold := -1

variable (algo : MatchAlgorithm K)

/-- `KcfUpdate`: the state after the frame, and the tracks put out. -/
def Kcf.kcfUpdate (s : Kcf K) (frameIndex frameWidth frameHeight : Nat) (maxIouDistance : K)
    (report : Report) : Except Fault (Kcf K × List (DetectObject K)) := do
  let s := s.runKernel frameIndex report
  let indices := objIndices s.trackNum frameIndex
  let objs := indices.map fun i => (s.rois.cells i).toObj frameWidth frameHeight
  let p ← processTrack algo maxIouDistance objs frameIndex s.p
  let tracks := (p.trackObjs.filter fun t => ¬t.Hidden).map (·.output)
  return ({ s with rois := { s.rois with accesses := s.rois.accesses ++ indices }, p }, tracks)

/-- `UpdateFrame`, for a frame on the device. -/
def Kcf.updateFrame (s : Kcf K) (frame : KcfFrame K) :
    Except Fault (Kcf K × List (DetectObject K)) :=
  s.kcfUpdate algo frame.frameIndex frame.width frame.height frame.maxIouDistance frame.report

/-- One frame. There is no next state when an index is outside its vector. -/
def Kcf.next (s : Kcf K) (frame : KcfFrame K) : Option (Kcf K) :=
  (s.updateFrame algo frame).toOption.map Prod.fst

end CambriconGst.TrackKcf
