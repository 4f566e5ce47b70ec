import CambriconGst.Easytrack.KcfUpdate
import CambriconGst.Lib.CellWrites

/-!
# The detections of a KCF key frame

The part of `KcfTrackPrivate::KcfUpdate` in `easytrack/track_kcf.cpp` that restructures the
detections for `kcf_initKernel`, and of `KcfTrack::SetModel` that allocates its buffers. The
conversion to `half` is that of the driver.
-/

namespace CambriconGst.TrackKcf

open Lib Easytrack

/-- `DETECT_OUT_SIZE`. -/
def detectOutSize : Nat := 224

/-- The length of each of the buffers. -/
def detectCells : Nat :=
  6 * detectOutSize

variable {K H : Type}

/-- `detect_float_output_`, `detect_half_output_` and `detect_output_`, with the writes to the
first. -/
structure DetectBuffers (K H : Type) where
  float : Nat → K
  half : Nat → H
  device : Nat → H
  writes : List Nat

/-- The calls of the tracker, as far as the buffers depend on them; memory that is new is as it
is. -/
inductive DetectCall (K H : Type) where
  | setModel (float : Nat → K) (half device : Nat → H)
  | updateFrame (frameId : Int) (detects : List (DetectObject K))

/-- `frame_index % 4 == 0`, with the `frame_index` that `UpdateFrame` passes. -/
def OnKeyFrame (frameId : Int) : Prop :=
  toUint32 (frameId.tmod 4) % 4 = 0

instance (frameId : Int) : Decidable (OnKeyFrame frameId) :=
  inferInstanceAs (Decidable (_ = _))

section Update

variable [Add K] [IntCast K]

/-- What a detection has in each of the six rows. -/
def detectRows (obj : DetectObject K) : List K :=
  [obj.bbox.x, obj.bbox.y, obj.bbox.x + obj.bbox.width, obj.bbox.y + obj.bbox.height, obj.score,
    obj.label]

/-- The assignments of the loop over the detections. -/
def detectWrites (detects : List (DetectObject K)) (detectSize : Nat) : List (Nat × K) :=
  (detects.take detectSize).zipIdx.flatMap fun (obj, i) =>
    (detectRows obj).zipIdx.map fun (v, r) => (i + r * detectOutSize, v)

variable [Zero K]

/-- `detect_float_output_` on a key frame. -/
def storeDetects (b : DetectBuffers K H) (detects : List (DetectObject K)) : DetectBuffers K H :=
  let detectSize := detects.length % 2 ^ 32
  if detectSize > 0 then
    { b with
      float := writeCells b.float (detectWrites detects detectSize)
      writes := b.writes ++ (detectWrites detects detectSize).map Prod.fst }
  else
    { b with
      float := fun idx => if idx < detectCells then 0 else b.float idx
      writes := b.writes ++ List.range detectCells }

variable (toHalf : K → H)

/-- The conversion, and the copy to the device. -/
def upload (b : DetectBuffers K H) : DetectBuffers K H :=
  let half := fun idx => if idx < detectCells then toHalf (b.float idx) else b.half idx
  { b with
    half
    device := fun idx => if idx < detectCells then half idx else b.device idx }

/-- The buffers after a call. -/
def callDetects (b : DetectBuffers K H) : DetectCall K H → DetectBuffers K H
  | .setModel float half device => { float, half, device, writes := b.writes }
  | .updateFrame frameId detects =>
    if OnKeyFrame frameId then upload toHalf (storeDetects b detects) else b

end Update

end CambriconGst.TrackKcf
