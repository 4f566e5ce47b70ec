/-!
# Raw video

The formats the elements take, and what GStreamer says about the rows of a picture with given caps.
-/

namespace CambriconGst.Gst

/-- `GstVideoFormat`. -/
inductive VideoFormat where
  | nv12
  | nv21
  | i420
  | rgb
  | bgr
  | rgba
  | bgra
  | argb
  | abgr
deriving DecidableEq, Repr

namespace VideoFormat

/-- `get_channel_num_plane0`. -/
def channelNumPlane0 : VideoFormat → Nat
  | .nv12 | .nv21 | .i420 => 1
  | .rgb | .bgr => 3
  | .rgba | .bgra | .argb | .abgr => 4

def isYUV420sp : VideoFormat → Bool
  | .nv12 | .nv21 => true
  | _ => false

def isRGB : VideoFormat → Bool
  | .rgb | .bgr | .rgba | .bgra | .argb | .abgr => true
  | _ => false

def planes : VideoFormat → Nat
  | .nv12 | .nv21 => 2
  | .i420 => 3
  | _ => 1

end VideoFormat

/-- `GstVideoInfo`, as made from caps. -/
structure VideoInfo where
  format : VideoFormat
  width : Nat
  height : Nat
  width_pos : 0 < width
  height_pos : 0 < height
deriving DecidableEq, Repr

namespace VideoInfo

/-- The number of bytes of a row that are visible. -/
def rowBytes (info : VideoInfo) (plane : Nat) : Nat :=
  match info.format with
  | .nv12 | .nv21 => info.width
  | .i420 => if plane = 0 then info.width else info.width / 2
  | .rgb | .bgr => info.width * 3
  | .rgba | .bgra | .argb | .abgr => info.width * 4

def rows (info : VideoInfo) (plane : Nat) : Nat :=
  if plane = 0 then info.height else info.height / 2

end VideoInfo

/-- `GST_ROUND_UP_2`. -/
def roundUp2 (n : Nat) : Nat :=
  (n + 1) / 2 * 2

/-- `GST_ROUND_UP_4`. -/
def roundUp4 (n : Nat) : Nat :=
  (n + 3) / 4 * 4

/-- The stride of a plane, as `gst_video_info_from_caps` sets it. -/
def VideoInfo.stride (info : VideoInfo) (plane : Nat) : Nat :=
  match info.format with
  | .nv12 | .nv21 => if plane < 2 then roundUp4 info.width else 0
  | .i420 =>
    if plane = 0 then roundUp4 info.width
    else if plane < 3 then roundUp4 (roundUp2 info.width / 2)
    else 0
  | .rgb | .bgr => if plane = 0 then roundUp4 (info.width * 3) else 0
  | .rgba | .bgra | .argb | .abgr => if plane = 0 then info.width * 4 else 0

end CambriconGst.Gst
