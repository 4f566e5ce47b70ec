import CambriconGst.Gst.VideoInfo
import Mathlib.Algebra.Ring.Nat

/-!
# The upload of the video encoder element

`encode_frame` of `gst/encode/gstcnvideo_enc.cpp`: a picture is brought into the input buffer of the
codec. A plane is the bytes from its address on. The conversion of RGB pictures is that of the CNCV
library, a parameter here.
-/

namespace CambriconGst.Gst

namespace CnvideoencUpload

/-- `cncodecPixelFormat`, as far as the element uses it. -/
inductive PixelFormat where
  | nv12
  | nv21
  | i420
  | argb
  | abgr
  | rgba
  | bgra
deriving DecidableEq, Repr

/-- `pixel_format_cast`. -/
def pixelFormatCast : VideoFormat → PixelFormat
  | .nv21 => .nv21
  | .nv12 => .nv12
  | .i420 => .i420
  | .bgra => .bgra
  | .rgba => .rgba
  | .argb => .argb
  | .abgr => .abgr
  | .rgb | .bgr => .rgba

/-- `GstVideoFrame`: a picture with strides of its own. -/
structure VideoFrame where
  info : VideoInfo
  stride : Nat → Nat
  data : Nat → Nat → UInt8

/-- `cncodecFrame`. -/
structure CncodecFrame where
  pixelFmt : PixelFormat
  width : Nat
  height : Nat
  stride : Nat → Nat
  plane : Nat → Nat → UInt8

/-- What keeps `encode_frame` from feeding a frame. -/
inductive Fault where
  /-- A product of the type `gint` overflows, after which C++ says nothing. -/
  | overflow
  /-- `rgb2rgba` returns `FALSE`. -/
  | failed
deriving DecidableEq, Repr

/-- A `gint` that is not negative. -/
def checkedInt (n : Nat) : Except Fault Nat :=
  if n < 2 ^ 31 then .ok n else .error .overflow

/-- `MluMemoryOp::MemcpyH2D` of `n` bytes. -/
def memcpyH2D (dst src : Nat → UInt8) (n : Nat) : Nat → UInt8 :=
  fun i => if i < n then src i else dst i

/-- The numbers of bytes that `copy_frame` copies of the planes. -/
def copySizes (format : PixelFormat) (frameSize : Nat) : Except Fault (Nat → Nat) :=
  match format with
  | .nv12 | .nv21 =>
    .ok fun p => if p = 0 then frameSize else if p = 1 then frameSize >>> 1 else 0
  | .i420 => .ok fun p => if p = 0 then frameSize else if p < 3 then frameSize >>> 2 else 0
  | .argb | .abgr | .rgba | .bgra => do
    let bytes ← checkedInt (frameSize <<< 2)
    return fun p => if p = 0 then bytes else 0

/-- `copy_frame`. -/
def copyFrame (format : PixelFormat) (dst : CncodecFrame) (src : VideoFrame) :
    Except Fault CncodecFrame := do
  let frameSize ← checkedInt (src.info.width * src.info.height)
  let sizes ← copySizes format frameSize
  return { dst with plane := fun p => memcpyH2D (dst.plane p) (src.data p) (sizes p) }

/-- `cncvImageDescriptor`, as far as it is set to anything but constants. -/
structure ImageDescriptor where
  width : Nat
  height : Nat
  pixelFmt : VideoFormat
  stride : Nat → Nat

/-- `video_info_to_desc`. -/
def videoInfoToDesc (info : VideoInfo) : ImageDescriptor where
  width := info.width
  height := info.height
  pixelFmt := info.format
  stride := info.stride

/--
`cncvRgbxToRgbx` of whole pictures, and `cnrtSyncQueue` behind it: what is in the memory of the
destination in the end, unless one of them fails.
-/
def RgbxToRgbx : Type :=
  ImageDescriptor → (Nat → UInt8) → ImageDescriptor → (Nat → UInt8) → Option (Nat → UInt8)

/-- The `dst_desc` of `rgb2rgba`. -/
def rgbaDesc (srcDesc : ImageDescriptor) : ImageDescriptor :=
  { srcDesc with
    pixelFmt := .rgba
    stride := fun p => if p = 0 then srcDesc.width * 4 else srcDesc.stride p }

/-- `rgb2rgba`. -/
def rgb2rgba (cncvRgbxToRgbx : RgbxToRgbx) (info : VideoInfo) (src : Nat → UInt8)
    (dst : CncodecFrame) : Except Fault CncodecFrame :=
  let srcDesc := videoInfoToDesc info
  match cncvRgbxToRgbx srcDesc src (rgbaDesc srcDesc) (dst.plane 0) with
  | some bytes => .ok { dst with plane := fun p => if p = 0 then bytes else dst.plane p }
  | none => .error .failed

/--
`encode_frame` up to the call that feeds the frame: `info` is that of the caps, `tmpRgb` what is in
the memory for RGB pictures, and `input` the buffer that the codec gave.
-/
def encodeFrame (cncvRgbxToRgbx : RgbxToRgbx) (tmpRgb : Nat → UInt8) (input : CncodecFrame)
    (frame : VideoFrame) : Except Fault CncodecFrame := do
  let input ←
    if frame.info.format = .rgb ∨ frame.info.format = .bgr then do
      let frameSize ← checkedInt (frame.stride 0 * frame.info.height)
      rgb2rgba cncvRgbxToRgbx frame.info (memcpyH2D tmpRgb (frame.data 0) frameSize) input
    else copyFrame (pixelFormatCast frame.info.format) input frame
  return { input with
    pixelFmt := pixelFormatCast frame.info.format
    width := frame.info.width
    height := frame.info.height
    stride := fun p => if p < frame.info.format.planes then frame.stride p else input.stride p }

end CnvideoencUpload

end CambriconGst.Gst
