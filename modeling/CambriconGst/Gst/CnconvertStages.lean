import CambriconGst.Gst.Cnconvert
import Mathlib.Logic.Function.Basic

/-!
# The converter's stages

How the stages of a path describe the pictures they read and write, and what `chain` says of the
picture in the frame that it pushes.
-/

namespace CambriconGst.Gst.Cnconvert

/-- `cncvImageDescriptor`. -/
structure ImageDescriptor where
  width : Nat
  height : Nat
  pixelFmt : VideoFormat
  stride : Nat → Nat

/-- `video_info_to_desc`. -/
def videoInfoToDesc (info : VideoInfo) : ImageDescriptor where
  width := info.width
  height := info.height
  pixelFmt := info.format
  stride := info.stride

/-- A call of the library: the picture it reads, and the one it writes. -/
structure Stage where
  src : ImageDescriptor
  dst : ImageDescriptor

namespace Conversion

/-- `resize_convert`. -/
def resizeConvert (c : Conversion) : Stage where
  src := videoInfoToDesc c.sinkInfo
  dst := videoInfoToDesc c.srcInfo

/-- `resize_rgb`. -/
def resizeRgb (c : Conversion) : Stage where
  src := videoInfoToDesc c.sinkInfo
  dst :=
    let dst := videoInfoToDesc c.srcInfo
    { dst with
      pixelFmt := c.sinkInfo.format
      stride := Function.update dst.stride 0 (dst.width * c.sinkInfo.format.channelNumPlane0) }

/-- `cvt_rgb`. -/
def cvtRgb (c : Conversion) : Stage where
  src :=
    let src := videoInfoToDesc c.srcInfo
    { src with
      pixelFmt := c.sinkInfo.format
      stride := Function.update src.stride 0 (src.width * c.sinkInfo.format.channelNumPlane0) }
  dst := videoInfoToDesc c.srcInfo

/-- The stages of a path, each of which reads what the one before it wrote. -/
def stages (c : Conversion) : Path → List Stage
  | .resizeRgb => [c.resizeRgb]
  | .cvtRgb => [c.cvtRgb]
  | .resizeConvert => [c.resizeConvert]
  | .resizeThenCvt => [c.resizeRgb, c.cvtRgb]

/-- The stride that `chain` stores in the frame it pushes. -/
def frameStride (c : Conversion) : Nat :=
  c.srcInfo.width * c.srcInfo.format.channelNumPlane0

end Conversion

end CambriconGst.Gst.Cnconvert
