import CambriconGst.Easycodec.VpuTimestamp

/-!
# Frames of the decoder

`DecodeHandler::ReceiveFrame` of `easydk/src/easycodec/easy_decode.cpp`, in the callback thread of
the codec, beside the threads that feed.
-/

namespace CambriconGst.ReceiveFrame

open Lib Easycodec VpuTimestamp

/-- `PixelFmt`; `cncodec_fmt` of `FormatInfo` has the same names. -/
inductive PixelFmt where
  | nv12
  | nv21
  | i420
  | yv12
  | yuyv
  | uyvy
  | yvyu
  | vyuy
  | p010
  | yuv420_10bit
  | yuv444_10bit
  | argb
  | abgr
  | bgra
  | rgba
  | ayuv
  | rgb565
  | raw
  | totalCount
deriving DecidableEq, Repr

namespace PixelFmt

/-- `plane_num` in `kFrameFormatMap`. -/
def planeNum : PixelFmt → Nat
  | .nv12 | .nv21 | .p010 | .yuv420_10bit => 2
  | .i420 | .yv12 | .yuv444_10bit => 3
  | .totalCount => 0
  | _ => 1

/-- `FormatInfo::GetPlaneSize`. -/
def getPlaneSize (fmt : PixelFmt) (pitch height : BitVec 32) (plane : Nat) : BitVec 32 :=
  if fmt.planeNum ≤ plane then 0
  else
    match fmt with
    | .nv12 | .nv21 | .i420 | .yv12 | .p010 =>
      if plane = 0 then pitch * height else pitch * (height >>> 1)
    | _ => pitch * height

end PixelFmt

inductive ColorStd where
  | ituBt709
  | ituBt601
  | ituBt2020
  | ituBt601Er
  | ituBt709Er
  | colorStandardInvalid
deriving DecidableEq, Repr

/-- What is read of `EasyDecode::Attr`. -/
structure Attr where
  pixelFormat : PixelFmt
  colorStd : ColorStd
  devId : Int
  /-- `frame_callback` is not null. -/
  frameCallback : Bool
deriving DecidableEq, Repr

/-- `cncodecFrame`, with its address. -/
structure CncodecFrame where
  address : BitVec 64
  channel : Int
  width : BitVec 32
  height : BitVec 32
  planeNum : Nat
  stride : Nat → BitVec 32
  planeAddr : Nat → BitVec 64

/-- `cnvideoDecOutput` and `cnjpegDecOutput`. -/
structure DecOutput where
  pts : BitVec 64
  frame : CncodecFrame

structure CnFrame where
  bufId : BitVec 64
  pts : BitVec 64
  height : BitVec 32
  width : BitVec 32
  frameSize : BitVec 64
  pformat : PixelFmt
  colorStd : ColorStd
  deviceId : Int
  channelId : Int
  nPlanes : Nat
  strides : List (BitVec 32)
  ptrs : List (BitVec 64)

namespace CncodecFrame

def isEmpty (frame : CncodecFrame) : Bool :=
  frame.width = 0 ∨ frame.height = 0 ∨ frame.planeNum = 0

/-- `finfo.frame_size` after the loop over the planes. -/
def frameSize (frame : CncodecFrame) (fmt : PixelFmt) : BitVec 64 :=
  (List.range frame.planeNum).foldl
    (fun size pi => size + (fmt.getPlaneSize (frame.stride pi) frame.height pi).zeroExtend 64) 0

end CncodecFrame

/-- The second argument of `GetVpuTimestamp`. -/
def DecOutput.key (o : DecOutput) : BitVec 32 :=
  o.pts.truncate 32

/-- `finfo.pts`, and the timestamps afterwards. -/
def queryPts (jpegDecode : Bool) (stamps : VpuTimestamps) (o : DecOutput) :
    BitVec 64 × VpuTimestamps :=
  if jpegDecode then (o.pts, stamps)
  else
    match stamps.getVpuTimestamp o.key true with
    | (some usrPts, stamps) => (usrPts, stamps)
    -- `finfo.pts` has its default, and the warning says what is used
    | (none, stamps) => (0, stamps)

/-- The rest of `finfo`. -/
def frameInfo (attr : Attr) (frame : CncodecFrame) (pts : BitVec 64) : CnFrame where
  bufId := frame.address
  pts := pts
  height := frame.height
  width := frame.width
  frameSize := frame.frameSize attr.pixelFormat
  pformat := attr.pixelFormat
  colorStd := attr.colorStd
  deviceId := attr.devId
  channelId := frame.channel
  nPlanes := frame.planeNum
  strides := (List.range frame.planeNum).map frame.stride
  ptrs := (List.range frame.planeNum).map frame.planeAddr

/-- `ReceiveFrame`: the frame that is handed to the callback, and the timestamps afterwards. -/
def receiveFrame (attr : Attr) (jpegDecode : Bool) (stamps : VpuTimestamps) (o : DecOutput) :
    Option CnFrame × VpuTimestamps :=
  let r := queryPts jpegDecode stamps o
  if o.frame.isEmpty then (none, r.2)
  else (if attr.frameCallback then some (frameInfo attr o.frame r.1) else none, r.2)

/-! ## A video decoder -/

inductive Label where
  /-- A thread enters `FeedVideoData`. -/
  | feedVideoData (thread : Nat) (pts : BitVec 64)
  /-- The codec call of a thread returns. -/
  | feedReturns (thread : Nat) (ecode : Ecode)
  /-- The codec reports a frame. -/
  | newFrame (o : DecOutput)

/-- The step of the timestamps under a label. -/
def Label.stampLabel : Label → VpuTimestamp.Label
  | .feedVideoData thread pts => .feedVideoData thread pts
  | .feedReturns thread ecode => .feedReturns thread ecode
  | .newFrame o => .getVpuTimestamp o.key true

/-- The decoder, and the frames handed over with the output each was made from. -/
structure VideoDecoder where
  handler : VpuTimestamp.DecodeHandler
  delivered : List (DecOutput × CnFrame)

def VideoDecoder.initial : VideoDecoder where
  handler := VpuTimestamp.initial
  delivered := []

def next (attr : Attr) (s : VideoDecoder) : Label → Option VideoDecoder
  | .feedVideoData thread pts =>
    (VpuTimestamp.next s.handler (.feedVideoData thread pts)).map fun handler => { s with handler }
  | .feedReturns thread ecode =>
    (VpuTimestamp.next s.handler (.feedReturns thread ecode)).map fun handler =>
      { s with handler }
  | .newFrame o =>
    let r := receiveFrame attr false s.handler.stamps o
    some
      { handler := { s.handler with stamps := r.2 }
        delivered := s.delivered ++ (r.1.map fun finfo => (o, finfo)).toList }

end CambriconGst.ReceiveFrame
