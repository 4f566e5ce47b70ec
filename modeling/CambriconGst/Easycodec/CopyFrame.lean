import CambriconGst.Easycodec.ReceiveFrame

/-!
# Copies of frames

`EncodeHandler::CopyFrame` of `easy_encode.cpp` and `EasyDecode::CopyFrameD2H` of `easy_decode.cpp`:
how many bytes of each plane are copied. Sizes are computed in `uint32_t`.
-/

namespace CambriconGst.Easycodec

open ReceiveFrame

/-- A call of `MemcpyH2D` or `cnrtMemcpy`. -/
structure PlaneCopy where
  plane : Nat
  nBytes : BitVec 32
deriving DecidableEq, Repr

/-- `strides[p]`. -/
def stride (frame : CnFrame) (p : Nat) : BitVec 32 :=
  frame.strides.getD p 0

/-- `EncodeHandler::CopyFrame`, with `attr_.pixel_format`. -/
def copyFrame (pixelFormat : PixelFmt) (input : CnFrame) : Except Exception (List PlaneCopy) :=
  let frameSize :=
    if stride input 0 = 0 then input.width * input.height else stride input 0 * input.height
  let uvSize :=
    if stride input 1 = 0 then (input.width * input.height) >>> 1
    else (stride input 1 * input.height) >>> 1
  if input.frameSize > 0 then
    match pixelFormat with
    | .nv12 | .nv21 => .ok [{ plane := 0, nBytes := frameSize }, { plane := 1, nBytes := uvSize }]
    | .i420 =>
      .ok [{ plane := 0, nBytes := frameSize }, { plane := 1, nBytes := uvSize >>> 1 },
        { plane := 2, nBytes := uvSize >>> 1 }]
    | .argb | .abgr | .rgba | .bgra => .ok [{ plane := 0, nBytes := frameSize <<< 2 }]
    | _ => .error { code := .unsupported, msg := "Unsupported pixel format" }
  else .ok []

/-- `EasyDecode::CopyFrameD2H`; other formats are logged. -/
def copyFrameD2H (frame : CnFrame) : List PlaneCopy :=
  match frame.pformat with
  | .nv21 | .nv12 =>
    [{ plane := 0, nBytes := stride frame 0 * frame.height },
      { plane := 1, nBytes := (stride frame 1 * frame.height) / 2 }]
  | .i420 =>
    [{ plane := 0, nBytes := stride frame 0 * frame.height },
      { plane := 1, nBytes := (stride frame 1 * frame.height) / 2 },
      { plane := 2, nBytes := (stride frame 2 * frame.height) / 2 }]
  | _ => []

/-- The bytes that are copied of a plane. -/
def bytesOf (copies : List PlaneCopy) (plane : Nat) : Nat :=
  ((copies.filter fun c => c.plane = plane).map fun c => c.nBytes.toNat).sum

end CambriconGst.Easycodec
