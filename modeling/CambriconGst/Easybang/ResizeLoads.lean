import CambriconGst.Easybang.ResizeBatching
import CambriconGst.Easybang.ResizeKernel

/-!
# The loads of the kernel of resize and convert

What `ResizeYuvToRgbaKernel` of `resize_yuv2rgba_kernel.mlu` loads from the planes of the source,
for an input as `BatchingUp` stores it. The position of a line in the source is a `float`: it is a
parameter. The `int`s of the kernel are the stored values, below 2^31.
-/

namespace CambriconGst.Easybang

/-- What the kernel reads for a batch element. -/
structure SrcRoi where
  /-- `src_col`, which is the stride. -/
  col : Nat
  x : Nat
  y : Nat
  w : Nat
  h : Nat
deriving DecidableEq, Repr

/-- The batch element of an input. -/
def InputData.srcRoi (inputData : InputData) : SrcRoi where
  col := inputData.srcStride.toNat
  x := inputData.cropX.toNat
  y := inputData.cropY.toNat
  w := inputData.cropW.toNat
  h := inputData.cropH.toNat

inductive Plane where
  | y | uv
deriving DecidableEq, Repr

/-- A `__memcpy` from a plane. -/
structure Load where
  plane : Plane
  offset : Int
  size : Nat
deriving DecidableEq, Repr

namespace SrcRoi

/-- `src_roi_x_`. -/
def evenX (roi : SrcRoi) : Nat :=
  roi.x / 2 * 2

/-- `src_roi_w_`. -/
def evenW (roi : SrcRoi) : Nat :=
  (roi.x % 2 + roi.w + 1) / 2 * 2

/-- `src_pos_h_int`. -/
def srcPosHInt (roi : SrcRoi) (srcPosH : ℚ) : Int :=
  min (⌊srcPosH⌋ * if srcPosH > 0 then 1 else 0) (roi.h - 1)

def y1H (roi : SrcRoi) (srcPosH : ℚ) : Int :=
  roi.srcPosHInt srcPosH + roi.y

def y2H (roi : SrcRoi) (srcPosH : ℚ) : Int :=
  min (roi.srcPosHInt srcPosH + 1) (roi.h - 1) + roi.y

/-- The offset of a row of a plane. -/
def rowOffset (roi : SrcRoi) (row : Int) : Int :=
  row * roi.col + roi.evenX

def width (roi : SrcRoi) (dstRoiW maxLoadNum : Nat) : Width where
  evenW := roi.evenW
  srcRoiW := roi.w
  dstRoiW := dstRoiW
  maxLoadNum := maxLoadNum

/-- The loads for a line in an iteration over `w_iter`; where nothing is stored nothing is
loaded. -/
def chunkLoads (roi : SrcRoi) (srcPosH : ℚ) (c : Chunk) : List Load :=
  if c.storeNum > 0 then
    let y1H := roi.y1H srcPosH
    let y2H := roi.y2H srcPosH
    [{ plane := .y, offset := c.column + roi.rowOffset y1H, size := c.loadNum },
      { plane := .uv, offset := c.column + roi.rowOffset (y1H.tdiv 2), size := c.loadNum },
      { plane := .y, offset := c.column + roi.rowOffset y2H, size := c.loadNum },
      { plane := .uv, offset := c.column + roi.rowOffset (y2H.tdiv 2), size := c.loadNum }]
  else []

/-- The loads for a line of the destination. -/
def loads (roi : SrcRoi) (dstRoiW maxLoadNum : Nat) (srcPosH : ℚ) : List Load :=
  (roi.width dstRoiW maxLoadNum).chunks.flatMap (roi.chunkLoads srcPosH)

end SrcRoi

end CambriconGst.Easybang
