import CambriconGst.Easybang.ResizeColor
import CambriconGst.Easybang.ResizeLoads
import CambriconGst.Easybang.ResizeRounded

/-!
# The pixels of resize and convert

What `ResizeYuvToRgbaKernel` of `resize_yuv2rgba_kernel.mlu` computes in its buffers for a line of the
destination, and the bytes that it stores. Positions are floats and colours are halves, which the
device rounds in whatever way: `Rounded.Device`, `HalfUnit`. What a buffer holds that nothing was put
in is a parameter.
-/

namespace CambriconGst.Easybang

open Lib

/-! ## Instructions -/

/-- `__memcpy` of `n` elements to `dst`. -/
def copyTo {V : Type} (dst n : Nat) (src : Nat → V) (buffer : Nat → V) (i : Nat) : V :=
  if dst ≤ i ∧ i < dst + n then src (i - dst) else buffer i

/-- `__bang_collect`: the elements whose mask is set, to `dst`. -/
def bangCollect (dst : Nat) (src : Nat → ℚ) (mask : Nat → Bool) (n : Nat) (buffer : Nat → ℚ) :
    Nat → ℚ :=
  let selected := ((List.range n).filter mask).map src
  copyTo dst selected.length (fun i => selected.getD i 0) buffer

/-- How the device calculates with halves. -/
structure HalfUnit extends Halves where
  /-- What is stored of a product, a sum or a difference. -/
  round : ℚ → ℚ
  average : List ℚ → ℚ
  half2ucharDn : ℚ → UInt8

namespace HalfUnit

variable (u : HalfUnit)

/-- `__bang_avgpool` over all `k` columns. -/
def bangAvgpool (channels k : Nat) (src : Nat → ℚ) (i : Nat) : ℚ :=
  u.average ((List.range k).map fun s => src (s * channels + i))

/-- Module 7: from 128 on what is converted is less by 256. -/
def byte (q : ℚ) : UInt8 :=
  let mask := if q ≥ 128 then 1 else 0
  u.half2ucharDn (u.round (q - u.round (mask * 256)))

/-- `h_weight1`. -/
def hWeight1 (dev : Rounded.Device) (roi : SrcRoi) (srcPosH : ℚ) : ℚ :=
  let int := roi.srcPosHInt srcPosH
  let w := u.round (u.round (dev.float.round (srcPosH - dev.float.round int)) *
    if srcPosH > 0 then 1 else 0)
  u.round (u.round (w * if int < roi.h then 1 else 0) + if int ≥ roi.h then 1 else 0)

end HalfUnit

/-! ## A line of the destination -/

/-- The planes of the source of a batch element. -/
structure Source where
  /-- `src_col`. -/
  col : Nat
  plane : Plane → Int → UInt8

/-- What the buffers hold. -/
structure Buffers where
  yuv : Nat → UInt8
  rgba : Nat → ℚ
  maskRight : Nat → Bool
  weight : Nat → ℚ
  select : Nat → ℚ

/-- What the kernel is started with, beyond where it stores. -/
structure Args extends Task where
  mode : ColorMode
  unit : HalfUnit
  dev : Rounded.Device
  source : Nat → Source
  /-- What the buffers hold when a core begins a line. -/
  buffers : Nat → Nat → Chunk → Nat → Buffers

/-- `yuv_num_pad`. -/
def yuvNumPad (loadNum : Nat) : Nat :=
  padUp (loadNum * channel) halfPadSize / channel

/-- `yuv_2line_num_pad`. -/
def yuv2lineNumPad (loadNum : Nat) : Nat :=
  padUp (yuvNumPad loadNum * 2) ci

/-- `weight_num_pad`. -/
def weightNumPad (storeNum : Nat) : Nat :=
  padUp (storeNum * channel) halfPadSize

section Float

variable (dev : Rounded.Device)

/-- `src_dst_scale_h`. -/
def srcDstScaleH (srcRoiH dstRoiH : Nat) : ℚ :=
  dev.float.round (dev.float.round srcRoiH / dev.float.round dstRoiH)

/-- `src_pos_h_offset`. -/
def srcPosHOffset (srcRoiH dstRoiH dstRoiHOffset : Nat) : ℚ :=
  let scale := srcDstScaleH dev srcRoiH dstRoiH
  let product := dev.float.round (dev.float.round dstRoiHOffset * scale)
  let sum := dev.double.round (product + dev.double.round (scale * (1 / 2)))
  dev.float.round (dev.double.round (sum - 1 / 2))

/-- `src_pos_h`. -/
def srcPosH (srcRoiH dstRoiH dstRoiHOffset dstIdxH : Nat) : ℚ :=
  let product := dev.float.round (dev.float.round dstIdxH * srcDstScaleH dev srcRoiH dstRoiH)
  dev.float.round (product + srcPosHOffset dev srcRoiH dstRoiH dstRoiHOffset)

end Float

/-- `load_y_nram` and behind it `load_uv_nram`: two lines of each. -/
def loadLines (source : Source) (roi : SrcRoi) (srcPosH : ℚ) (ch : Chunk) (stale : Nat → UInt8) :
    Nat → UInt8 :=
  let n := yuvNumPad ch.loadNum
  let n2 := yuv2lineNumPad ch.loadNum
  (List.zip (roi.chunkLoads srcPosH ch) [0, n2, n, n2 + n]).foldl (fun buffer l =>
    copyTo l.2 l.1.size (fun j => source.plane l.1.plane (l.1.offset + j)) buffer) stale

namespace Columns

variable (c : Columns)

/-- `mask_left_nram` and `mask_right_nram`; only the left one is cleared before it is loaded. -/
def maskNram (ch : Chunk) (stale : Nat → Bool) (m : Mask) (i : Nat) : Bool :=
  if i < c.mult * channel * ch.loadNum then c.group m (c.mult * ch.maskColumn + i / channel)
  else
    match m with
    | .left => false
    | .right => stale i

/-- `weight_nram`: those for the left pixels, then those for the right ones. -/
def weightNram (ch : Chunk) (stale : Nat → ℚ) : Nat → ℚ :=
  let n := ch.storeNum * channel
  copyTo (weightNumPad ch.storeNum) n (fun i => c.weight .right (ch.weight + i / channel))
    (copyTo 0 n (fun i => c.weight .left (ch.weight + i / channel)) stale)

/-- `select_rgba_nram` after the four `__bang_collect`. -/
def selectRgba (ch : Chunk) (b : Buffers) (src : Nat → ℚ) : Nat → ℚ :=
  let n := padUp (c.mult * channel * ch.loadNum) halfPadSize
  let weightNumPad := weightNumPad ch.storeNum
  let line2 := fun i => src (yuvNumPad ch.loadNum * channel * c.mult + i)
  let mask := c.maskNram ch b.maskRight
  let b := bangCollect 0 src (mask .left) n b.select
  let b := bangCollect weightNumPad src (mask .right) n b
  let b := bangCollect (2 * weightNumPad) line2 (mask .left) n b
  bangCollect (3 * weightNumPad) line2 (mask .right) n b

/-- Module 6: what is interpolated from `src_rgba_nram`. -/
def interp (u : HalfUnit) (ch : Chunk) (b : Buffers) (hWeight1 : ℚ) (src : Nat → ℚ) : Nat → ℚ :=
  let weightNumPad := weightNumPad ch.storeNum
  let select := c.selectRgba ch b src
  let weight := c.weightNram ch b.weight
  let hWeight0 := u.round (1 - hWeight1)
  u.bangAvgpool weightNumPad 4 fun i =>
    if i < 2 * weightNumPad then
      u.round (u.round (select i * weight i) * u.round (hWeight0 * 4))
    else u.round (u.round (select i * weight (i - 2 * weightNumPad)) * u.round (hWeight1 * 4))

end Columns

namespace Args

variable (a : Args)

/-- The key of the tables, which the host has laid down for its own width. -/
def tableKey (roi : Roi) : TableKey :=
  (Rounded.listEntry a.keepAspectRatio a.dst roi).tableKey

def columns (roi : Roi) : Columns :=
  Rounded.columns (a.tableKey roi)

/-- What the host wrote to the workspace. -/
def workspace : Workspace :=
  Rounded.prepareMaskAndWeights a.keepAspectRatio a.dst a.rois

/-- `dst_idx_w_end`. -/
def dstIdxWEnd (batch : Nat) (roi : Roi) : Nat → Nat :=
  Rounded.dstIdxWEnd a.dev (a.width batch roi)

def chunks (batch : Nat) (roi : Roi) : List Chunk :=
  (a.width batch roi).chunksTo (a.dstIdxWEnd batch roi)

def srcRoi (batch : Nat) (roi : Roi) : SrcRoi where
  col := (a.source batch).col
  x := roi.x
  y := roi.y
  w := roi.w
  h := roi.h

/-- `src_pos_h` of a line of a core. -/
def linePosH (coreId : Nat) (roi : Roi) (hIter : Nat) : ℚ :=
  srcPosH a.dev roi.h (a.dstRoi roi).h (dstRoiHOffset (a.dstRoi roi).h a.coreDim coreId) hIter

/-- `src_rgba_nram`, for a line of a core in an iteration over `w_iter`. -/
def srcRgba (coreId batch : Nat) (roi : Roi) (ch : Chunk) (hIter : Nat) : Nat → ℚ :=
  let b := a.buffers coreId batch ch hIter
  let yuv := loadLines (a.source batch) (a.srcRoi batch roi) (a.linePosH coreId roi hIter) ch b.yuv
  let rgba := yuv2rgba a.mode a.unit.toHalves (yuv2lineNumPad ch.loadNum) fun i => (yuv i).toNat
  expand (a.columns roi).mult (2 * yuvNumPad ch.loadNum) a.workspace.writes
    (a.workspace.copyFilterAddr a.rois.length batch) b.rgba rgba

/-- The bytes of the line. -/
def lineBytes (coreId batch : Nat) (roi : Roi) (ch : Chunk) (hIter i : Nat) : UInt8 :=
  a.unit.byte ((a.columns roi).interp a.unit ch (a.buffers coreId batch ch hIter)
    (a.unit.hWeight1 a.dev (a.srcRoi batch roi) (a.linePosH coreId roi hIter))
    (a.srcRgba coreId batch roi ch hIter) i)

/-- The bytes that a core stores for a batch element, with their addresses in `dst_gdram`. -/
def batchBytes (coreId batch : Nat) (roi : Roi) : List (Nat × UInt8) :=
  let segOffset := dstRoiHOffset (a.dstRoi roi).h a.coreDim coreId * a.dst.col * 4
  let dstAddr := batch * a.dst.row * a.dst.col * 4 + a.padOffset roi + segOffset
  (a.chunks batch roi).flatMap fun ch =>
    (List.range (dstRoiHDeal (a.dstRoi roi).h a.coreDim coreId)).flatMap fun hIter =>
      (List.range (ch.storeNum * 4)).map fun i =>
        (dstAddr + ch.dstAddr + hIter * a.dst.col * 4 + i, a.lineBytes coreId batch roi ch hIter i)

/-- The bytes that a core stores. -/
def coreBytes (taskIdY coreId : Nat) : List (Nat × UInt8) :=
  let start := startBatch a.rois.length a.taskDimY taskIdY
  let stop := endBatch a.rois.length a.taskDimY taskIdY
  (List.range' start (stop - start)).flatMap fun batch =>
    match a.rois[batch]? with
    | some roi => a.batchBytes coreId batch roi
    | none => []

/-- The bytes that all clusters and cores store. -/
def bytes : List (Nat × UInt8) :=
  (List.range a.taskDimY).flatMap fun taskIdY =>
    (List.range a.coreDim).flatMap (a.coreBytes taskIdY)

end Args

end CambriconGst.Easybang
