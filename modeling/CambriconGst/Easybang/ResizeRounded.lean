import CambriconGst.Easybang.ResizeKernel
import CambriconGst.Lib.Rounding

/-!
# Resize and convert in floating point

The widths and positions of `resize_yuv2rgba.cpp` in the types that it computes them in, `float` and
`double`, which are rounded to the nearest; and `dst_idx_w_end` of `resize_yuv2rgba_kernel.mlu`, with
whatever rounding the types have on the device.
-/

namespace CambriconGst.Easybang.Rounded

open Lib

/-- A number as a `float`. -/
def float (q : ℚ) : ℚ :=
  SignedRounding.single.round q

/-- A number as a `double`. -/
def double (q : ℚ) : ℚ :=
  SignedRounding.double.round q

/-! ## On the host -/

/-- `src_aspect_ratio`. -/
def srcAspectRatio (roi : Roi) : ℚ :=
  float (float roi.w / float roi.h)

/-- `dst_aspect_ratio`. -/
def dstAspectRatio (dst : Dst) : ℚ :=
  float (float dst.col / float dst.row)

/-- `dst_roi_w`. -/
def dstRoiW (keepAspectRatio : Bool) (dst : Dst) (roi : Roi) : Nat :=
  if keepAspectRatio ∧ srcAspectRatio roi ≠ dstAspectRatio dst ∧
      srcAspectRatio roi ≤ dstAspectRatio dst then
    (stdRound (float (float dst.row * srcAspectRatio roi))).toNat
  else dst.col

/-- `mult`. -/
def mult (w dstRoiW : Nat) : Nat :=
  if w < dstRoiW then
    (⌈double (double (double (3 / 2 * dstRoiW) / w) + 1 / 2)⌉ - 1).toNat
  else 1

/-- `cur_scale_w`. -/
def curScaleW (k : TableKey) : ℚ :=
  float (float k.w / float k.dstRoiW)

/-- `src_w_iter_base`. -/
def srcWIterBase (k : TableKey) : ℚ :=
  float (double (double (1 / 2 * curScaleW k) - 1 / 2))

/-- `src_w_iter`. -/
def srcWIter (k : TableKey) (d : Nat) : ℚ :=
  let srcWIter := float (float (float d * curScaleW k) + srcWIterBase k)
  let srcWIter := if srcWIter < 0 then 0 else srcWIter
  if srcWIter > float (k.w - 1) then float (k.w - 1) else srcWIter

/-- `src_w_iter_int`. -/
def srcWIterInt (k : TableKey) (d : Nat) : Nat :=
  ⌊srcWIter k d⌋.toNat

def rightWeight (k : TableKey) (d : Nat) : ℚ :=
  float (srcWIter k d - float (srcWIterInt k d))

def leftWeight (k : TableKey) (d : Nat) : ℚ :=
  float (double (1 - rightWeight k d))

def columns (k : TableKey) : Columns where
  toTableKey := k
  mult := mult k.w k.dstRoiW
  srcWIterInt := srcWIterInt k
  leftWeight := leftWeight k
  rightWeight := rightWeight k

def listEntry (keepAspectRatio : Bool) (dst : Dst) (roi : Roi) : ListEntry :=
  let dstRoiW := dstRoiW keepAspectRatio dst roi
  { srcRoiX := roi.x, srcRoiW := roi.w, dstRoiW, mult := mult roi.w dstRoiW }

def prepareMaskAndWeights (keepAspectRatio : Bool) (dst : Dst) (rois : List Roi) : Workspace :=
  prepareEntries columns (rois.map (listEntry keepAspectRatio dst))

abbrev IntsFit (keepAspectRatio : Bool) (dst : Dst) (rois : List Roi) : Prop :=
  EntriesFit columns (rois.map (listEntry keepAspectRatio dst))

/-! ## In the kernel -/

/-- The types `float` and `double` of the device. -/
structure Device where
  float : SignedRounding
  double : SignedRounding

section Kernel

variable (dev : Device)

/-- `dst_src_scale_w`. -/
def dstSrcScaleW (p : Width) : ℚ :=
  dev.float.round (dev.float.round p.dstRoiW / dev.float.round p.srcRoiW)

/-- `dst_pos_w_offset`. -/
def dstPosWOffset (p : Width) : ℚ :=
  dev.float.round (dev.double.round (dev.double.round (dstSrcScaleW dev p * (1 / 2)) - 1 / 2))

/-- Where a column of the source begins in the destination. -/
def dstPosW (p : Width) (srcIdxW : Nat) : ℚ :=
  dev.float.round (dev.float.round (dev.float.round srcIdxW * dstSrcScaleW dev p)
    + dstPosWOffset dev p)

/-- `dst_idx_w_end`. -/
def dstIdxWEnd (p : Width) (srcIdxW : Nat) : Nat :=
  min ⌈dstPosW dev p srcIdxW⌉.toNat p.dstRoiW

end Kernel

end CambriconGst.Easybang.Rounded
