import Mathlib.Data.Rat.Floor

/-!
# The geometry of resize and convert

`easybang/resize_and_convert`: the part of the destination picture that a region of the source is
resized to, as the host computes it and as the kernel does. Quotients are exact.
-/

namespace CambriconGst.Easybang

/-- A region of the source picture. -/
structure Roi where
  x : Nat
  y : Nat
  w : Nat
  h : Nat
  w_pos : 0 < w
  h_pos : 0 < h
deriving Repr

/-- The destination picture. -/
structure Dst where
  row : Nat
  col : Nat
  row_pos : 0 < row
  col_pos : 0 < col
deriving Repr

/-- `std::round`, halves away from zero. -/
def stdRound (q : ℚ) : ℤ :=
  if 0 ≤ q then ⌊q + 1 / 2⌋ else ⌈q - 1 / 2⌉

/-- `__float2int_rd`. -/
def float2intRd (q : ℚ) : ℤ :=
  ⌊q⌋

namespace Roi

def aspectRatio (roi : Roi) : ℚ :=
  roi.w / roi.h

/-- `cur_roi_w_`, `src_roi_w_`: the columns that are loaded, an even number from an even column on. -/
def evenW (roi : Roi) : Nat :=
  (roi.x % 2 + roi.w + 1) / 2 * 2

end Roi

def Dst.aspectRatio (dst : Dst) : ℚ :=
  dst.col / dst.row

/-! ## On the host -/

/-- `dst_roi_w` in `getResizedConvertWorkspaceSize` and in `prepareMaskAndWeights`. -/
def dstRoiW (keepAspectRatio : Bool) (dst : Dst) (roi : Roi) : Nat :=
  if keepAspectRatio ∧ roi.aspectRatio ≠ dst.aspectRatio ∧ roi.aspectRatio ≤ dst.aspectRatio then
    (stdRound (dst.row * roi.aspectRatio)).toNat
  else dst.col

/-! ## In the kernel -/

/-- What `ResizeYuvToRgbaKernel` computes for a batch element. -/
structure DstRoi where
  w : Nat
  h : Nat
  /-- The padding is on the left and on the right, not at the top and at the bottom. -/
  padMode : Bool
  padHalf1 : Nat
  padHalf2 : Nat
deriving DecidableEq, Repr

def kernelDstRoi (keepAspectRatio : Bool) (padMethod : Int) (dst : Dst) (roi : Roi) : DstRoi :=
  if keepAspectRatio ∧ roi.aspectRatio ≠ dst.aspectRatio then
    if roi.aspectRatio ≥ dst.aspectRatio then
      let h := (float2intRd (dst.col / roi.aspectRatio)).toNat
      let padHalf1 := if padMethod = 0 then (dst.row - h) / 2 else 0
      { w := dst.col, h, padMode := false, padHalf1, padHalf2 := dst.row - h - padHalf1 }
    else
      let w := (float2intRd (dst.row * roi.aspectRatio)).toNat
      let padHalf1 := if padMethod = 0 then (dst.col - w) / 2 else 0
      let padHalf2 := if padMethod = 0 ∨ padMethod = 1 then dst.col - w - padHalf1 else 0
      { w, h := dst.row, padMode := true, padHalf1, padHalf2 }
  else { w := dst.col, h := dst.row, padMode := false, padHalf1 := 0, padHalf2 := 0 }

end CambriconGst.Easybang
