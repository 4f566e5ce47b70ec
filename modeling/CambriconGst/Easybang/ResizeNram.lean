import CambriconGst.Easybang.ResizeTables
import CambriconGst.Lib.Bisect
import CambriconGst.Lib.Rounding

/-!
# The buffers of resize and convert

`nram_find_limit` of `resize_yuv2rgba_kernel.mlu`, and where `ResizeYuvToRgbaKernel` then lays its
buffers. `mult` comes from the host, `k.dstRoiW` is the kernel's; `fl` rounds what is computed in
floating point.
-/

namespace CambriconGst.Easybang

open Lib

def nramSize : Nat := 508 * 1024
def uint8PadSize : Nat := 128
def halfPadSize : Nat := 64
def ci : Nat := 32
def co : Nat := 128
def channel : Nat := 4

/-- `sizeof(half)`. -/
def sizeofHalf : Nat := 2

/-- `PAD_UP`. -/
def padUp (x y : Nat) : Nat :=
  (x / y + if x % y > 0 then 1 else 0) * y

section NramFindLimit

variable (fl : Rounding) (k : TableKey)

/-- `__float2int_up((float)src_num * dst_roi_w / src_roi_w)`. -/
def dstNum (srcNum : Nat) : Nat :=
  ⌈fl.round (fl.round (fl.round srcNum * fl.round k.dstRoiW) / fl.round k.w)⌉.toNat

/-- `const_size`. -/
def constSize : Nat :=
  halfPadSize * sizeofHalf + halfPadSize * sizeofHalf + halfPadSize * sizeofHalf + co * sizeofHalf

/-- `malloc_size` for `limit` pairs of columns, in the loop for `mult`. -/
def mallocSize (mult limit : Nat) : Nat :=
  let srcNum := limit * 2
  let dstNum := dstNum fl k srcNum
  let srcNumPad := padUp (srcNum * channel) halfPadSize / channel
  let dstNumPad := padUp (dstNum * channel) halfPadSize / channel
  let yuvNumPad := padUp (srcNumPad * 2) ci
  if mult = 1 then
    let maskSize := 2 * srcNumPad * channel * sizeofHalf
    let weightSize := 2 * dstNumPad * channel * sizeofHalf
    let ramSize1 := max (padUp (2 * yuvNumPad) uint8PadSize) (2 * 2 * dstNumPad * channel) * sizeofHalf
    let ramSize2 := 2 * srcNumPad * channel * sizeofHalf
    maskSize + weightSize + ramSize1 + ramSize2
  else
    let maskSize := 2 * mult * srcNumPad * channel * sizeofHalf
    let weightSize := 2 * dstNumPad * channel * sizeofHalf
    let ramSize1 :=
      max (padUp (2 * yuvNumPad) uint8PadSize) (2 * mult * srcNumPad * channel) * sizeofHalf
    let ramSize2 := max (2 * srcNumPad * channel) (2 * 2 * dstNumPad * channel) * sizeofHalf
    maskSize + weightSize + ramSize1 + ramSize2

/-- `malloc_size <= NRAM_SIZE - const_size`; `none` when the sizes overflow an `int`. -/
def fitsNram (mult limit : Nat) : Option Bool :=
  if mallocSize fl k mult limit < 2 ^ 31 then
    some (mallocSize fl k mult limit ≤ nramSize - constSize)
  else none

/-- At most `fuel` rounds of the loop. -/
def nramFindLimit (mult fuel : Nat) : Option Nat :=
  (runMachine (Bisect.step (fitsNram fl k mult)) fuel (Bisect.start (k.evenW / 2))).map
    fun limit => limit * 2

/-! ## The layout -/

/-- Offsets of the buffers in `nram_buffer`, and the end of the last one. -/
structure NramLayout where
  mask : Nat
  weight : Nat
  ram1 : Nat
  ram2 : Nat
  fin : Nat
deriving DecidableEq, Repr

/-- The buffers for `w_nram_max_load_num`, behind the constants. -/
def nramLayout (mult maxLoadNum : Nat) : NramLayout :=
  let maxStoreNum := dstNum fl k maxLoadNum
  let srcMaxNumPad := padUp (maxLoadNum * channel) halfPadSize / channel
  let dstMaxNumPad := padUp (maxStoreNum * channel) halfPadSize / channel
  let maskMaxNum := mult * srcMaxNumPad * channel
  let weightMaxNum := dstMaxNumPad * channel
  let yuv2lineMaxNumPad := padUp (srcMaxNumPad * 2) ci
  let ram1Num :=
    if mult > 1 then
      max (padUp (2 * yuv2lineMaxNumPad) uint8PadSize) (2 * mult * srcMaxNumPad * channel)
    else max (padUp (2 * yuv2lineMaxNumPad) uint8PadSize) (2 * 2 * dstMaxNumPad * channel)
  let ram2Num :=
    if mult > 1 then max (2 * srcMaxNumPad * channel) (2 * 2 * dstMaxNumPad * channel)
    else 2 * srcMaxNumPad * channel
  let mask := (halfPadSize + halfPadSize + halfPadSize + co) * sizeofHalf
  let weight := mask + 2 * maskMaxNum * sizeofHalf
  let ram1 := weight + 2 * weightMaxNum * sizeofHalf
  let ram2 := ram1 + ram1Num * sizeofHalf
  { mask, weight, ram1, ram2, fin := ram2 + ram2Num * sizeofHalf }

end NramFindLimit

end CambriconGst.Easybang
