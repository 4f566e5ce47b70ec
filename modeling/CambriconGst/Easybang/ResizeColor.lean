import CambriconGst.Easybang.ResizeKernel
import CambriconGst.Easybang.ResizeNram
import CambriconGst.Lib.Convolution

/-!
# The convolutions of resize and convert

The filter that `PrepareKernelParam` of `resize_yuv2rgba.cpp` makes, and what `ResizeYuvToRgbaKernel`
computes with it and with the copy filter: the conversion of the lines, and their expansion. What
becomes a half is rounded by the device in whatever way, `Halves`.
-/

namespace CambriconGst.Easybang

open Lib

/-! ## The filter for the colours -/

inductive OutputType where
  | rgba | bgra | argb | abgr
deriving DecidableEq, Repr

/-- `rIdx`, `gIdx`, `bIdx` and `zIdx`. -/
structure ChannelIdx where
  r : Nat
  g : Nat
  b : Nat
  z : Nat
deriving DecidableEq, Repr

def OutputType.idx : OutputType → ChannelIdx
  | rgba => { r := 0, g := 1, b := 2, z := 3 }
  | bgra => { r := 2, g := 1, b := 0, z := 3 }
  | argb => { r := 1, g := 2, b := 3, z := 0 }
  | abgr => { r := 3, g := 2, b := 1, z := 0 }

/-- A `color_mode` of YUV; `reverseChannel` is set for NV21. -/
structure ColorMode where
  reverseChannel : Bool
  outputType : OutputType
deriving DecidableEq, Repr

/-- An `int` as an `int16_t`. -/
def toInt16 (n : Int) : Int :=
  n.bmod (2 ^ 16)

namespace ColorMode

variable (m : ColorMode)

/-- What is stored for a channel of Y, of U and of V. -/
def termY (c : Nat) : Int :=
  toInt16 ((if c ≠ m.outputType.idx.z then 1 else 0) * 0x253F)

def termU (c : Nat) : Int :=
  toInt16 ((if c = m.outputType.idx.g then 1 else 0) * 0xF375 +
    (if c = m.outputType.idx.b then 1 else 0) * 0x408B)

def termV (c : Nat) : Int :=
  toInt16 ((if c = m.outputType.idx.r then 1 else 0) * 0x3312 +
    (if c = m.outputType.idx.g then 1 else 0) * 0xE5FC)

/-- The body of the loops over `lt` and `idx`. -/
def filterWrites (lt idx : Nat) : List (Nat × Int) :=
  let kernelLen := 2 * ci
  let offsetY := (lt * co / ltNum + idx) * kernelLen + (idx * ltNum + lt) / 4
  let first := offsetY + ci - lt / 4 % 2
  let offsetU := if m.reverseChannel then first + 1 else first
  let offsetV := if m.reverseChannel then first else first + 1
  [(offsetY, m.termY (lt % 4)), (offsetU, m.termU (lt % 4)), (offsetV, m.termV (lt % 4))]

/-- `yuvFilter`. -/
def yuvFilter : Nat → Int :=
  writeCells (fun _ => 0) ((List.range ltNum).flatMap fun lt =>
    (List.range (co / ltNum)).flatMap (m.filterWrites lt))

variable (half : ℚ → ℚ)

/-- The constant of a channel in `yuvBias`. -/
def biasTerm (c : Nat) : ℚ :=
  half (-222912 / 1000 * (if c = m.outputType.idx.r then 1 else 0) +
    135616 / 1000 * (if c = m.outputType.idx.g then 1 else 0) +
    -276800 / 1000 * (if c = m.outputType.idx.b then 1 else 0))

def yuvBias : Nat → ℚ :=
  writeCells (fun _ => 0) ((List.range ltNum).flatMap fun lt =>
    (List.range (co / ltNum)).map fun idx => (idx * ltNum + lt, m.biasTerm half (lt % 4)))

end ColorMode

/-! ## `__bang_conv` -/

/-- The kernel `o` of `O` is the row `ltRow O o` of the filter. -/
def ltRow (O o : Nat) : Nat :=
  o % ltNum * (O / ltNum) + o / ltNum

/-- `__bang_conv` with kernels that are as high as the input and one wide. -/
def bangConv (C H W O : Nat) (filter : Nat → Int) (input : Nat → Int) (i : Nat) : Int :=
  conv C H W O (fun o t => filter (ltRow O o * (H * C) + t)) input i

/-! ## Conversion -/

/-- What is stored as a half. -/
structure Halves where
  /-- A constant of the host. -/
  const : ℚ → ℚ
  /-- A sum of `__bang_conv` and what is added to it. -/
  conv : Int → ℚ → ℚ
  isHalf : ∀ sum bias, 0 ≤ conv sum bias → conv sum bias ∈ binary16.magnitudes

/-- `__bang_half2int16_rd` at the position -7. -/
def half2int16Rd (q : ℚ) : Int :=
  ⌊q * 2 ^ 7⌋

/-- `rgba_nram` after module 4, for `n` values of Y and as many of UV. -/
def yuv2rgba (m : ColorMode) (half : Halves) (n : Nat) (yuv : Nat → ℚ) (i : Nat) : ℚ :=
  let sum := bangConv ci 2 (n / ci) co m.yuvFilter (fun j => half2int16Rd (yuv j)) i
  min (max (half.conv sum (m.yuvBias half.const (i % co))) 0) 255

/-! ## Expansion -/

/-- The bits of a half that is not negative, as an `int16_t`. -/
def halfBitsInt16 (q : ℚ) : Int :=
  toInt16 (binary16.word q)

/-- The half that has the bits of an `int16_t`. -/
def int16BitsHalf (z : Int) : ℚ :=
  binary16.ofWord z.toNat

/-- What is in a byte of the copy filter. -/
def filterByte (log : List (Write Datum)) (address : Nat) : Int :=
  match load log address 1 with
  | .datum (.int8 n) => n
  | _ => 0

/-- `copy_filter_addr`. -/
def Workspace.copyFilterAddr (ws : Workspace) (n i : Nat) : Nat :=
  match load ws.writes (Slot.copyFilter.offset n i) Slot.copyFilter.size with
  | .datum (.ptr p) => p
  | _ => 0

/-- The strided copies of module 5, of `n` pixels. -/
def memcpyWrites (mult n : Nat) (rgba : Nat → ℚ) : List (Nat × ℚ) :=
  (List.range mult).flatMap fun m => (List.range n).flatMap fun seg =>
    (List.range channel).map fun c =>
      (m * channel + seg * (mult * channel) + c, rgba (seg * channel + c))

/--
`src_rgba_nram` after module 5, for `n` pixels: with the copy filter that is at `p`, by copies to what
is there, or as it was.
-/
def expand (mult n : Nat) (log : List (Write Datum)) (p : Nat) (stale rgba : Nat → ℚ) :
    Nat → ℚ :=
  match expansion mult with
  | .copyFilter => fun i =>
    int16BitsHalf (bangConv ltNum 1 (n * channel / ltNum) (ltNum * mult)
      (fun j => filterByte log (p + j)) (fun j => halfBitsInt16 (rgba j)) i)
  | .memcpy => writeCells stale (memcpyWrites mult n rgba)
  | .none => rgba

end CambriconGst.Easybang
