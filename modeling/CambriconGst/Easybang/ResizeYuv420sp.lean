import CambriconGst.Easybang.ResizeNram
import Mathlib.Algebra.Ring.Int.Defs
import Mathlib.Algebra.Ring.Nat
import Mathlib.Data.Int.Init
import Mathlib.Data.Nat.Init
import Mathlib.Logic.Function.Iterate
import Mathlib.Order.Defs.LinearOrder

/-!
# The kernel of resize

`ResizeKernel.mlu`: the rows that the cores of `MLUUnion1KernelResizeYuv420sp` write and where, and
the masks and weights of `genMaskAndWeights` in their buffer. Row and column numbers are whole numbers
that `uint32` wraps where the source subtracts unsigned, or multiplies by `d_col`.
-/

namespace CambriconGst.Easybang.ResizeYuv420sp

/-- `MAX_SEGMENT`. -/
def maxSegment : Nat := 8 * 1024

/-- A value of an `uint32_t`. -/
def uint32 (x : Int) : Int :=
  x % 2 ^ 32

/-! ## Rows -/

/-- What the division of the rows depends on. -/
structure Launch where
  sCol : Nat
  dRow : Nat
  dCol : Nat
  coreDim : Nat
deriving DecidableEq, Repr

/-- A row that is stored: its number, and where it begins behind `ydst_gdram` or `uvdst_gdram`. -/
structure Store where
  row : Int
  offset : Int
deriving DecidableEq, Repr

namespace Launch

def colseg (l : Launch) : Nat :=
  l.sCol / maxSegment

def rowremain (l : Launch) : Nat :=
  l.dRow % (2 * l.coreDim)

/-- `rowseg`, after the second assignment. -/
def rowseg (l : Launch) : Nat :=
  2 * (l.dRow / (2 * l.coreDim) + if l.rowremain > 0 then 1 else 0)

/-- The difference is unsigned, and so is the comparison. -/
def coreRowSeg (l : Launch) (coreId : Nat) : Int :=
  let rest := uint32 (l.dRow - l.rowseg * coreId)
  if l.rowseg < rest then l.rowseg else rest

/-- No product of `int`s overflows. -/
def IntsFit (l : Launch) : Prop :=
  2 * l.coreDim < 2 ^ 31 ∧ l.rowseg < 2 ^ 31 ∧ (l.coreDim - 1) * l.rowseg < 2 ^ 31

end Launch

/-- A core in the middle of its rows: the rows stored so far, in order. -/
structure CoreState where
  dstIndex : Int
  uvIndex : Int
  parityC : Bool
  yStores : List Store
  uvStores : List Store
deriving DecidableEq, Repr

def CoreState.start : CoreState where
  dstIndex := 0
  uvIndex := 0
  parityC := false
  yStores := []
  uvStores := []

namespace Launch

/-- The row of Y that a core stores; `d_col` is unsigned. -/
def yStore (l : Launch) (coreId : Nat) (dstIndex : Int) : Store where
  row := coreId * l.rowseg + dstIndex
  offset := uint32 (coreId * l.rowseg * l.dCol + dstIndex * l.dCol)

/-- The row of UV that a core stores. -/
def uvStore (l : Launch) (coreId : Nat) (uvIndex : Int) : Store where
  row := coreId * (l.rowseg / 2 : Nat) + uvIndex
  offset := uint32 (coreId * (l.rowseg / 2 : Nat) * l.dCol + uvIndex * l.dCol)

/-- The body of the loop over `rowseg - 1` rows. -/
def loopBody (l : Launch) (coreId : Nat) (s : CoreState) : CoreState :=
  let dstIndex := if s.dstIndex < l.coreRowSeg coreId - 1 then s.dstIndex else l.coreRowSeg coreId - 1
  let parityC := !s.parityC
  let yStores := s.yStores ++ [l.yStore coreId dstIndex]
  let dstIndex := dstIndex + 1
  if parityC = false then
    { dstIndex, parityC, yStores
      uvStores := s.uvStores ++ [l.uvStore coreId s.uvIndex]
      uvIndex := dstIndex.tdiv 2 }
  else { dstIndex, parityC, yStores, uvStores := s.uvStores, uvIndex := s.uvIndex }

/-- The row behind the loop. -/
def lastRow (l : Launch) (coreId : Nat) (s : CoreState) : CoreState :=
  let parityC := !s.parityC
  let yStores := s.yStores ++ [l.yStore coreId s.dstIndex]
  let dstIndex := s.dstIndex + 1
  if parityC = false then
    { dstIndex, parityC, yStores
      uvStores := s.uvStores ++ [l.uvStore coreId s.uvIndex]
      uvIndex := s.uvIndex + 1 }
  else { dstIndex, parityC, yStores, uvStores := s.uvStores, uvIndex := s.uvIndex }

/-- What a core does for an image; wide images are still to be done. -/
def core (l : Launch) (coreId : Nat) : CoreState :=
  if l.colseg ≠ 0 then .start
  else if l.rowseg ≠ 0 then l.lastRow coreId ((l.loopBody coreId)^[l.rowseg - 1] .start)
  else .start

end Launch

/-! ## Masks -/

/-- `srcDealNum` and `dstDealNum`. -/
def dealNum (col : Nat) : Nat :=
  let colPad := padUp col 64
  if maxSegment < colPad then maxSegment else colPad

/-- What is in a half of `buffer`. -/
inductive Cell where
  /-- What was there. -/
  | untouched
  | zero
  /-- The 1 of a mask. -/
  | one
  /-- The weights of a column, by its position. -/
  | wx0 (posX : Int)
  | wx1 (posX : Int)
deriving DecidableEq, Repr

/-- Where `maskX0` and `maskX1` begin in `buffer`; `weightX` is in front of them. -/
def maskX0Start : Nat := 2 * maxSegment

def maskX1Start : Nat := maskX0Start + 2 * maxSegment

/-- `__bang_write_zero`. -/
def writeZero (start n : Nat) (buffer : Int → Cell) (i : Int) : Cell :=
  if start ≤ i ∧ i < start + n then .zero else buffer i

/-- The loop over the columns of the destination: what it has selected so far, and the buffer. -/
structure MaskState where
  posX : Int
  jPrev : Int
  sxPrev : Int
  /-- The values that `posX` has taken. -/
  positions : List Int
  /-- `sx` of each column. -/
  columns : List Int
  buffer : Int → Cell

/-- The body of the loop over `j`. -/
def maskStep (scaleX colLimit : Int) (dstDealNum : Nat) (s : MaskState) (j : Nat) : MaskState :=
  let sx := (s.posX >>> (16 : Nat)) * (if s.posX > 0 then 1 else 0)
  let sx := if sx < colLimit then sx else colLimit
  let posX := s.posX + scaleX
  let jPrev := j * (if s.sxPrev ≠ sx then 1 else 0) + s.jPrev * (if s.sxPrev = sx then 1 else 0)
  let offsetW0 : Int := j
  let offsetW1 : Int := j + dstDealNum
  let trueIdx0 := sx + (j - jPrev)
  let trueIdx1 := sx + 1 + (j - jPrev)
  let buffer := Function.update s.buffer offsetW0 (.wx0 s.posX)
  let buffer := Function.update buffer offsetW1 (.wx1 s.posX)
  let buffer := Function.update buffer (maskX0Start + trueIdx0) .one
  let buffer := Function.update buffer (maskX1Start + trueIdx1) .one
  { posX
    jPrev
    sxPrev := sx
    positions := s.positions ++ [posX]
    columns := s.columns ++ [sx]
    buffer }

def genMaskAndWeights (scaleX : Int) (dCol dstDealNum : Nat) (colLimit : Int)
    (buffer : Int → Cell) : MaskState :=
  let posX := scaleX / 2 - 32768
  (List.range dCol).foldl (maskStep scaleX colLimit dstDealNum)
    { posX, jPrev := 0, sxPrev := -1, positions := [posX], columns := [], buffer }

/-- `scaleX`, and the masks and weights of the kernel. -/
def scaleX (sCol dCol : Nat) : Int :=
  uint32 (sCol * 2 ^ 16) / dCol

def masks (sCol dCol : Nat) : MaskState :=
  genMaskAndWeights (scaleX sCol dCol) dCol (dealNum dCol) (sCol - 1)
    (writeZero maskX1Start (dealNum sCol) (writeZero maskX0Start (dealNum sCol) fun _ => .untouched))

end CambriconGst.Easybang.ResizeYuv420sp
