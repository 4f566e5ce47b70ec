import CambriconGst.Easyinfer.ModelLoader
import Mathlib.Data.Fin.VecNotation

/-!
# The layout of data on the host and on the MLU

`TransLayout` of `easyinfer/mlu_memory_op.cpp`, with `BatchDataCount` of `easyinfer/shape.h`. What
cnrt does to the elements is a parameter; its calls succeed.
-/

namespace CambriconGst.Easyinfer

namespace ShapeEx

variable (shape : ShapeEx)

/-- A dimension of four, or 0. -/
def dim (k : Nat) : Int :=
  if shape.data.length = 4 then shape.data.getD k 0 else 0

def n : Int := shape.dim 0

def h : Int := shape.dim 1

def w : Int := shape.dim 2

def c : Int := shape.dim 3

/-- `BatchDataCount`, in 64 bits. -/
def batchDataCount : Int :=
  shape.data.foldl (fun cnt x => (cnt * x).bmod (2 ^ 64)) 1

end ShapeEx

def typeSize : DataType → Nat
  | .uint8 => 1
  | .float32 => 4
  | .float16 => 2
  | .int16 => 2
  | .int32 => 4

/-- A block of memory, by elements. -/
structure Buffer (V : Type) where
  len : Nat
  cell : Nat → V

/-- What the calls of cnrt write over the elements of their destination. -/
structure Cnrt (V : Type) where
  castDataType : (srcType dstType : DataType) → (size : Int) → (src dst : Nat → V) → Nat → V
  transDataOrder : {dimNum : Nat} → (dtype : DataType) → (dimValues : Fin dimNum → Nat) →
    (dimOrder : Fin dimNum → Fin dimNum) → (src dst : Nat → V) → Nat → V
  transOrderAndCast : {dimNum : Nat} → (srcType dstType : DataType) →
    (dimValues : Fin dimNum → Nat) → (dimOrder : Fin dimNum → Fin dimNum) →
    (src dst : Nat → V) → Nat → V

variable {V : Type}

/-- `memcpy`, of elements of `elemSize` bytes. -/
def memcpy (src dst : Buffer V) (elemSize memSize : Nat) : Except Fault (Buffer V) :=
  if memSize ≤ src.len * elemSize ∧ memSize ≤ dst.len * elemSize then
    .ok { dst with
      cell := fun p => if (p + 1) * elemSize ≤ memSize then src.cell p else dst.cell p }
  else .error .outOfBounds

/-- The destination as `TransLayout` leaves it. -/
def transLayout (cnrt : Cnrt V) (srcLayout dstLayout : DataLayout) (src dst : Buffer V)
    (shape : ShapeEx) : Except Fault (Buffer V) :=
  if srcLayout.order ≠ .nhwc ∧ srcLayout.order ≠ .nchw then
    .error (.invalidArg "TransLayout: Unsupport data order(src).")
  else if dstLayout.order ≠ .nhwc ∧ dstLayout.order ≠ .nchw then
    .error (.invalidArg "TransLayout: Unsupport data order(dst).")
  else
    let size := toInt32 shape.batchDataCount
    let dimValues : Fin 4 → Nat :=
      ![shape.n.toNat, shape.h.toNat, shape.w.toNat, shape.c.toNat]
    let dimOrder : Fin 4 → Fin 4 :=
      if dstLayout.order = .nhwc then ![0, 2, 3, 1] else ![0, 3, 1, 2]
    if srcLayout.dtype ≠ dstLayout.dtype then
      if srcLayout.order ≠ dstLayout.order then
        .ok { dst with
          cell := cnrt.transOrderAndCast srcLayout.dtype dstLayout.dtype dimValues dimOrder
            src.cell dst.cell }
      else
        .ok { dst with
          cell := cnrt.castDataType srcLayout.dtype dstLayout.dtype size src.cell dst.cell }
    else if srcLayout.order ≠ dstLayout.order then
      .ok { dst with
        cell := cnrt.transDataOrder srcLayout.dtype dimValues dimOrder src.cell dst.cell }
    else
      -- in `size_t`
      let memSize := (size * typeSize srcLayout.dtype) % 2 ^ 64
      memcpy src dst (typeSize srcLayout.dtype) memSize.toNat

end CambriconGst.Easyinfer
