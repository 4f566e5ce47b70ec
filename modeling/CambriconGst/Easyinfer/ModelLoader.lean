import CambriconGst.Lib.Checked
import Mathlib.Algebra.Ring.Int.Defs
import Mathlib.Algebra.Ring.Nat

/-!
# Offline models

`ShapeEx` of `easyinfer/shape.h`, and `ModelLoader` of `easyinfer/model_loader.cpp` with the
accessors that take the index of a tensor. What cnrt reports about a function is a parameter; when
one of its calls fails no model is loaded.
-/

namespace CambriconGst.Easyinfer

open Lib

inductive DataType where
  | uint8 | float32 | float16 | int16 | int32
deriving DecidableEq, Repr

inductive DimOrder where
  | nchw | nhwc | hwcn | tnc | ntc
deriving DecidableEq, Repr

structure DataLayout where
  dtype : DataType
  order : DimOrder
deriving DecidableEq, Repr

/-- What `return {}` returns. -/
def DataLayout.empty : DataLayout where
  dtype := .uint8
  order := .nchw

/-- Dimensions in the order NHWC. -/
structure ShapeEx where
  data : List Int
deriving DecidableEq, Repr

/-- `Shape`, without the stride. -/
structure Shape where
  n : Nat
  h : Nat
  w : Nat
  c : Nat
deriving DecidableEq, Repr

/-- Exceptions, and what is undefined. -/
inductive Fault where
  | invalidArg (what : String)
  | unsupported (what : String)
  | internal (what : String)
  | outOfBounds
  | divideByZero
deriving DecidableEq, Repr

/-- The data types of cnrt, those that are not supported as one. -/
inductive CnrtDataType where
  | uint8 | float32 | float16 | int16 | int32 | other
deriving DecidableEq, Repr

def castDataType : CnrtDataType → Except Fault DataType
  | .uint8 => .ok .uint8
  | .float32 => .ok .float32
  | .float16 => .ok .float16
  | .int16 => .ok .int16
  | .int32 => .ok .int32
  | .other => .error (.unsupported "Unsupported data type")

/-! ## Loading -/

/-- What cnrt reports about the inputs or about the outputs of a function. -/
structure CnrtTensors where
  dataSizes : List Int
  /-- A shape with any number of dimensions, for each tensor. -/
  dataShape : Nat → List Int
  dtypes : List CnrtDataType
  /-- The number is an `int`. -/
  length_lt : dataSizes.length < 2 ^ 31

/-- What `ModelLoaderPrivate` keeps of the inputs, or of the outputs. -/
structure Tensors where
  num : Nat
  dataSizes : List Int
  mluLayouts : List DataLayout
  cpuLayouts : List DataLayout
  shapes : List Shape
  shapexs : List ShapeEx
deriving DecidableEq, Repr

/-- `dim_value`, of four elements, with the indices that are written. -/
structure DimValue where
  values : List Nat
  writes : List Nat
deriving DecidableEq, Repr

/-- Conversion to `uint32_t`. -/
def toUint32 (n : Int) : Nat :=
  (n % 2 ^ 32).toNat

/-- The loop over the dimensions of a tensor. -/
def writeDims (dims : List Int) : DimValue :=
  dims.zipIdx.foldl
    (fun v d => { values := v.values.set d.2 (toUint32 d.1), writes := v.writes ++ [d.2] })
    { values := List.replicate 4 1, writes := [] }

def DimValue.shape (v : DimValue) : Shape where
  n := v.values.getD 0 1
  h := v.values.getD 1 1
  w := v.values.getD 2 1
  c := v.values.getD 3 1

/-- The dimensions of each tensor. -/
def CnrtTensors.dims (t : CnrtTensors) : List (List Int) :=
  (List.range t.dataSizes.length).map t.dataShape

/-- `LoadFunction`, for the inputs or for the outputs. -/
def loadTensors (t : CnrtTensors) (wrongNum : String) : Except Fault Tensors :=
  if t.dtypes.length ≠ t.dataSizes.length then .error (.internal wrongNum)
  else do
    let dtypes ← t.dtypes.mapM castDataType
    return {
      num := toUint32 t.dataSizes.length
      dataSizes := t.dataSizes
      -- the order on the MLU is always NHWC
      mluLayouts := dtypes.map fun dtype => { dtype, order := .nhwc }
      cpuLayouts := List.replicate t.dataSizes.length { dtype := .float32, order := .nhwc }
      shapes := t.dims.map fun dims => (writeDims dims).shape
      shapexs := t.dims.map ShapeEx.mk }

/-- The writes to `dim_value`, tensor by tensor. -/
def CnrtTensors.dimWrites (t : CnrtTensors) : List Nat :=
  t.dims.flatMap fun dims => (writeDims dims).writes

/-- `ModelLoader` with its private part. -/
structure ModelLoader where
  input : Tensors
  output : Tensors
deriving DecidableEq, Repr

/-- `LoadFunction`. -/
def loadFunction (input output : CnrtTensors) : Except Fault ModelLoader := do
  let input ← loadTensors input
    "Internel error, maybe input number from cnrtGetInputDataType is wrong."
  let output ← loadTensors output
    "Internel error, maybe output number from cnrtGetOutputDataType is wrong."
  return { input, output }

/-! ## Accessors -/

/-- Conversion to `int`. -/
def toInt32 (n : Int) : Int :=
  n.bmod (2 ^ 32)

namespace Tensors

variable {α : Type} (t : Tensors)

/-- The getters with an `int`: an element of a vector, or the value that stands for an error. -/
def get (values : List α) (errorValue : α) (dataIndex : Int) : Except Fault α :=
  if dataIndex < 0 ∨ dataIndex ≥ toInt32 t.num then .ok errorValue
  else readAt .outOfBounds values dataIndex.toNat

/-- `InputShape` and `OutputShape`, with a `uint32_t`. -/
def shape (overflow : String) (index : Nat) : Except Fault ShapeEx :=
  if index > t.num then .error (.invalidArg overflow)
  else readAt .outOfBounds t.shapexs index

/-- `SetCpuInputLayout` and `SetCpuOutputLayout`. -/
def setCpuLayout (outOfRange : String) (layout : DataLayout) (dataIndex : Int) :
    Except Fault Tensors :=
  if dataIndex < 0 ∨ toUint32 dataIndex ≥ t.num then .error (.invalidArg outOfRange)
  else if layout.dtype ≠ .float32 then
    .error (.invalidArg "Only support float32 for cpu layout")
  else do
    let cpuLayouts ← modifyAt .outOfBounds t.cpuLayouts dataIndex.toNat fun _ => layout
    return { t with cpuLayouts }

/-- `GetInputDataBatchAlignSize` and `GetOutputDataBatchAlignSize`. -/
def dataBatchAlignSize (dataIndex : Int) : Except Fault Int :=
  if dataIndex < 0 ∨ dataIndex ≥ toInt32 t.num then .ok 0
  else do
    let size ← t.get t.dataSizes 0 dataIndex
    let shape ← readAt .outOfBounds t.shapexs dataIndex.toNat
    let batch ← readAt .outOfBounds shape.data 0
    if batch = 0 then .error .divideByZero else .ok (size.tdiv batch)

end Tensors

namespace ModelLoader

variable (m : ModelLoader)

def inputDataSize (dataIndex : Int) : Except Fault Int :=
  m.input.get m.input.dataSizes 0 dataIndex

def outputDataSize (dataIndex : Int) : Except Fault Int :=
  m.output.get m.output.dataSizes 0 dataIndex

def getMluInputLayout (dataIndex : Int) : Except Fault DataLayout :=
  m.input.get m.input.mluLayouts .empty dataIndex

def getMluOutputLayout (dataIndex : Int) : Except Fault DataLayout :=
  m.output.get m.output.mluLayouts .empty dataIndex

def setCpuInputLayout (layout : DataLayout) (dataIndex : Int) : Except Fault ModelLoader := do
  let input ← m.input.setCpuLayout "SetCpuInputLayout: Data index out of range" layout dataIndex
  return { m with input }

def setCpuOutputLayout (layout : DataLayout) (dataIndex : Int) : Except Fault ModelLoader := do
  let output ← m.output.setCpuLayout "SetCpuOutputLayout: Data index out of range" layout dataIndex
  return { m with output }

def getCpuInputLayout (dataIndex : Int) : Except Fault DataLayout :=
  m.input.get m.input.cpuLayouts .empty dataIndex

def getCpuOutputLayout (dataIndex : Int) : Except Fault DataLayout :=
  m.output.get m.output.cpuLayouts .empty dataIndex

def inputShape (index : Nat) : Except Fault ShapeEx :=
  m.input.shape "input shape index overflow" index

def outputShape (index : Nat) : Except Fault ShapeEx :=
  m.output.shape "output shape index overflow" index

def getInputDataBatchAlignSize (dataIndex : Int) : Except Fault Int :=
  m.input.dataBatchAlignSize dataIndex

def getOutputDataBatchAlignSize (dataIndex : Int) : Except Fault Int :=
  m.output.dataBatchAlignSize dataIndex

end ModelLoader

end CambriconGst.Easyinfer
