import CambriconGst.Lib.Batching
import Mathlib.Logic.Function.Basic

/-!
# The inputs of resize and convert

`BatchingUp`, `SyncOneOutput` and `GetLastBatchInput` of
`easybang/resize_and_convert/resize_and_colorcvt.cpp`. Whether the calls of cnrt succeed is up to
the device.
-/

namespace CambriconGst.Easybang

open Lib

/-- `MluResizeConvertOp::InputData`. -/
structure InputData where
  srcW : UInt32
  srcH : UInt32
  srcStride : UInt32
  cropX : UInt32
  cropY : UInt32
  cropW : UInt32
  cropH : UInt32
  planeY : UInt64
  planeUv : UInt64
deriving DecidableEq, Repr

/-- The input as `BatchingUp` stores it. -/
def InputData.stored (inputData : InputData) : InputData :=
  let srcW := inputData.srcW
  let srcH := if inputData.srcH % 2 ≠ 0 then inputData.srcH - 1 else inputData.srcH
  let srcStride :=
    if inputData.srcW > inputData.srcStride then inputData.srcW else inputData.srcStride
  let cropX := inputData.cropX
  let cropY := inputData.cropY
  let cropW := if inputData.cropW = 0 then srcW else inputData.cropW
  let cropW := min (srcW - cropX) cropW
  let cropH := if inputData.cropH = 0 then srcH else inputData.cropH
  let cropH := min (srcH - cropY) cropH
  { srcW, srcH, srcStride, cropX, cropY, cropW, cropH
    planeY := inputData.planeY
    planeUv := inputData.planeUv }

/-- The input as `GetLastBatchInput` gives it back: the stride, for the width as well. -/
def InputData.reported (inputData : InputData) : InputData :=
  { inputData with srcW := inputData.srcStride }

/-- `y_ptrs`, `uv_ptrs`, `src_whs` and `src_rois`, on the host or on the device. -/
structure BatchArrays where
  yPtrs : Nat → UInt64
  uvPtrs : Nat → UInt64
  srcWhs : Nat → UInt32
  srcRois : Nat → UInt32

namespace BatchArrays

/-- The body of the loop in `SyncOneOutput`. -/
def store (arrays : BatchArrays) (bi : Nat) (inputData : InputData) : BatchArrays where
  yPtrs := Function.update arrays.yPtrs bi inputData.planeY
  uvPtrs := Function.update arrays.uvPtrs bi inputData.planeUv
  srcWhs := Function.update (Function.update arrays.srcWhs (bi * 2 + 0) inputData.srcStride)
    (bi * 2 + 1) inputData.srcH
  srcRois := Function.update (Function.update (Function.update
    (Function.update arrays.srcRois (bi * 4 + 0) inputData.cropX)
    (bi * 4 + 1) inputData.cropY) (bi * 4 + 2) inputData.cropW) (bi * 4 + 3) inputData.cropH

/-- The loop: `n` inputs are popped into the arrays from slot `bi` on. -/
def storeEach (arrays : BatchArrays) (bi : Nat) : Nat → List InputData → BatchArrays × List InputData
  | 0, cache => (arrays, cache)
  -- the queue has been filled up before
  | _ + 1, [] => (arrays, [])
  | n + 1, inputData :: cache => (arrays.store bi inputData).storeEach (bi + 1) n cache

/-- The body of the loop in `GetLastBatchInput`. -/
def input (arrays : BatchArrays) (bi : Nat) : InputData where
  srcW := arrays.srcWhs (bi * 2 + 0)
  srcH := arrays.srcWhs (bi * 2 + 1)
  srcStride := arrays.srcWhs (bi * 2 + 0)
  cropX := arrays.srcRois (bi * 4 + 0)
  cropY := arrays.srcRois (bi * 4 + 1)
  cropW := arrays.srcRois (bi * 4 + 2)
  cropH := arrays.srcRois (bi * 4 + 3)
  planeY := arrays.yPtrs bi
  planeUv := arrays.uvPtrs bi

def inputs (arrays : BatchArrays) (batchSize : Nat) : List InputData :=
  (List.range batchSize).map arrays.input

end BatchArrays

/-- Which calls of cnrt succeed in `SyncOneOutput`. -/
structure CnrtRets where
  createQueue : Bool
  memcpyY : Bool
  memcpyUv : Bool
  memcpyWhs : Bool
  memcpyRois : Bool
  resizeAndConvert : Bool
  recreateQueue : Bool
deriving DecidableEq, Repr

def CnrtRets.copied (rets : CnrtRets) : Bool :=
  rets.memcpyY && rets.memcpyUv && rets.memcpyWhs && rets.memcpyRois

/-- How `SyncOneOutput` ends; `MluTaskQueue::Create` may throw. -/
inductive Synced where
  | returned (ret : Bool)
  | threw
deriving DecidableEq, Repr

/-- A batch that was taken, and the arrays that the kernel was called with, if it was. -/
structure Taken where
  batch : Batching.Batch InputData
  kernel : Option BatchArrays

/-- `MluResizeConvertOp`; `given` and `taken` are for statements only. -/
structure ResizeConvert where
  batchSize : Nat
  /-- `queue_` is not null. -/
  queue : Bool
  sharedQueue : Bool
  inputDatasCache : List InputData
  cpu : BatchArrays
  mlu : BatchArrays
  given : List InputData
  taken : List Taken

namespace ResizeConvert

/-- After `Init`, with the arrays as they were allocated. -/
def initial (batchSize : Nat) (cpu mlu : BatchArrays) : ResizeConvert where
  batchSize := batchSize
  queue := false
  sharedQueue := false
  inputDatasCache := []
  cpu := cpu
  mlu := mlu
  given := []
  taken := []

/-- `SetMluQueue`, with a queue. -/
def setMluQueue (s : ResizeConvert) : ResizeConvert :=
  { s with queue := true, sharedQueue := true }

/-- `BatchingUp`. -/
def batchingUp (s : ResizeConvert) (inputData : InputData) : ResizeConvert :=
  { s with
    inputDatasCache := s.inputDatasCache ++ [inputData.stored]
    given := s.given ++ [inputData] }

/-- While the cache count is less than the batch size, fill with copies to the batch size. -/
def fill (batchSize : Nat) (cache : List InputData) : List InputData :=
  match cache with
  | [] => []
  | first :: rest =>
    if rest.length + 1 < batchSize then fill batchSize (first :: rest ++ [first])
    else first :: rest
termination_by batchSize - cache.length

/-- The copies to the device, in order, up to the first that fails. -/
def copyArrays (cpu mlu : BatchArrays) (rets : CnrtRets) : Bool × BatchArrays :=
  if rets.memcpyY = false then (false, mlu)
  else if rets.memcpyUv = false then (false, { mlu with yPtrs := cpu.yPtrs })
  else if rets.memcpyWhs = false then
    (false, { mlu with yPtrs := cpu.yPtrs, uvPtrs := cpu.uvPtrs })
  else if rets.memcpyRois = false then (false, { cpu with srcRois := mlu.srcRois })
  else (true, cpu)

/-- A batch is taken from the cache into the arrays, and those are copied. -/
def takeBatch (s : ResizeConvert) (rets : CnrtRets) : ResizeConvert :=
  let cache := fill s.batchSize s.inputDatasCache
  let r := s.cpu.storeEach 0 s.batchSize cache
  let c := copyArrays r.1 s.mlu rets
  { s with
    inputDatasCache := r.2
    cpu := r.1
    mlu := c.2
    taken := s.taken ++
      [{ batch := { slots := cache.take s.batchSize, pending := s.inputDatasCache.length }
         kernel := if c.1 then some c.2 else none }] }

/-- `SyncOneOutput`, once there is a queue and something to do. -/
def dispatch (s : ResizeConvert) (rets : CnrtRets) : Synced × ResizeConvert :=
  if rets.copied = false then (.returned false, s.takeBatch rets)
  else if rets.resizeAndConvert then (.returned true, s.takeBatch rets)
  -- the queue becomes invalid when an error occurs
  else if s.sharedQueue = false ∧ rets.recreateQueue = false then (.threw, s.takeBatch rets)
  else (.returned false, s.takeBatch rets)

/-- `PrepareTaskQueue`, when there is no queue. -/
def prepareTaskQueue (s : ResizeConvert) : ResizeConvert :=
  if s.queue = false then { s with queue := true, sharedQueue := false } else s

/-- `SyncOneOutput`. -/
def syncOneOutput (s : ResizeConvert) (rets : CnrtRets) : Synced × ResizeConvert :=
  if s.queue = false ∧ rets.createQueue = false then (.threw, s)
  -- no data batched, do nothing
  else if s.inputDatasCache.length = 0 then (.returned false, s.prepareTaskQueue)
  else s.prepareTaskQueue.dispatch rets

/-- The batches that the kernel was called with. -/
def dispatched (s : ResizeConvert) : List Taken :=
  s.taken.filter fun t => t.kernel.isSome

/-- `GetLastBatchInput`. -/
def getLastBatchInput (s : ResizeConvert) : List InputData :=
  s.cpu.inputs s.batchSize

inductive Label where
  | setMluQueue
  | batchingUp (inputData : InputData)
  | syncOneOutput (rets : CnrtRets)
deriving DecidableEq, Repr

def step (s : ResizeConvert) : Label → ResizeConvert
  | .setMluQueue => s.setMluQueue
  | .batchingUp inputData => s.batchingUp inputData
  | .syncOneOutput rets => (s.syncOneOutput rets).2

/-- Any calls, one after the other. -/
def run (s : ResizeConvert) (ls : List Label) : ResizeConvert :=
  ls.foldl step s

end ResizeConvert

end CambriconGst.Easybang
