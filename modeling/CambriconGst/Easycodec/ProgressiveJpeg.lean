import Mathlib.Data.List.Basic

/-!
# The buffers of progressive JPEG pictures

`ProgressiveJpegDecoder` of `easycodec/progressive_jpeg.h`, as far as its output buffers go. A device
buffer is named by the order in which it was allocated.
-/

namespace CambriconGst.Easycodec

namespace ProgressiveJpeg

/-- `CnFrame`, with a first plane that is null when there is no buffer. -/
structure CnFrame where
  bufId : Nat
  ptr : Option Nat
deriving DecidableEq, Repr

end ProgressiveJpeg

open ProgressiveJpeg in
structure ProgressiveJpeg where
  memoryPoolMap : List (Nat × Option Nat)
  memoryIds : List Nat
  /-- The frames that were returned and not released. -/
  outstanding : List CnFrame
deriving DecidableEq, Repr

namespace ProgressiveJpeg

/-- The constructor. -/
def create (outputBufNum : Nat) : ProgressiveJpeg where
  memoryPoolMap := (List.range outputBufNum).map fun i => (outputBufNum + i, some i)
  memoryIds := (List.range outputBufNum).map (outputBufNum + ·)
  outstanding := []

/-- `ThreadSafeQueue::TryPop`: the value is left alone when there is nothing to pop. -/
def tryPop (s : ProgressiveJpeg) (value : Nat) : Nat × ProgressiveJpeg :=
  match s.memoryIds with
  | [] => (value, s)
  | id :: rest => (id, { s with memoryIds := rest })

/-- `memory_pool_map_[id]`, which adds a null pointer for an id that is not there. -/
def poolEntry (s : ProgressiveJpeg) (id : Nat) : Option Nat × ProgressiveJpeg :=
  match s.memoryPoolMap.lookup id with
  | some ptr => (ptr, s)
  | none => (none, { s with memoryPoolMap := (id, none) :: s.memoryPoolMap })

/--
`Decode`, where `garbage` is what the uninitialised `buf_id` holds. It throws when the picture is not
copied to the buffer.
-/
def decode (s : ProgressiveJpeg) (garbage : Nat) (copied : Bool) : ProgressiveJpeg :=
  let (bufId, s) := s.tryPop garbage
  let (ptr, s) := s.poolEntry bufId
  if copied then { s with outstanding := { bufId, ptr } :: s.outstanding } else s

/-- `ReleaseBuffer`. -/
def releaseBuffer (s : ProgressiveJpeg) (bufId : Nat) : ProgressiveJpeg :=
  let s := { s with outstanding := s.outstanding.eraseP (·.bufId = bufId) }
  if (s.memoryPoolMap.lookup bufId).isSome then { s with memoryIds := s.memoryIds ++ [bufId] } else s

inductive Label where
  | decode (garbage : Nat) (copied : Bool)
  /-- Of a frame that was returned and not released, or of an id that the pool does not know. -/
  | releaseBuffer (bufId : Nat)
deriving DecidableEq, Repr

def next (s : ProgressiveJpeg) : Label → Option ProgressiveJpeg
  | .decode garbage copied => some (s.decode garbage copied)
  | .releaseBuffer bufId =>
    if (∃ f ∈ s.outstanding, f.bufId = bufId) ∨ s.memoryPoolMap.lookup bufId = none then
      some (s.releaseBuffer bufId)
    else none

end ProgressiveJpeg

end CambriconGst.Easycodec
