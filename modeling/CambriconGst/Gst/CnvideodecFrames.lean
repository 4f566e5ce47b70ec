import CambriconGst.Gst.Cnvideodec
import CambriconGst.Lib.RefLog

/-!
# The decoder element's frames

What `handle_frame` does with a decoded frame, and what happens to the `GstMluFrame` that wraps it
downstream. Its deallocator keeps the codec handle it was made with.
-/

namespace CambriconGst.Gst

open Lib Easycodec

namespace CnvideodecFrames

/-- A codec handle, null or not, and a frame's buffer. -/
structure FrameRef where
  decode : Option Nat
  bufId : Nat
deriving DecidableEq, Repr

/-- `GstMluFrame`, with what its `DecodeFrameDeallocator` holds. -/
structure MluFrame where
  ref : FrameRef
  refs : Nat
deriving DecidableEq, Repr

/-- What `handle_frame` meets on its way. -/
structure Frame where
  bufId : Nat
  /-- `set_cnrt_env` succeeds. -/
  env : Bool
  outputOnCpu : Bool
  /-- The meta with the frame is added to the buffer. -/
  metaAdded : Bool
  /-- The source pad is at EOS. -/
  padEos : Bool
deriving DecidableEq, Repr

end CnvideodecFrames

open CnvideodecFrames in
/--
The element with its frames. `calls` are the `cnvideoDecAddReference` and
`cnvideoDecReleaseReference` calls in order, `dead` is true after one on a handle that is null,
destroyed or aborted; both are for statements only.
-/
structure CnvideodecFrames where
  dec : Cnvideodec
  frames : List MluFrame
  calls : List (RefOp FrameRef)
  dead : Bool
deriving DecidableEq, Repr

namespace CnvideodecFrames

def initial : CnvideodecFrames where
  dec := Cnvideodec.initial
  frames := []
  calls := []
  dead := false

/-- The handle is not null, and its codec instance neither destroyed nor aborted. -/
def alive (s : CnvideodecFrames) (r : FrameRef) : Bool :=
  r.decode.any fun d => s.dec.history.live.contains d

/-- `cnvideoDecAddReference`. -/
def addReference (s : CnvideodecFrames) (r : FrameRef) : CnvideodecFrames :=
  { s with calls := s.calls ++ [.add r], dead := s.dead || !s.alive r }

/-- `cnvideoDecReleaseReference`. -/
def releaseReference (s : CnvideodecFrames) (r : FrameRef) : CnvideodecFrames :=
  { s with calls := s.calls ++ [.release r], dead := s.dead || !s.alive r }

/-- `release_buffer`, `DecodeFrameDeallocator::deallocate`. -/
def releaseBuffer (s : CnvideodecFrames) (r : FrameRef) : CnvideodecFrames :=
  if r.decode.isSome then s.releaseReference r else s

/-- `handle_frame`. -/
def handleFrame (s : CnvideodecFrames) (f : Frame) : CnvideodecFrames :=
  let r : FrameRef := { decode := s.dec.decode, bufId := f.bufId }
  if f.env = false then s
  else if s.dec.element.state.running = false then s.releaseBuffer r
  else if f.outputOnCpu then (s.addReference r).releaseReference r
  else
    let s := s.addReference r
    -- the frame is pushed, or unreferenced at once
    if f.metaAdded ∧ f.padEos = false then { s with frames := { ref := r, refs := 1 } :: s.frames }
    else s.releaseBuffer r

/-- `gst_mlu_frame_unref`, and `gst_mlu_frame_free` of the last reference. -/
def unref (s : CnvideodecFrames) (i : Nat) (f : MluFrame) : CnvideodecFrames :=
  if f.refs ≤ 1 then { s with frames := s.frames.eraseIdx i }.releaseBuffer f.ref
  else { s with frames := s.frames.set i { f with refs := f.refs - 1 } }

inductive Label where
  | element (l : Cnvideodec.Label)
  | frame (decoder : Nat) (f : Frame)
  /-- Downstream takes another reference to a frame it holds, or drops one. -/
  | ref (i : Nat)
  | unref (i : Nat)
deriving DecidableEq, Repr

def next (s : CnvideodecFrames) : Label → Option CnvideodecFrames
  | .element l => (s.dec.next l).map fun dec => { s with dec }
  | .frame decoder f =>
    if s.dec.pc.ended = false ∧ decoder ∈ s.dec.history.live then some (s.handleFrame f) else none
  | .ref i =>
    s.frames[i]?.map fun f => { s with frames := s.frames.set i { f with refs := f.refs + 1 } }
  | .unref i => s.frames[i]?.map (s.unref i)

end CnvideodecFrames

end CambriconGst.Gst
