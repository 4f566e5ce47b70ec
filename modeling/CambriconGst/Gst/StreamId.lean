import CambriconGst.Lib.Registry
import CambriconGst.Lib.System

/-!
# Stream ids

The `stream_id` of the elements of `gst/decode/gstcnvideo_dec.cpp`, and the two globals behind
`stream_id_mutex`.
-/

namespace CambriconGst.Gst

open Lib

/-- The globals, and the `stream_id` of each live element. -/
structure StreamIds where
  gStreamId : BitVec 32
  gStreamIdSet : Finset (BitVec 32)
  streamId : Nat → Option (BitVec 32)

namespace StreamIds

def initial : StreamIds where
  gStreamId := 0
  gStreamIdSet := ∅
  streamId := fun _ => none

/--
The loop of `gst_cnvideodec_init`: the id it inserts, and `g_stream_id` afterwards. `tries` bounds
the passes.
-/
def takeStreamId (set : Finset (BitVec 32)) : Nat → BitVec 32 → Option (BitVec 32 × BitVec 32)
  | 0, _ => none
  | tries + 1, gStreamId =>
    let streamId := gStreamId
    let gStreamId := gStreamId + 1
    if streamId ∉ set then some (streamId, gStreamId) else takeStreamId set tries gStreamId

/-- `gst_cnvideodec_init`; `none` when its loop does not end. -/
def init (s : StreamIds) (i : Nat) : Option StreamIds :=
  (takeStreamId s.gStreamIdSet (s.gStreamIdSet.card + 1) s.gStreamId).map fun r =>
    { gStreamId := r.2
      gStreamIdSet := insert r.1 s.gStreamIdSet
      streamId := Function.update s.streamId i (some r.1) }

/-- The branch of `PROP_STREAM_ID` in `gst_cnvideodec_set_property`. -/
def setStreamId (s : StreamIds) (i : Nat) (streamId value : BitVec 32) : StreamIds :=
  let tmp := streamId
  let set := s.gStreamIdSet.erase streamId
  if value ∉ set then
    { s with
      gStreamIdSet := insert value set
      streamId := Function.update s.streamId i (some value) }
  else
    -- stream id already exists, use default stream id instead
    { s with
      gStreamIdSet := insert tmp set
      streamId := Function.update s.streamId i (some tmp) }

/-- `gst_cnvideodec_finalize`. -/
def finalize (s : StreamIds) (i : Nat) (streamId : BitVec 32) : StreamIds :=
  { s with
    gStreamIdSet := s.gStreamIdSet.erase streamId
    streamId := Function.update s.streamId i none }

/-- What happens to the element of an address. -/
inductive Label where
  | init (i : Nat)
  | setProperty (i : Nat) (value : BitVec 32)
  | finalize (i : Nat)
deriving DecidableEq, Repr

def next (s : StreamIds) : Label → Option StreamIds
  | .init i => if s.streamId i = none then s.init i else none
  | .setProperty i value => (s.streamId i).map fun streamId => s.setStreamId i streamId value
  | .finalize i => (s.streamId i).map (s.finalize i)

end StreamIds

end CambriconGst.Gst
