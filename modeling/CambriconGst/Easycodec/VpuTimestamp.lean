import CambriconGst.Easycodec.Cncodec
import CambriconGst.Lib.KeyedRecords
import CambriconGst.Lib.System

/-!
# Timestamps of the video decoder

The timestamp map of `easydk/src/easycodec/easy_decode.cpp`, and the `FeedVideoData` calls that put
records into it. Any number of threads feed; the callback thread takes the records of its frames.
-/

namespace CambriconGst.VpuTimestamp

open Lib Easycodec

/-- The part of `DecodeHandler` under `pts_map_mtx_`. -/
structure VpuTimestamps where
  ptsKey : BitVec 32
  vpuPtsMap : BitVec 32 → Option (BitVec 64)

namespace VpuTimestamps

/-- `SetVpuTimestamp`. -/
def setVpuTimestamp (s : VpuTimestamps) (pts : BitVec 64) : BitVec 32 × VpuTimestamps :=
  (s.ptsKey,
    { ptsKey := s.ptsKey + 1, vpuPtsMap := Function.update s.vpuPtsMap s.ptsKey (some pts) })

/--
`GetVpuTimestamp`: what is written through `pts`, when that is given and the call returns true.
`out` says that it is given.
-/
def getVpuTimestamp (s : VpuTimestamps) (key : BitVec 32) (out : Bool) :
    Option (BitVec 64) × VpuTimestamps :=
  match s.vpuPtsMap key with
  | some pts =>
    (if out then some pts else none,
      { s with vpuPtsMap := Function.update s.vpuPtsMap key none })
  | none => (none, s)

end VpuTimestamps

/-! ## Feeding -/

/-- A `FeedVideoData` call inside its loop: `input.pts`, and `retry_time` in this pass. -/
structure FeedCall where
  pts : BitVec 32
  retryTime : Nat

/-- How a pass of the loop ends. -/
inductive Pass where
  | again (retryTime : Nat)
  | returned
  | threw (e : Exception)
deriving DecidableEq

/-- The pass in which `cnvideoDecFeedData` returns the code. -/
def FeedCall.pass (c : FeedCall) : Ecode → Pass
  | .timeout =>
    if c.retryTime = 0 then .threw { code := .timeout, msg := "easydecode timeout" }
    else .again (c.retryTime - 1)
  | .success => .returned
  | .error ecode =>
    .threw
      { code := .internal, msg := "Feed data failed. cncodec error code: " ++ toString ecode }

/-- The map, and the call each thread is in. -/
structure DecodeHandler where
  stamps : VpuTimestamps
  feeding : Nat → Option FeedCall

def initial : DecodeHandler where
  stamps := { ptsKey := 0, vpuPtsMap := fun _ => none }
  feeding := fun _ => none

inductive Label where
  /-- A thread enters `FeedVideoData`, and gets a key for the packet. -/
  | feedVideoData (thread : Nat) (pts : BitVec 64)
  /-- The codec call of a thread returns. -/
  | feedReturns (thread : Nat) (ecode : Ecode)
  /-- A call of `GetVpuTimestamp`, as `ReceiveFrame` makes it. -/
  | getVpuTimestamp (key : BitVec 32) (out : Bool)
deriving DecidableEq

def next (s : DecodeHandler) : Label → Option DecodeHandler
  | .feedVideoData thread pts =>
    match s.feeding thread with
    | some _ => none
    | none =>
      let (key, stamps) := s.stamps.setVpuTimestamp pts
      some
        { stamps
          feeding := Function.update s.feeding thread (some { pts := key, retryTime := 3 - 1 }) }
  | .feedReturns thread ecode =>
    match s.feeding thread with
    | none => none
    | some c =>
      match c.pass ecode with
      | .again retryTime =>
        some { s with feeding := Function.update s.feeding thread (some { c with retryTime }) }
      | .returned => some { s with feeding := Function.update s.feeding thread none }
      | .threw _ =>
        -- failed to feed data, erase record
        some
          { stamps := (s.stamps.getVpuTimestamp c.pts false).2
            feeding := Function.update s.feeding thread none }
  | .getVpuTimestamp key out => some { s with stamps := (s.stamps.getVpuTimestamp key out).2 }

/-- The codec call of the thread returning the code makes its `FeedVideoData` throw. -/
def Throws (s : DecodeHandler) (thread : Nat) (ecode : Ecode) : Prop :=
  ∃ c e, s.feeding thread = some c ∧ c.pass ecode = .threw e

/-! ## The operations on the map -/

/-- What a step does to the map. -/
def opsOf (s : DecodeHandler) : Label → List (KeyedRecords.Op 32 (BitVec 64))
  | .feedVideoData _ pts => [.issue s.stamps.ptsKey pts]
  | .feedReturns thread ecode =>
    match s.feeding thread with
    | none => []
    | some c =>
      match c.pass ecode with
      | .threw _ => [.take c.pts]
      | _ => []
  | .getVpuTimestamp key _ => [.take key]

/-- What a run does to the map. -/
def ops : DecodeHandler → List Label → List (KeyedRecords.Op 32 (BitVec 64))
  | _, [] => []
  | s, l :: ls => opsOf s l ++ ((next s l).map fun t => ops t ls).getD []

end CambriconGst.VpuTimestamp
