import CambriconGst.Easycodec.Cncodec
import CambriconGst.Lib.System

/-!
# The event loop of a codec

`EventTaskRunner` and what it calls, as `easy_decode.cpp`, `easy_encode.cpp`, `gstcnvideo_dec.cpp`
and `gstcnvideo_enc.cpp` each have it. Codec events are queued by the codec's callback and handled
one by one on a thread of their own.
-/

namespace CambriconGst.Easycodec

open Lib

/-- The events that abort the codec: all but the end of stream and a corrupt stream. -/
def CbEventType.aborts : CbEventType → Bool
  | .eos => false
  | .streamCorrupt => false
  | _ => true

/-- Where the event loop thread is. -/
inductive Runner where
  /-- There is no thread to join. -/
  | none
  /-- Waiting for an event or for the end, or about to. -/
  | loop
  /-- An event that ends the stream was taken, and is not announced yet. -/
  | notifying
  /-- The thread has returned, and is not joined. -/
  | finished
deriving DecidableEq, Repr

def Runner.joinable (r : Runner) : Prop :=
  r ≠ .none

instance (r : Runner) : Decidable r.joinable :=
  inferInstanceAs (Decidable (r ≠ .none))

/--
An event loop. `handle` names the codec instance the owner holds; `eosCalls` counts the EOS
callbacks made, or the EOS events pushed.
-/
structure EventLoop where
  eventQueue : List CbEventType
  handle : Option Nat
  gotEos : Bool
  runner : Runner
  eosCalls : Nat
deriving DecidableEq, Repr

namespace EventLoop

/-- `ReceiveEvent`, `handle_event`. -/
def receiveEvent (s : EventLoop) (type : CbEventType) : EventLoop :=
  { s with eventQueue := s.eventQueue ++ [type] }

/--
The thread takes an event. An event that aborts does so here: the codec is aborted and its handle
dropped, unless there is none.
-/
def pop (s : EventLoop) : Option EventLoop :=
  match s.runner, s.eventQueue with
  | .loop, type :: rest =>
    if type = .eos then some { s with eventQueue := rest, runner := .notifying }
    else if type.aborts ∧ s.handle.isSome then
      some { s with eventQueue := rest, handle := none, runner := .notifying }
    else some { s with eventQueue := rest }
  | _, _ => none

/--
`ReceiveEOS`, `handle_eos`, and the end of an abort. `announces` is false when an element does not
push the EOS.
-/
def notify (s : EventLoop) (announces : Bool) : Option EventLoop :=
  match s.runner with
  | .notifying =>
    some
      { s with
        gotEos := true
        runner := .loop
        eosCalls := s.eosCalls + if announces then 1 else 0 }
  | _ => none

/-- The loop ends when the queue is empty and an EOS was got. -/
def exit (s : EventLoop) : Option EventLoop :=
  match s.runner, s.eventQueue, s.gotEos with
  | .loop, [], true => some { s with runner := .finished }
  | _, _, _ => none

/-- `AbortDecoder`, `AbortEncoder` called outside the loop: by the user, or by `ReceivePacket`. -/
def abort (s : EventLoop) : EventLoop :=
  if s.handle.isSome then
    { s with handle := none, gotEos := true, eosCalls := s.eosCalls + 1 }
  else s

end EventLoop

end CambriconGst.Easycodec
