import CambriconGst.Easycodec.EventLoop

/-!
# The encode handler and its destructor

`EncodeHandler` of `easy_encode.cpp`, with `EasyEncode::SendDataCPU`: how EOS is sent, and the
destructor that waits for it. The codec calls return any code.
-/

namespace CambriconGst.Easycodec

open Lib

namespace EncodeHandler

/-- Where the thread is that destroys the handler. -/
inductive Pc where
  | alive
  /-- In `~EncodeHandler`, about to send EOS, with `eos_mutex_` released. -/
  | feeding
  /-- About to lock `eos_mutex_` again, and to see whether EOS was got. -/
  | checking
  | waiting
  /-- Joining the event loop, with `eos_mutex_` held. -/
  | joining
  /-- The destructor has returned. -/
  | out
  /-- `SendDataCPU` threw, and the destructor has returned from its handler. -/
  | caught
deriving DecidableEq, Repr

def Pc.left : Pc → Bool
  | .out => true
  | .caught => true
  | _ => false

/-- What comes back while a frame is sent; `copy` is the exception of `CopyFrame`. -/
structure Codes where
  waitAvailInputBuf : Ecode
  copy : Option Exception
  feedFrame : Ecode
deriving DecidableEq, Repr

end EncodeHandler

open EncodeHandler in
structure EncodeHandler where
  jpegEncode : Bool
  sendEos : Bool
  /-- With `handle_` for its handle. -/
  loop : EventLoop
  pc : Pc
  /-- The calls of `AbortEncoder` outside the event loop that have not set `got_eos_` yet. -/
  aborting : Nat
  /-- The codec accepted an EOS: a call that fed one returned success. For statements only. -/
  accepted : Bool
deriving DecidableEq, Repr

namespace EncodeHandler

/-- `EncodeHandler::EncodeHandler`, which throws when the codec is not created. -/
def initial (jpegEncode : Bool) : EncodeHandler where
  jpegEncode
  sendEos := false
  loop := { eventQueue := [], handle := some 0, gotEos := false, runner := .loop, eosCalls := 0 }
  pc := .alive
  aborting := 0
  accepted := false

/-- What `SendJpegData` and `SendVideoData` share; `call` is the name of the codec's function. -/
def sendData (call : String) (s : EncodeHandler) (eos : Bool) (codes : Codes) :
    Except Exception Bool × EncodeHandler :=
  match codes.waitAvailInputBuf with
  | .success =>
    match codes.copy with
    | some e => (.error e, s)
    | none =>
      -- the flag is set before the codec has the frame
      let sent := if eos then { s with sendEos := true } else s
      match codes.feedFrame with
      | .success => (.ok true, if eos then { sent with accepted := true } else sent)
      | .timeout => (.ok false, sent)
      | .error code =>
        (.error
          { code := .internal, msg := call ++ " failed. cncodec error code: " ++ toString code },
          sent)
  | _ => (.ok false, s)

def sendJpegData : EncodeHandler → Bool → Codes → Except Exception Bool × EncodeHandler :=
  sendData "cnjpegEncFeedFrame"

def sendVideoData : EncodeHandler → Bool → Codes → Except Exception Bool × EncodeHandler :=
  sendData "cnvideoEncFeedFrame"

/-- `EasyEncode::SendDataCPU`. -/
def sendDataCPU (s : EncodeHandler) (eos : Bool) (codes : Codes) :
    Except Exception Bool × EncodeHandler :=
  if s.sendEos then (.ok false, s)
  else if s.jpegEncode then s.sendJpegData eos codes
  else s.sendVideoData eos codes

/-- `AbortEncoder`, up to where it locks `eos_mutex_`. -/
def abortEncoder (s : EncodeHandler) : EncodeHandler :=
  if s.loop.handle.isSome then
    { s with loop := { s.loop with handle := none }, aborting := s.aborting + 1 }
  else s

/-- The rest of `AbortEncoder`. -/
def abortNotifies (s : EncodeHandler) : EncodeHandler :=
  { s with
    loop := { s.loop with gotEos := true, eosCalls := s.loop.eosCalls + 1 }
    aborting := s.aborting - 1 }

/-- `~EncodeHandler` up to where it sends EOS, waits or joins. -/
def destruct (s : EncodeHandler) : EncodeHandler :=
  if s.loop.gotEos then { s with pc := .joining }
  else if s.sendEos = false ∧ s.loop.handle.isSome then { s with pc := .feeding }
  else if s.loop.handle.isNone then
    { s with loop := { s.loop with gotEos := true }, pc := .joining }
  else { s with pc := .waiting }

/-- The destructor sends EOS. -/
def feedEos (s : EncodeHandler) (codes : Codes) : EncodeHandler :=
  match s.sendDataCPU true codes with
  | (.ok _, s) => { s with pc := .checking }
  | (.error _, s) => { s with pc := .caught }

inductive Label where
  | sendDataCPU (eos : Bool) (codes : Codes)
  | abortEncoder
  | abortNotifies
  | receiveEvent (type : CbEventType)
  | pop
  | notify
  | exit
  | destruct
  | feedEos (codes : Codes)
  | check
  | eosWaited
  | joined
deriving DecidableEq, Repr

def step (s : EncodeHandler) : Label → Option EncodeHandler
  | .sendDataCPU eos codes => if s.pc = .alive then some (s.sendDataCPU eos codes).2 else none
  | .abortEncoder => some s.abortEncoder
  | .abortNotifies =>
    if 0 < s.aborting ∧ s.pc ≠ .joining then some s.abortNotifies else none
  | .receiveEvent type =>
    if s.loop.handle.isSome then some { s with loop := s.loop.receiveEvent type } else none
  | .pop => s.loop.pop.map fun loop => { s with loop }
  | .notify =>
    if s.pc ≠ .joining then (s.loop.notify true).map fun loop => { s with loop } else none
  | .exit => s.loop.exit.map fun loop => { s with loop }
  | .destruct => if s.pc = .alive then some s.destruct else none
  | .feedEos codes => if s.pc = .feeding then some (s.feedEos codes) else none
  | .check =>
    if s.pc = .checking then
      some { s with pc := if s.loop.gotEos then .joining else .waiting }
    else none
  | .eosWaited =>
    if s.pc = .waiting ∧ s.loop.gotEos then some { s with pc := .joining } else none
  | .joined =>
    if s.pc = .joining ∧ s.loop.runner = .finished then
      some { s with loop := { s.loop with runner := .none, handle := none }, pc := .out }
    else none

/-- The steps, until the destructor has returned. -/
def next (s : EncodeHandler) (l : Label) : Option EncodeHandler :=
  if s.pc.left then none else s.step l

end EncodeHandler

end CambriconGst.Easycodec
