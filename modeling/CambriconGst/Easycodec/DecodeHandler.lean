import CambriconGst.Easycodec.EventLoop
import CambriconGst.Lib.ConditionWait

/-!
# The decode handler and its destructor

`DecodeHandler` of `easy_decode.cpp`: its event loop thread, `FeedEos`, `AbortDecoder` and
`~DecodeHandler`. Each section under a mutex is one step, and so are the parts of a condition wait.

The codec is outside: its calls return any code, and it reports events while there is a handle.
-/

namespace CambriconGst.Easycodec

open Lib

namespace DecodeHandler

/-- Where the thread of `EventTaskRunner` is. -/
inductive RunnerPc where
  /-- About to lock `event_mtx_`, at first or after an event. -/
  | lock
  /-- At the condition of the loop, with `event_mtx_` held. -/
  | loop
  | wait (w : Waiter)
  /-- An event was taken, and `event_mtx_` released. -/
  | handling (type : CbEventType)
  /-- The EOS callback was made, and `got_eos_` is set next. -/
  | notifying
  | done
deriving DecidableEq, Repr

namespace RunnerPc

def holdsEventMtx : RunnerPc → Bool
  | .loop => true
  | .wait w => w.holdsLock
  | _ => false

/-- `event_cond_` is notified. -/
def notified : RunnerPc → RunnerPc
  | .wait w => .wait w.notify
  | r => r

end RunnerPc

/-- Where the thread is that builds and destroys the handler. -/
inductive Pc where
  /-- In `InitVideoDecode` or `InitJpegDecode`. -/
  | creating
  | settingAttributes
  | alive
  /-- In `~DecodeHandler`, about to lock `eos_mtx_`. -/
  | entered
  /-- About to feed EOS, with `eos_mtx_` released. -/
  | feeding
  /-- About to lock `eos_mtx_` again. -/
  | locking
  | checking
  | wait (w : Waiter)
  /-- About to notify `event_cond_`. -/
  | notifying
  | joining
  | destroying
  /-- The destructor has returned. -/
  | out
  /-- `FeedEos` threw, and the destructor has returned from its handler. -/
  | caught
deriving DecidableEq, Repr

namespace Pc

def holdsEosMtx : Pc → Bool
  | .checking => true
  | .wait w => w.holdsLock
  | .notifying => true
  | .joining => true
  | .destroying => true
  | _ => false

def waits : Pc → Bool
  | .wait _ => true
  | _ => false

/-- The destructor has returned. -/
def left : Pc → Bool
  | .out => true
  | .caught => true
  | _ => false

/-- `eos_cond_` is notified. -/
def notified : Pc → Pc
  | .wait w => .wait w.notify
  | p => p

end Pc

/-- What has happened, for statements only. -/
structure History where
  /-- The codec accepted an EOS: a call that fed one returned success. -/
  accepted : Bool
  /-- There was a codec handle when the destructor was entered. -/
  entryHandle : Bool
  /-- The codec was aborted, since the destructor was entered if it was. -/
  aborted : Bool
  joined : Bool
  /-- The calls of the codec's destroy function. -/
  destroyCalls : Nat
deriving DecidableEq, Repr

end DecodeHandler

open DecodeHandler in
structure DecodeHandler where
  eventQueue : List CbEventType
  /-- `handle_` is not null. -/
  handle : Bool
  sendEos : Bool
  gotEos : Bool
  runner : RunnerPc
  pc : Pc
  /-- The calls of `AbortDecoder` outside the event loop that have not set `got_eos_` yet. -/
  aborting : Nat
  history : History
deriving DecidableEq, Repr

namespace DecodeHandler

/-- `DecodeHandler::DecodeHandler`, which starts the event loop. -/
def initial : DecodeHandler where
  eventQueue := []
  handle := false
  sendEos := false
  gotEos := false
  runner := .lock
  pc := .creating
  aborting := 0
  history :=
    { accepted := false, entryHandle := false, aborted := false, joined := false
      destroyCalls := 0 }

/-- `~DecodeHandler` is entered. -/
def destruct (s : DecodeHandler) : DecodeHandler :=
  { s with
    pc := .entered
    history := { s.history with entryHandle := s.handle, aborted := false } }

/-- The codec is created. When that fails `EasyDecode` deletes the handler. -/
def create (s : DecodeHandler) (jpegDecode : Bool) : Ecode → DecodeHandler
  | .success =>
    { s with handle := true, pc := if jpegDecode then .alive else .settingAttributes }
  | _ => s.destruct

def setAttributes (s : DecodeHandler) : Ecode → DecodeHandler
  | .success => { s with pc := .alive }
  | _ => s.destruct

/-- `FeedEos`. -/
def feedEos (s : DecodeHandler) (ecode : Ecode) : Except Exception Bool × DecodeHandler :=
  if s.sendEos then (.ok false, s)
  else
    match ecode with
    | .timeout => (.error { code := .timeout, msg := "EasyDecode feed EOS timeout" }, s)
    | .error code =>
      (.error
        { code := .internal, msg := "Feed EOS failed. cncodec error code: " ++ toString code }, s)
    | .success =>
      (.ok true, { s with sendEos := true, history := { s.history with accepted := true } })

/-- The codec is aborted, and its handle dropped. -/
def dropHandle (s : DecodeHandler) : DecodeHandler :=
  { s with handle := false, history := { s.history with aborted := true } }

/-- `AbortDecoder`, up to where it locks `eos_mtx_`. -/
def abortDecoder (s : DecodeHandler) : DecodeHandler :=
  if s.handle then { s.dropHandle with aborting := s.aborting + 1 } else s

/-- `got_eos_` is set, and `eos_cond_` notified. -/
def setGotEos (s : DecodeHandler) : DecodeHandler :=
  { s with gotEos := true, pc := s.pc.notified }

/-- `ReceiveEvent`. -/
def receiveEvent (s : DecodeHandler) (type : CbEventType) : DecodeHandler :=
  { s with eventQueue := s.eventQueue ++ [type], runner := s.runner.notified }

/-- The thread handles an event. -/
def handleEvent (s : DecodeHandler) (type : CbEventType) : DecodeHandler :=
  if type = .eos then { s with runner := .notifying }
  else if type.aborts ∧ s.handle then { s.dropHandle with runner := .notifying }
  else { s with runner := .lock }

/-- A step of `EventTaskRunner`. -/
def eventTaskRunner (s : DecodeHandler) : Option DecodeHandler :=
  match s.runner with
  | .lock => some { s with runner := .loop }
  | .loop =>
    some { s with runner := if s.eventQueue.isEmpty ∧ s.gotEos then .done else .wait .testing }
  | .wait .testing =>
    match s.eventQueue with
    | type :: rest => some { s with eventQueue := rest, runner := .handling type }
    -- notified by EOS
    | [] => some { s with runner := if s.gotEos then .loop else .wait .blocking }
  | .wait .blocking => some { s with runner := .wait .blocked }
  | .wait .blocked => none
  | .wait .woken => some { s with runner := .wait .testing }
  | .handling type => some (s.handleEvent type)
  | .notifying =>
    if s.pc.holdsEosMtx then none else some { s.setGotEos with runner := .lock }
  | .done => none

/-- A step of `~DecodeHandler`; the code is that of the call feeding EOS. -/
def destructor (s : DecodeHandler) (ecode : Ecode) : Option DecodeHandler :=
  match s.pc with
  | .entered =>
    if s.gotEos then some { s with pc := .checking }
    else if s.sendEos = false ∧ s.handle then some { s with pc := .feeding }
    else if s.handle = false then some { s with gotEos := true, pc := .checking }
    else some { s with pc := .checking }
  | .feeding =>
    match s.feedEos ecode with
    | (.ok _, s) => some { s with pc := .locking }
    | (.error _, s) => some { s with pc := .caught }
  | .locking => some { s with pc := .checking }
  | .checking => some { s with pc := if s.gotEos then .notifying else .wait .testing }
  | .wait .testing => some { s with pc := if s.gotEos then .notifying else .wait .blocking }
  | .wait .blocking => some { s with pc := .wait .blocked }
  | .wait .blocked => none
  | .wait .woken => some { s with pc := .wait .testing }
  | .notifying => some { s with runner := s.runner.notified, pc := .joining }
  | .joining =>
    if s.runner = .done then
      some { s with pc := .destroying, history := { s.history with joined := true } }
    else none
  | .destroying =>
    if s.handle then
      some
        { s with
          handle := false
          pc := .out
          history := { s.history with destroyCalls := s.history.destroyCalls + 1 } }
    else some { s with pc := .out }
  | _ => none

inductive Label where
  | create (jpegDecode : Bool) (ecode : Ecode)
  | setAttributes (ecode : Ecode)
  | feedEos (ecode : Ecode)
  | abortDecoder
  /-- The rest of `AbortDecoder`. -/
  | abortNotifies
  | receiveEvent (type : CbEventType)
  | eventTaskRunner
  | destruct
  | destructor (ecode : Ecode)
deriving DecidableEq, Repr

/-- The steps, until the destructor has returned. -/
def step (s : DecodeHandler) : Label → Option DecodeHandler
  | .create jpegDecode ecode => if s.pc = .creating then some (s.create jpegDecode ecode) else none
  | .setAttributes ecode =>
    if s.pc = .settingAttributes then some (s.setAttributes ecode) else none
  | .feedEos ecode => if s.pc = .alive then some (s.feedEos ecode).2 else none
  | .abortDecoder => some s.abortDecoder
  | .abortNotifies =>
    if 0 < s.aborting ∧ s.pc.holdsEosMtx = false then
      some { s.setGotEos with aborting := s.aborting - 1 }
    else none
  | .receiveEvent type =>
    if s.handle ∧ s.runner.holdsEventMtx = false then some (s.receiveEvent type) else none
  | .eventTaskRunner => s.eventTaskRunner
  | .destruct => if s.pc = .alive then some s.destruct else none
  | .destructor ecode => s.destructor ecode

def next (s : DecodeHandler) (l : Label) : Option DecodeHandler :=
  if s.pc.left then none else s.step l

end DecodeHandler

end CambriconGst.Easycodec
