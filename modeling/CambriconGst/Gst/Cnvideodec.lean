import CambriconGst.Easycodec.EventLoop
import CambriconGst.Gst.Element

/-!
# The video decoder element

`gst/decode/gstcnvideo_dec.cpp`: caps, EOS and state changes on the element's side, the event loop
on the other. The codec is outside: its calls return any code, and an instance that was created
reports any events until it is destroyed or aborted.
-/

namespace CambriconGst.Gst

open Lib Easycodec

namespace Cnvideodec

/-- Who destroys the decoder. -/
inductive Destroyer where
  | setCaps
  | readyToNull
deriving DecidableEq, Repr

/-- Where the thread is that handles caps or changes the state. -/
inductive Pc where
  | idle
  /-- In `destroy_decoder`, about to feed EOS. -/
  | feeding (k : Destroyer)
  /-- Waiting for `got_eos`. -/
  | waitEos (k : Destroyer)
  /-- Joining the event loop, with `eos_mtx` held. -/
  | joining (k : Destroyer)
  /-- In `set_caps`, about to start the event loop. -/
  | starting
  | creating
  | settingAttributes
  | finalized
  /-- `std::terminate` was called: a joinable thread was overwritten or destroyed. -/
  | terminated
deriving DecidableEq, Repr

namespace Pc

def feeds : Pc → Bool
  | .feeding _ => true
  | _ => false

def waits : Pc → Bool
  | .waitEos _ => true
  | _ => false

def joins : Pc → Bool
  | .joining _ => true
  | _ => false

def ended : Pc → Bool
  | .finalized => true
  | .terminated => true
  | _ => false

end Pc

/--
What has happened, for statements only, but for `live` and `created`, which say which codec
instances there are.
-/
structure History where
  /-- The codec instances created and neither destroyed nor aborted. -/
  live : List Nat
  created : Nat
  /-- The instances that accepted an EOS and have not reported it. -/
  owed : List Nat
  /-- The codec accepted an EOS since the flags were reset. -/
  accepted : Bool
  /-- The event loop was left behind: the codec was not created, its attributes were not set, it
  was aborted, or it was not destroyed with the element's state going to `NULL`. -/
  stranded : Bool
  /-- The EOS events from upstream that the codec accepted. -/
  upstreamEos : Nat
  /-- The fatal events that the codec reported. -/
  fatal : Nat
deriving DecidableEq, Repr

end Cnvideodec

open Cnvideodec in
/-- `GstCnvideodec` and its private data. -/
structure Cnvideodec where
  element : Element
  sendEos : Bool
  /-- With `decode` for its handle. -/
  loop : EventLoop
  pc : Pc
  history : History
deriving DecidableEq, Repr

namespace Cnvideodec

/-- `gst_cnvideodec_init`. -/
def initial : Cnvideodec where
  element := { state := .null, padsActive := false }
  sendEos := false
  loop := { eventQueue := [], handle := none, gotEos := false, runner := .none, eosCalls := 0 }
  pc := .idle
  history :=
    { live := [], created := 0, owed := [], accepted := false, stranded := false
      upstreamEos := 0, fatal := 0 }

def decode (s : Cnvideodec) : Option Nat :=
  s.loop.handle

/-- `cnvideoDecFeedData` of an EOS. A null handle accepts nothing. -/
def feed (s : Cnvideodec) : Ecode → Cnvideodec
  | .success =>
    match s.decode with
    | some d => { s with history := { s.history with accepted := true, owed := d :: s.history.owed } }
    | none => s
  | _ => s

/-- `gst_cnvideodec_destroy_decoder` up to where it feeds or waits. -/
def destroyDecoder (s : Cnvideodec) (k : Destroyer) : Cnvideodec :=
  if s.loop.gotEos then { s with pc := .waitEos k }
  else if s.sendEos = false ∧ s.decode.isSome then { s with pc := .feeding k }
  else if s.decode.isNone then
    { s with loop := { s.loop with gotEos := true }, pc := .waitEos k }
  else { s with pc := .waitEos k }

/-- The end of `gst_cnvideodec_destroy_decoder`: the thread is joined, the codec destroyed. -/
def destroyed (s : Cnvideodec) : Cnvideodec :=
  { s with
    loop := { s.loop with runner := .none, handle := none }
    history :=
      { s.history with
        live := s.history.live.filter fun d => s.decode ≠ some d
        stranded := false } }

/-- `gst_cnvideodec_sink_event` of a caps event. `env` is what `set_cnrt_env` returns. -/
def setCaps (s : Cnvideodec) (accepted env : Bool) : Cnvideodec :=
  if accepted = false then s
  else if s.decode.isNone then { s with pc := .starting }
  else if env = false then s
  else s.destroyDecoder .setCaps

/-- `gst_cnvideodec_change_state` to `NULL`. -/
def readyToNull (s : Cnvideodec) (env : Bool) : Cnvideodec :=
  if s.decode.isNone then { s with element := s.element.change .readyToNull }
  else if env = false then
    { s with
      element := s.element.change .readyToNull
      history := { s.history with stranded := true } }
  else s.destroyDecoder .readyToNull

/-- The flags are reset, and `gst_cnvideodec_init_decoder` starts the event loop. -/
def startLoop (s : Cnvideodec) (env : Bool) : Cnvideodec :=
  let s :=
    { s with
      sendEos := false
      loop := { s.loop with gotEos := false }
      history := { s.history with accepted := false } }
  if env = false then { s with pc := .idle }
  else if s.loop.runner.joinable then { s with pc := .terminated }
  else { s with loop := { s.loop with runner := .loop }, pc := .creating }

def create (s : Cnvideodec) : Ecode → Cnvideodec
  | .success =>
    { s with
      loop := { s.loop with handle := some s.history.created }
      pc := .settingAttributes
      history :=
        { s.history with
          live := s.history.created :: s.history.live
          created := s.history.created + 1 } }
  | _ =>
    { s with
      loop := { s.loop with handle := none }
      pc := .idle
      history := { s.history with stranded := true } }

def setAttributes (s : Cnvideodec) : Ecode → Cnvideodec
  | .success => { s with pc := .idle }
  | _ =>
    -- the handle is dropped, the codec instance is not destroyed
    { s with
      loop := { s.loop with handle := none }
      pc := .idle
      history := { s.history with stranded := true } }

/-- `handle_event`. -/
def handleEvent (s : Cnvideodec) (d : Nat) (type : CbEventType) : Cnvideodec :=
  { s with
    loop := s.loop.receiveEvent type
    history :=
      { s.history with
        owed := if type = .eos then s.history.owed.erase d else s.history.owed
        fatal := s.history.fatal + if type.aborts then 1 else 0 } }

/-- The event loop takes an event, and may abort the codec. -/
def popped (s : Cnvideodec) (loop : EventLoop) : Cnvideodec :=
  if s.decode.isSome ∧ loop.handle.isNone then
    { s with
      loop
      history :=
        { s.history with
          live := s.history.live.filter fun d => s.decode ≠ some d
          stranded := true } }
  else { s with loop }

/-- `delete priv->cpp`, which destroys the thread object. -/
def finalize (s : Cnvideodec) : Cnvideodec :=
  { s with pc := if s.loop.runner.joinable then .terminated else .finalized }

/-! ## Steps -/

inductive Label where
  | changeState (t : Transition)
  | readyToNull (env : Bool)
  | finalize
  | caps (accepted env : Bool)
  | sinkEos (ecode : Ecode)
  | chain
  | feedEos (ecode : Ecode)
  | eosWaited
  | joined
  | startLoop (env : Bool)
  | create (ecode : Ecode)
  | setAttributes (ecode : Ecode)
  | codecEvent (decoder : Nat) (type : CbEventType)
  | pop
  | notify
  | exit
deriving DecidableEq, Repr

/-- The steps that are possible, while the element is neither finalized nor terminated. -/
def Enabled (s : Cnvideodec) : Label → Prop
  | .changeState t => t ≠ .readyToNull ∧ s.element.Can (s.pc = .idle) t
  | .readyToNull _ => s.element.Can (s.pc = .idle) .readyToNull
  | .finalize => s.element.state = .null ∧ s.pc = .idle
  | .caps _ _ => s.element.padsActive = true ∧ s.pc = .idle
  | .sinkEos _ => s.element.padsActive = true ∧ s.pc = .idle
  | .chain => s.element.padsActive = true ∧ s.pc = .idle
  | .feedEos _ => s.pc.feeds = true
  | .eosWaited => s.pc.waits = true ∧ s.loop.gotEos = true
  | .joined => s.pc.joins = true ∧ (s.loop.runner = .finished ∨ s.loop.runner = .none)
  | .startLoop _ => s.pc = .starting
  | .create _ => s.pc = .creating
  | .setAttributes _ => s.pc = .settingAttributes
  | .codecEvent d _ => d ∈ s.history.live
  | .pop => s.loop.pop.isSome = true
  -- `handle_eos` takes `eos_mtx`
  | .notify => s.loop.runner = .notifying ∧ s.pc.joins = false
  | .exit => s.loop.exit.isSome = true

instance (s : Cnvideodec) (l : Label) : Decidable (s.Enabled l) := by
  cases l <;> unfold Enabled <;> infer_instance

def effect (s : Cnvideodec) : Label → Cnvideodec
  | .changeState t => { s with element := s.element.change t }
  | .readyToNull env => s.readyToNull env
  | .finalize => s.finalize
  | .caps accepted env => s.setCaps accepted env
  | .sinkEos ecode =>
    { s.feed ecode with
      sendEos := true
      history :=
        { (s.feed ecode).history with
          upstreamEos :=
            s.history.upstreamEos + if ecode = .success ∧ s.decode.isSome then 1 else 0 } }
  | .chain => s
  | .feedEos ecode =>
    match s.pc with
    | .feeding k => { s.feed ecode with sendEos := true, pc := .waitEos k }
    | _ => s
  | .eosWaited =>
    match s.pc with
    | .waitEos k => { s with pc := .joining k }
    | _ => s
  | .joined =>
    match s.pc with
    | .joining .setCaps => { s.destroyed with pc := .starting }
    | .joining .readyToNull =>
      { s.destroyed with element := s.element.change .readyToNull, pc := .idle }
    | _ => s
  | .startLoop env => s.startLoop env
  | .create ecode => s.create ecode
  | .setAttributes ecode => s.setAttributes ecode
  | .codecEvent d type => s.handleEvent d type
  | .pop => (s.loop.pop.map s.popped).getD s
  | .notify => { s with loop := (s.loop.notify s.element.state.running).getD s.loop }
  | .exit => { s with loop := s.loop.exit.getD s.loop }

def next (s : Cnvideodec) (l : Label) : Option Cnvideodec :=
  if s.pc.ended = false ∧ s.Enabled l then some (s.effect l) else none

end Cnvideodec

end CambriconGst.Gst
