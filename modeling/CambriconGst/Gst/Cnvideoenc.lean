import CambriconGst.Easycodec.EventLoop
import CambriconGst.Gst.Element

/-!
# The video encoder element

`gst/encode/gstcnvideo_enc.cpp`: caps, EOS and state changes on the element's side, the event loop
on the other. Unlike the decoder, the element destroys its codec on the way to `READY`, and keeps
its EOS flags when it creates another.
-/

namespace CambriconGst.Gst

open Lib Easycodec

namespace Cnvideoenc

/-- Who destroys the encoder. -/
inductive Destroyer where
  | setCaps
  | pausedToReady
deriving DecidableEq, Repr

/-- Where the thread is that handles caps or changes the state. -/
inductive Pc where
  | idle
  /-- In `destroy_encoder`, about to feed EOS. -/
  | feeding (k : Destroyer)
  /-- Waiting for `got_eos`. -/
  | waitEos (k : Destroyer)
  /-- Joining the event loop, with `eos_mtx` held. -/
  | joining (k : Destroyer)
  /-- In `init_encoder`. -/
  | starting
  | creating
  | finalized
  /-- `std::terminate` was called: a joinable thread was overwritten or destroyed. -/
  | terminated
deriving DecidableEq, Repr

namespace Pc

def feeds : Pc → Bool
  | .feeding _ => true
  | _ => false

def waits : Pc → Bool
  | .waitEos _ => true
  | _ => false

def joins : Pc → Bool
  | .joining _ => true
  | _ => false

def ended : Pc → Bool
  | .finalized => true
  | .terminated => true
  | _ => false

end Pc

/--
What has happened, for statements only, but for `live` and `created`, which say which codec
instances there are.
-/
structure History where
  /-- The codec instances created and neither destroyed nor aborted. -/
  live : List Nat
  created : Nat
  /-- The instances that accepted an EOS. -/
  fed : List Nat
  /-- The instances that reported EOS or an event that aborts. -/
  delivered : List Nat
  /-- The event loop was left behind: the codec was not created, or it was aborted. -/
  stranded : Bool
deriving DecidableEq, Repr

end Cnvideoenc

open Cnvideoenc in
/-- `GstCnvideoenc` and its private data. -/
structure Cnvideoenc where
  element : Element
  sendEos : Bool
  /-- With `encode` for its handle. -/
  loop : EventLoop
  pc : Pc
  /-- The calls of `handle_output` that have aborted the codec and not announced it. -/
  aborting : Nat
  history : History
deriving DecidableEq, Repr

namespace Cnvideoenc

/-- `gst_cnvideoenc_init`. -/
def initial : Cnvideoenc where
  element := { state := .null, padsActive := false }
  sendEos := false
  loop := { eventQueue := [], handle := none, gotEos := false, runner := .none, eosCalls := 0 }
  pc := .idle
  aborting := 0
  history := { live := [], created := 0, fed := [], delivered := [], stranded := false }

def encode (s : Cnvideoenc) : Option Nat :=
  s.loop.handle

/-- `feed_eos`: the codes of `cnvideoEncWaitAvailInputBuf` and `cnvideoEncFeedFrame`. -/
def feedEos (s : Cnvideoenc) : Ecode → Ecode → Cnvideoenc
  | .success, .success =>
    match s.encode with
    | some d => { s with sendEos := true, history := { s.history with fed := d :: s.history.fed } }
    | none => s
  | _, _ => s

/-- `gst_cnvideoenc_destroy_encoder` up to where it feeds or waits. -/
def destroyEncoder (s : Cnvideoenc) (k : Destroyer) : Cnvideoenc :=
  if s.loop.gotEos then { s with pc := .waitEos k }
  else if s.sendEos = false ∧ s.encode.isSome then { s with pc := .feeding k }
  else if s.encode.isNone then
    { s with loop := { s.loop with gotEos := true }, pc := .waitEos k }
  else { s with pc := .waitEos k }

/-- The end of `gst_cnvideoenc_destroy_encoder`: the thread is joined, the codec destroyed. -/
def destroyed (s : Cnvideoenc) : Cnvideoenc :=
  { s with
    loop := { s.loop with runner := .none, handle := none }
    history :=
      { s.history with
        live := s.history.live.filter fun d => s.encode ≠ some d
        stranded := false } }

/-- `gst_cnvideoenc_set_caps`. -/
def setCaps (s : Cnvideoenc) (accepted : Bool) : Cnvideoenc :=
  if accepted = false then s
  else if s.encode.isNone then { s with pc := .starting }
  else s.destroyEncoder .setCaps

/--
`gst_cnvideoenc_init_encoder` up to where it starts the event loop. `prepared` is false when it
returns before, for want of a CNRT environment or of what converts RGB.
-/
def startLoop (s : Cnvideoenc) (prepared : Bool) : Cnvideoenc :=
  if prepared = false then { s with pc := .idle }
  else if s.loop.runner.joinable then { s with pc := .terminated }
  else { s with loop := { s.loop with runner := .loop }, pc := .creating }

/-- The rest of `init_encoder`. A profile or codec type it refuses counts as an error here. -/
def create (s : Cnvideoenc) : Ecode → Cnvideoenc
  | .success =>
    { s with
      loop := { s.loop with handle := some s.history.created }
      pc := .idle
      history :=
        { s.history with
          live := s.history.created :: s.history.live
          created := s.history.created + 1 } }
  | _ =>
    { s with
      loop := { s.loop with handle := none }
      pc := .idle
      history := { s.history with stranded := true } }

/-- `handle_event`. -/
def handleEvent (s : Cnvideoenc) (d : Nat) (type : CbEventType) : Cnvideoenc :=
  { s with
    loop := s.loop.receiveEvent type
    history :=
      { s.history with
        delivered :=
          if type = .eos ∨ type.aborts then d :: s.history.delivered else s.history.delivered } }

/-- The event loop takes an event, and may abort the codec. -/
def popped (s : Cnvideoenc) (loop : EventLoop) : Cnvideoenc :=
  if s.encode.isSome ∧ loop.handle.isNone then
    { s with
      loop
      history :=
        { s.history with
          live := s.history.live.filter fun d => s.encode ≠ some d
          stranded := true } }
  else { s with loop }

/-- `abort_encoder` by `handle_output`, when it cannot copy what the codec put out. -/
def outputFailed (s : Cnvideoenc) : Cnvideoenc :=
  match s.encode with
  | some e =>
    { s with
      loop := { s.loop with handle := none }
      aborting := s.aborting + 1
      history :=
        { s.history with
          live := s.history.live.filter (· ≠ e)
          stranded := true } }
  | none => s

/-- The rest of that `abort_encoder`, from `handle_eos` on. -/
def outputAborted (s : Cnvideoenc) : Cnvideoenc :=
  { s with
    loop :=
      { s.loop with
        gotEos := true
        eosCalls := s.loop.eosCalls + if s.element.state.running then 1 else 0 }
    aborting := s.aborting - 1 }

/-- `delete priv->cpp`, which destroys the thread object. -/
def finalize (s : Cnvideoenc) : Cnvideoenc :=
  { s with pc := if s.loop.runner.joinable then .terminated else .finalized }

/-! ## Steps -/

inductive Label where
  | changeState (t : Transition)
  | pausedToReady
  | finalize
  | caps (accepted : Bool)
  | sinkEos (avail ecode : Ecode)
  | chain
  | feedEos (avail ecode : Ecode)
  | eosWaited
  | joined
  | startLoop (prepared : Bool)
  | create (ecode : Ecode)
  | codecEvent (encoder : Nat) (type : CbEventType)
  | outputFailed (encoder : Nat)
  | outputAborted
  | pop
  | notify
  | exit
deriving DecidableEq, Repr

/-- The steps that are possible, while the element is neither finalized nor terminated. -/
def Enabled (s : Cnvideoenc) : Label → Prop
  | .changeState t => t ≠ .pausedToReady ∧ s.element.Can (s.pc = .idle) t
  | .pausedToReady => s.element.Can (s.pc = .idle) .pausedToReady
  | .finalize => s.element.state = .null ∧ s.pc = .idle
  | .caps _ => s.element.padsActive = true ∧ s.pc = .idle
  | .sinkEos _ _ => s.element.padsActive = true ∧ s.pc = .idle
  | .chain => s.element.padsActive = true ∧ s.pc = .idle
  | .feedEos _ _ => s.pc.feeds = true
  | .eosWaited => s.pc.waits = true ∧ s.loop.gotEos = true
  | .joined => s.pc.joins = true ∧ (s.loop.runner = .finished ∨ s.loop.runner = .none)
  | .startLoop _ => s.pc = .starting
  | .create _ => s.pc = .creating
  | .codecEvent d _ => d ∈ s.history.live
  | .outputFailed d => d ∈ s.history.live
  -- `handle_eos` takes `eos_mtx`
  | .outputAborted => 0 < s.aborting ∧ s.pc.joins = false
  | .pop => s.loop.pop.isSome = true
  | .notify => s.loop.runner = .notifying ∧ s.pc.joins = false
  | .exit => s.loop.exit.isSome = true

instance (s : Cnvideoenc) (l : Label) : Decidable (s.Enabled l) := by
  cases l <;> unfold Enabled <;> infer_instance

def effect (s : Cnvideoenc) : Label → Cnvideoenc
  | .changeState t => { s with element := s.element.change t }
  | .pausedToReady => s.destroyEncoder .pausedToReady
  | .finalize => s.finalize
  | .caps accepted => s.setCaps accepted
  | .sinkEos avail ecode => s.feedEos avail ecode
  | .chain => s
  | .feedEos avail ecode =>
    match s.pc with
    | .feeding k => { s.feedEos avail ecode with pc := .waitEos k }
    | _ => s
  | .eosWaited =>
    match s.pc with
    | .waitEos k => { s with pc := .joining k }
    | _ => s
  | .joined =>
    match s.pc with
    | .joining .setCaps => { s.destroyed with pc := .starting }
    | .joining .pausedToReady =>
      { s.destroyed with element := s.element.change .pausedToReady, pc := .idle }
    | _ => s
  | .startLoop prepared => s.startLoop prepared
  | .create ecode => s.create ecode
  | .codecEvent d type => s.handleEvent d type
  | .outputFailed _ => s.outputFailed
  | .outputAborted => s.outputAborted
  | .pop => (s.loop.pop.map s.popped).getD s
  | .notify => { s with loop := (s.loop.notify s.element.state.running).getD s.loop }
  | .exit => { s with loop := s.loop.exit.getD s.loop }

def next (s : Cnvideoenc) (l : Label) : Option Cnvideoenc :=
  if s.pc.ended = false ∧ s.Enabled l then some (s.effect l) else none

end Cnvideoenc

end CambriconGst.Gst
