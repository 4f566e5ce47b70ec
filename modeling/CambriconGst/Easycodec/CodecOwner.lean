import CambriconGst.Easycodec.EventLoop
import CambriconGst.Lib.System

/-!
# One codec instance and its owner

What announces the end of the stream for one codec instance: `ReceiveEOS`, `handle_eos`, and
`AbortDecoder`, `AbortEncoder`, `abort_decoder`, which any thread can be in. These test and drop the
handle of the codec without a lock.
-/

namespace CambriconGst.Easycodec

open Lib

/-- Who owns the event loop. -/
inductive Owner where
  | decodeHandler
  | encodeHandler
  | cnvideoDec
deriving DecidableEq, Repr

/-- What reaches the owner from outside. -/
inductive Input where
  | event (type : CbEventType)
  /-- A thread other than the event loop calls `AbortDecoder`, `AbortEncoder`. -/
  | abort (thread : Nat)
  /-- The element goes above `GST_STATE_READY`, or not. -/
  | setRunning (running : Bool)
deriving DecidableEq, Repr

/-- A handler can be aborted from outside its loop; an element has states. -/
def Owner.Admits : Owner → Input → Prop
  | _, .event _ => True
  | .cnvideoDec, .abort _ => False
  | .cnvideoDec, .setRunning _ => True
  | _, .abort _ => True
  | _, .setRunning _ => False

/-- The handlers always call back; the element pushes EOS above `GST_STATE_READY` only. -/
def Owner.announces : Owner → Bool → Bool
  | .cnvideoDec, running => running
  | _, _ => true

/--
Where a thread is in `AbortDecoder`, `AbortEncoder` or `abort_decoder`. `ReceiveEOS` and
`handle_eos` are the part from `announce` on.
-/
inductive Abort where
  | test
  /-- The handle was not null: the codec is aborted and the handle dropped. -/
  | drop
  | announce
  | setGotEos
deriving DecidableEq, Repr

/-- Where the event loop thread is. -/
inductive EventTask where
  /-- Waiting for an event or for the end, or about to. -/
  | waiting
  /-- Handling an event that ends the stream. -/
  | handling (abort : Abort)
  | finished
deriving DecidableEq, Repr

/-- A call of `AbortDecoder`, `AbortEncoder` by a thread other than the event loop. -/
structure Call where
  thread : Nat
  abort : Abort
deriving DecidableEq, Repr

/-- `handle` says that `handle_` or `decode` is not null. -/
structure Owned where
  eventQueue : List CbEventType
  handle : Bool
  gotEos : Bool
  running : Bool
  task : EventTask
  calls : List Call
  /-- The EOS callbacks made, or the EOS events pushed. -/
  eosCalls : Nat
deriving DecidableEq, Repr

namespace Owned

inductive Label where
  | input (i : Input)
  /-- The event loop takes an event. -/
  | pop
  /-- The event loop goes on with the event it has taken. -/
  | handle
  /-- The `k`th of the calls goes on. -/
  | call (k : Nat)
  | exit
deriving DecidableEq, Repr

/-- A codec instance was created. -/
def initial (running : Bool) : Owned where
  eventQueue := []
  handle := true
  gotEos := false
  running
  task := .waiting
  calls := []
  eosCalls := 0

/-- One step of a thread in `AbortDecoder`, `AbortEncoder` or `abort_decoder`, and where it goes. -/
def goOn (o : Owner) (s : Owned) : Abort → Owned × Option Abort
  | .test => (s, if s.handle then some .drop else none)
  | .drop => ({ s with handle := false }, some .announce)
  | .announce =>
    ({ s with
        -- `handle_eos` sets the flag before it pushes
        gotEos := s.gotEos || o == .cnvideoDec
        eosCalls := s.eosCalls + if o.announces s.running then 1 else 0 },
      some .setGotEos)
  | .setGotEos => ({ s with gotEos := true }, none)

def take (s : Owned) : Input → Option Owned
  | .event type => some { s with eventQueue := s.eventQueue ++ [type] }
  | .abort thread =>
    if s.calls.any (·.thread = thread) then none
    else some { s with calls := ⟨thread, .test⟩ :: s.calls }
  | .setRunning running => some { s with running }

/-- What is done with an event that is taken. -/
def start (type : CbEventType) : EventTask :=
  if type = .eos then .handling .announce
  else if type.aborts then .handling .test
  else .waiting

def next (o : Owner) (s : Owned) : Label → Option Owned
  | .input i => s.take i
  | .pop =>
    match s.task, s.eventQueue with
    | .waiting, type :: rest => some { s with eventQueue := rest, task := start type }
    | _, _ => none
  | .handle =>
    match s.task with
    | .handling abort =>
      let (s, abort) := s.goOn o abort
      some { s with task := (abort.map .handling).getD .waiting }
    | _ => none
  | .call k =>
    s.calls[k]?.map fun call =>
      let (s, abort) := s.goOn o call.abort
      { s with
        calls := match abort with
          | some abort => s.calls.set k { call with abort }
          | none => s.calls.eraseIdx k }
  | .exit =>
    if s.task = .waiting ∧ s.eventQueue = [] ∧ s.gotEos then some { s with task := .finished }
    else none

/-- The inputs of a run, in order. -/
def inputs : List Label → List Input
  | [] => []
  | .input i :: ls => i :: inputs ls
  | _ :: ls => inputs ls

end Owned

namespace Input

def runningAfter : Bool → List Input → Bool
  | running, [] => running
  | _, .setRunning running :: ins => runningAfter running ins
  | running, _ :: ins => runningAfter running ins

/-- The number of EOS events. -/
def eosEvents : List Input → Nat
  | [] => 0
  | .event .eos :: ins => eosEvents ins + 1
  | _ :: ins => eosEvents ins

/-- The inputs before a thread other than those of `threads` aborts for a second time. -/
def firstAborts : List Nat → List Input → List Input
  | _, [] => []
  | threads, .abort thread :: ins =>
    if thread ∈ threads then [] else .abort thread :: firstAborts (thread :: threads) ins
  | threads, i :: ins => i :: firstAborts threads ins

/-- The number of calls from outside the event loop that abort. -/
def abortCalls : List Input → Nat
  | [] => 0
  | .abort _ :: ins => abortCalls ins + 1
  | _ :: ins => abortCalls ins

/-- An event that makes the event loop abort the codec. -/
def abortsLoop : Input → Bool
  | .event type => type.aborts
  | _ => false

/-- The threads that can be in `AbortDecoder` and so on at the same time. -/
def aborters (ins : List Input) : Nat :=
  abortCalls ins + if ins.any abortsLoop then 1 else 0

/--
The ends of the stream among the inputs: every EOS event, and every thread that aborts before a
thread aborts for a second time.
-/
def ends (ins : List Input) : Nat :=
  eosEvents ins + aborters (firstAborts [] ins)

end Input

end CambriconGst.Easycodec
