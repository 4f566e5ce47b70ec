import CambriconGst.Lib.History
import CambriconGst.Lib.RwLock
import CambriconGst.Lib.System
import Mathlib.Data.Multiset.AddSub

/-!
# Log sinks

`AddLogSink`, `RemoveLogSink` and `LogToSinks` of `LogDestination` in `cxxutil/log.cpp`, called by any
number of threads. `sink_lock_` is taken and released, and each turn of a loop is a step of its own;
so are `Send` and `WaitTillSent`, which are code of the user.
-/

namespace CambriconGst.Cxxutil

open Lib

namespace LogSinks

inductive Op (κ : Type) where
  | addLogSink (sink : κ)
  | removeLogSink (sink : κ)
  | logToSinks
deriving DecidableEq, Repr

/-- For a message, the sinks that it was sent to. -/
inductive Result (κ : Type) where
  | done
  | sent (sinks : List κ)
deriving DecidableEq, Repr

/-- Where a thread is. Of `i`, which counts down, it is the number of entries that are left. -/
inductive Pc (κ : Type) where
  | idle
  /-- About to take the lock. -/
  | locking (op : Op κ)
  | pushing (sink : κ)
  | searching (sink : κ) (i : Nat)
  | sending (i : Nat) (sent : List κ)
  /-- Between `Send` and `WaitTillSent`. -/
  | waiting (i : Nat) (sent : List κ)
  /-- About to release the lock and to return. -/
  | returning (op : Op κ) (r : Result κ)
  /-- An index was out of range. -/
  | outOfRange
deriving DecidableEq, Repr

end LogSinks

open LogSinks in
structure LogSinks (τ κ : Type) where
  sinks : List κ
  lock : RwLock τ
  pc : τ → Pc κ

namespace LogSinks

variable {τ κ : Type} [DecidableEq τ] [DecidableEq κ]

def initial : LogSinks τ κ where
  sinks := []
  lock := .free
  pc _ := .idle

def goto (s : LogSinks τ κ) (t : τ) (p : Pc κ) : LogSinks τ κ :=
  { s with pc := Function.update s.pc t p }

/-- The lock is taken in the mode of the operation. -/
def enter (s : LogSinks τ κ) (t : τ) : Op κ → Option (LogSinks τ κ)
  | .addLogSink sink => (s.lock.wrLock t).map fun lock => { s.goto t (.pushing sink) with lock }
  | .removeLogSink sink =>
    (s.lock.wrLock t).map fun lock => { s.goto t (.searching sink s.sinks.length) with lock }
  | .logToSinks =>
    (s.lock.rdLock t).map fun lock => { s.goto t (.sending s.sinks.length []) with lock }

/-- A turn of the loop of `RemoveLogSink`. -/
def search (s : LogSinks τ κ) (t : τ) (sink : κ) : Nat → LogSinks τ κ
  | 0 => s.goto t (.returning (.removeLogSink sink) .done)
  | i + 1 =>
    match s.sinks[i]?, s.sinks.getLast? with
    | some found, some last =>
      if found = sink then
        { s.goto t (.returning (.removeLogSink sink) .done) with
          sinks := (s.sinks.set i last).dropLast }
      else s.goto t (.searching sink i)
    | _, _ => s.goto t .outOfRange

/-- A turn of the loop of `LogToSinks`, as far as `Send`. -/
def send (s : LogSinks τ κ) (t : τ) (sent : List κ) : Nat → LogSinks τ κ
  | 0 => s.goto t (.returning .logToSinks (.sent sent))
  | i + 1 =>
    match s.sinks[i]? with
    | some sink => s.goto t (.waiting i (sent ++ [sink]))
    | none => s.goto t .outOfRange

/-- `WaitTillSent`. -/
def wait (s : LogSinks τ κ) (t : τ) (i : Nat) (sent : List κ) : LogSinks τ κ :=
  match s.sinks[i]? with
  | some _ => s.goto t (.sending i sent)
  | none => s.goto t .outOfRange

inductive Label (τ κ : Type) where
  | call (t : τ) (op : Op κ)
  | step (t : τ)
deriving DecidableEq, Repr

def next (s : LogSinks τ κ) : Label τ κ → Option (LogSinks τ κ)
  | .call t op =>
    match s.pc t with
    | .idle => some (s.goto t (.locking op))
    | _ => none
  | .step t =>
    match s.pc t with
    | .locking op => s.enter t op
    | .pushing sink =>
      some { s.goto t (.returning (.addLogSink sink) .done) with sinks := s.sinks ++ [sink] }
    | .searching sink i => some (s.search t sink i)
    | .sending i sent => some (s.send t sent i)
    | .waiting i sent => some (s.wait t i sent)
    | .returning _ _ => some { s.goto t .idle with lock := s.lock.unlock t }
    | _ => none

/-- The sink that a thread has called and not finished with. -/
def uses (s : LogSinks τ κ) (t : τ) : Option κ :=
  match s.pc t with
  | .waiting _ sent => sent.getLast?
  | _ => none

/-! ## What a step shows -/

/-- What has taken effect when a thread is about to return, and was not before. -/
def effectOf (s : LogSinks τ κ) (t : τ) : Option (Event τ (Op κ) (Result κ)) :=
  match s.pc t with
  | .pushing sink => some (.effect t (.addLogSink sink) .done)
  | .searching sink 0 => some (.effect t (.removeLogSink sink) .done)
  | .searching sink (i + 1) =>
    if s.sinks[i]? = some sink then some (.effect t (.removeLogSink sink) .done) else none
  | .sending 0 sent => some (.effect t .logToSinks (.sent sent))
  | _ => none

/-- Calls, effects and returns. -/
def shows (s : LogSinks τ κ) : Label τ κ → Option (Event τ (Op κ) (Result κ))
  | .call t op => some (.call t op)
  | .step t =>
    match s.pc t with
    | .returning _ r => some (.ret t r)
    | _ => s.effectOf t

end LogSinks

/-! ## A collection of sinks -/

namespace SinkSet

open LogSinks

variable {κ : Type} [DecidableEq κ]

/-- The sinks that are registered, each as often as it is; a message goes to all of them. -/
def apply (registered : Multiset κ) : Op κ → Result κ → Option (Multiset κ)
  | .addLogSink sink, .done => some (sink ::ₘ registered)
  | .removeLogSink sink, .done => some (registered.erase sink)
  | .logToSinks, .sent sinks => if (sinks : Multiset κ) = registered then some registered else none
  | _, _ => none

end SinkSet

end CambriconGst.Cxxutil
