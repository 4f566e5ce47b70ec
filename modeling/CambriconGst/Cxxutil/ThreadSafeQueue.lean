import CambriconGst.Lib.ConditionWait
import CambriconGst.Lib.History
import Mathlib.Data.Fintype.Defs
import Mathlib.Logic.Function.Basic

/-!
# The thread-safe queue

`ThreadSafeQueue` of `cxxutil/threadsafe_queue.h`, with the threads that call its methods. Taking and
releasing `data_m_`, what is done between, and each step of a wait are steps of their own.
-/

namespace CambriconGst.Cxxutil

open Lib

namespace ThreadSafeQueue

variable {τ α : Type}

/-- The methods that do not wait. -/
inductive Method (α : Type) where
  | tryPop
  | push (value : α)
  | empty
  | size
deriving DecidableEq, Repr

/-- A call: `WaitAndPop`, `WaitAndTryPop`, which is `timed`, or one of the others. -/
inductive Op (α : Type) where
  | direct (m : Method α)
  | waitAndPop (timed : Bool)
deriving DecidableEq, Repr

/-- What a method returns; a value is what it assigned to its argument. -/
inductive Result (α : Type) where
  | popped (value : α)
  | failed
  | pushed
  | isEmpty (b : Bool)
  | hasSize (n : Nat)
deriving DecidableEq, Repr

/-- Where a thread is. -/
inductive Pc (α : Type) where
  | idle
  /-- About to take the lock. -/
  | locking (op : Op α)
  /-- In a method that does not wait, with the lock. -/
  | locked (m : Method α)
  /-- In `wait` or `wait_for`; only the latter is `timed`. -/
  | wait (timed : Bool) (w : Waiter)
  /-- `wait_for` is over and about to take the lock. -/
  | timedOut
  /-- The last test of its predicate. -/
  | lastTest
  /-- `Push`, before `notify_one`. -/
  | notifying (value : α)
  /-- About to release the lock and to return. -/
  | returning (op : Op α) (r : Result α)
deriving DecidableEq, Repr

/-- With the lock taken. -/
def Op.entered : Op α → Pc α
  | direct m => .locked m
  | waitAndPop timed => .wait timed .testing

end ThreadSafeQueue

open ThreadSafeQueue in
structure ThreadSafeQueue (τ α : Type) where
  q : List α
  /-- Who holds `data_m_`. -/
  owner : Option τ
  pc : τ → Pc α

namespace ThreadSafeQueue

variable {τ α : Type} [DecidableEq τ]

def initial : ThreadSafeQueue τ α where
  q := []
  owner := none
  pc _ := .idle

def goto (s : ThreadSafeQueue τ α) (t : τ) (p : Pc α) : ThreadSafeQueue τ α :=
  { s with pc := Function.update s.pc t p }

/-- The lock is taken when it is free. -/
def lock (s : ThreadSafeQueue τ α) (t : τ) (p : Pc α) : Option (ThreadSafeQueue τ α) :=
  if s.owner = none then some { s.goto t p with owner := some t } else none

def unlock (s : ThreadSafeQueue τ α) (t : τ) (p : Pc α) : ThreadSafeQueue τ α :=
  { s.goto t p with owner := none }

/-- The front is popped, if there is one. -/
def pop (s : ThreadSafeQueue τ α) (t : τ) (op : Op α) (otherwise : Pc α) : ThreadSafeQueue τ α :=
  match s.q with
  | value :: q => { s.goto t (.returning op (.popped value)) with q }
  | [] => s.goto t otherwise

/-- What is done with the lock, by a method that does not wait. -/
def body (s : ThreadSafeQueue τ α) (t : τ) : Method α → ThreadSafeQueue τ α
  | .tryPop => s.pop t (.direct .tryPop) (.returning (.direct .tryPop) .failed)
  | .push value => { s.goto t (.notifying value) with q := s.q ++ [value] }
  | .empty => s.goto t (.returning (.direct .empty) (.isEmpty s.q.isEmpty))
  | .size => s.goto t (.returning (.direct .size) (.hasSize (s.q.length % 2 ^ 32)))

inductive Label (τ α : Type) where
  | call (t : τ) (op : Op α)
  /-- The thread goes on. -/
  | step (t : τ)
  /-- `notify_one`, with the thread that it wakes. -/
  | notify (t : τ) (woken : Option τ)
  /-- A wait ends without a notify. -/
  | spurious (t : τ)
  | timeout (t : τ)
deriving DecidableEq, Repr

def Pc.isBlocked : Pc α → Bool
  | .wait _ .blocked => true
  | _ => false

/-- A thread that is blocked is woken. -/
def wake (s : ThreadSafeQueue τ α) (t : τ) : Option (ThreadSafeQueue τ α) :=
  match s.pc t with
  | .wait timed .blocked => some (s.goto t (.wait timed .woken))
  | _ => none

variable [Fintype τ]

def next (s : ThreadSafeQueue τ α) : Label τ α → Option (ThreadSafeQueue τ α)
  | .call t op =>
    match s.pc t with
    | .idle => some (s.goto t (.locking op))
    | _ => none
  | .step t =>
    match s.pc t with
    | .locking op => s.lock t op.entered
    | .locked m => some (s.body t m)
    | .wait timed .testing => some (s.pop t (.waitAndPop timed) (.wait timed .blocking))
    | .wait timed .blocking => some (s.unlock t (.wait timed .blocked))
    | .wait timed .woken => s.lock t (.wait timed .testing)
    | .timedOut => s.lock t .lastTest
    | .lastTest => some (s.pop t (.waitAndPop true) (.returning (.waitAndPop true) .failed))
    | .returning _ _ => some (s.unlock t .idle)
    | _ => none
  | .notify t woken =>
    match s.pc t with
    | .notifying value =>
      let s := s.goto t (.returning (.direct (.push value)) .pushed)
      match woken with
      | some u => s.wake u
      | none => if ∀ u, (s.pc u).isBlocked = false then some s else none
    | _ => none
  | .spurious t => s.wake t
  | .timeout t =>
    match s.pc t with
    | .wait true .blocked => some (s.goto t .timedOut)
    | _ => none

/-! ## What a step shows -/

/-- What a thread that has the lock does to the queue. -/
def effectOf (s : ThreadSafeQueue τ α) (t : τ) : Option (Event τ (Op α) (Result α)) :=
  match s.pc t, s.q with
  | .locked .tryPop, value :: _ => some (.effect t (.direct .tryPop) (.popped value))
  | .locked .tryPop, [] => some (.effect t (.direct .tryPop) .failed)
  | .locked (.push value), _ => some (.effect t (.direct (.push value)) .pushed)
  | .locked .empty, q => some (.effect t (.direct .empty) (.isEmpty q.isEmpty))
  | .locked .size, q => some (.effect t (.direct .size) (.hasSize (q.length % 2 ^ 32)))
  | .wait timed .testing, value :: _ => some (.effect t (.waitAndPop timed) (.popped value))
  | .lastTest, value :: _ => some (.effect t (.waitAndPop true) (.popped value))
  | .lastTest, [] => some (.effect t (.waitAndPop true) .failed)
  | _, _ => none

/-- Calls, effects and returns. -/
def shows (s : ThreadSafeQueue τ α) : Label τ α → Option (Event τ (Op α) (Result α))
  | .call t op => some (.call t op)
  | .step t =>
    match s.pc t with
    | .returning _ r => some (.ret t r)
    | _ => s.effectOf t
  | _ => none

end ThreadSafeQueue

/-! ## A queue on its own -/

namespace Fifo

open ThreadSafeQueue

variable {α : Type} [DecidableEq α]

/-- The queue after an operation with this result; `none` when the result is not one that it may
have. -/
def apply (q : List α) : Op α → Result α → Option (List α)
  | .direct (.push value), .pushed => some (q ++ [value])
  | .direct .empty, .isEmpty b => if b = q.isEmpty then some q else none
  | .direct .size, .hasSize n => if n = q.length % 2 ^ 32 then some q else none
  | .direct .tryPop, .popped value => if q.head? = some value then some q.tail else none
  | .direct .tryPop, .failed => if q = [] then some q else none
  | .waitAndPop _, .popped value => if q.head? = some value then some q.tail else none
  | .waitAndPop true, .failed => if q = [] then some q else none
  | _, _ => none

end Fifo

end CambriconGst.Cxxutil
