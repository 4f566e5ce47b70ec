import CambriconGst.Common.SyncedMemory
import CambriconGst.Lib.RefLog
import CambriconGst.Lib.System

/-!
# Synced memory when allocations and copies fail

`gst-libs/common/synced_memory.cpp` once more, without the contents of the blocks: `malloc` may
return null, and the allocation and the copies of `MluMemoryOp` may throw. `MluMemoryOp::FreeMlu`
only logs an error.
-/

namespace CambriconGst.SyncedMemory

open Lib

/-- A block of one of the two sides, with the one who allocated it. -/
structure Block where
  addr : Nat
  callers : Bool
deriving DecidableEq, Repr

/--
The pointer and the flag of one side. `callers` and `calls` are for statements only: that the
pointer was supplied by the caller, and the allocations and frees that were made.
-/
structure Side where
  ptr : Option Nat
  own : Bool
  callers : Bool
  calls : List (RefOp Block)
deriving DecidableEq, Repr

namespace Side

def initial : Side where
  ptr := none
  own := false
  callers := false
  calls := []

/-- What an allocation returned is stored, and the flag is set. -/
def allocated (b : Side) (r : Option Nat) : Side where
  ptr := r
  own := true
  callers := false
  calls := b.calls ++ (r.map fun p => RefOp.add { addr := p, callers := false }).toList

/-- `free`, `FreeMlu`; null is left alone. -/
def free (b : Side) : Side :=
  { b with
    calls := b.calls ++
      (b.ptr.map fun p => RefOp.release { addr := p, callers := b.callers }).toList }

/-- A setter, with a pointer of the caller's. -/
def set (b : Side) (p : Nat) : Side :=
  let b := if b.own then b.free else b
  { b with ptr := some p, own := false, callers := true }

/-- One side of `cn_syncedmem_free`. -/
def drop (b : Side) : Side :=
  if b.ptr.isSome && b.own then { b.free with own := false } else b

end Side

/-- `GstSyncedMemory`; `deleted` after `cn_syncedmem_free`. -/
structure Faulty where
  host : Side
  dev : Side
  head : CNSyncHead
  size : Nat
  errMsg : String
  deleted : Bool
deriving DecidableEq, Repr

/-- What the calls of one operation give: `none` is a null pointer, or an exception. -/
structure Env where
  malloc : Option Nat
  allocMlu : Option Nat
  memcpy : Bool
deriving DecidableEq, Repr

/-- How an operation ends. -/
inductive Ended where
  | returned (r : Reply)
  | threw
deriving DecidableEq, Repr

namespace Faulty

/-- After `cn_syncedmem_new`. -/
def initial (size : Nat) : Faulty where
  host := .initial
  dev := .initial
  head := .uninitialized
  size := size
  errMsg := ""
  deleted := false

/-- `MemcpyD2H`, `MemcpyH2D`, after which both sides agree; false when it throws. -/
def memcpy (s : Faulty) (env : Env) : Bool × Faulty :=
  if env.memcpy then (true, { s with head := .synced }) else (false, s)

/-- `to_cpu`; false when it throws. -/
def toCpu (s : Faulty) (env : Env) : Bool × Faulty :=
  match s.head with
  | .uninitialized => (true, { s with host := s.host.allocated env.malloc, head := .atCpu })
  | .atMlu =>
    match s.host.ptr with
    | none => { s with host := s.host.allocated env.malloc }.memcpy env
    | some _ => s.memcpy env
  | .atCpu | .synced => (true, s)

/-- `to_mlu`; false when it throws. -/
def toMlu (s : Faulty) (env : Env) : Bool × Faulty :=
  match s.head with
  | .uninitialized =>
    match env.allocMlu with
    | none => (false, s)
    | some p => (true, { s with dev := s.dev.allocated (some p), head := .atMlu })
  | .atCpu =>
    match s.dev.ptr with
    | none =>
      match env.allocMlu with
      | none => (false, s)
      | some p => { s with dev := s.dev.allocated (some p) }.memcpy env
    | some _ => s.memcpy env
  | .atMlu | .synced => (true, s)

/-- `cn_syncedmem_set_host_data`. -/
def setHostData (s : Faulty) (data : Option Nat) : Ended × Faulty :=
  match data with
  | none => (.returned (.ok false), { s with errMsg := "data is NULL." })
  | some p => (.returned (.ok true), { s with host := s.host.set p, head := .atCpu })

/-- `cn_syncedmem_set_dev_data`. -/
def setDevData (s : Faulty) (data : Option Nat) : Ended × Faulty :=
  match data with
  | none => (.returned (.ok false), { s with errMsg := "data is NULL." })
  | some p => (.returned (.ok true), { s with dev := s.dev.set p, head := .atMlu })

/-- `cn_syncedmem_get_host_data`. -/
def getHostData (s : Faulty) (env : Env) : Ended × Faulty :=
  let r := s.toCpu env
  (if r.1 then .returned (.ptr r.2.host.ptr) else .threw, r.2)

/-- `cn_syncedmem_get_dev_data`. -/
def getDevData (s : Faulty) (env : Env) : Ended × Faulty :=
  let r := s.toMlu env
  (if r.1 then .returned (.ptr r.2.dev.ptr) else .threw, r.2)

/-- `cn_syncedmem_get_mutable_host_data`. -/
def getMutableHostData (s : Faulty) (env : Env) : Ended × Faulty :=
  let r := s.toCpu env
  if r.1 then (.returned (.ptr r.2.host.ptr), { r.2 with head := .atCpu }) else (.threw, r.2)

/-- `cn_syncedmem_get_mutable_dev_data`. -/
def getMutableDevData (s : Faulty) (env : Env) : Ended × Faulty :=
  let r := s.toMlu env
  if r.1 then (.returned (.ptr r.2.dev.ptr), { r.2 with head := .atMlu }) else (.threw, r.2)

/-- `cn_syncedmem_free`. -/
def cnSyncedmemFree (s : Faulty) : Ended × Faulty :=
  (.returned (.ok true), { s with host := s.host.drop, dev := s.dev.drop, deleted := true })

inductive Label where
  | setHostData (data : Option Nat)
  | setDevData (data : Option Nat)
  | getHostData (env : Env)
  | getDevData (env : Env)
  | getMutableHostData (env : Env)
  | getMutableDevData (env : Env)
  | free
deriving DecidableEq, Repr

/-- An operation, how it ends and what it leaves. -/
def exec (s : Faulty) : Label → Ended × Faulty
  | .setHostData data => s.setHostData data
  | .setDevData data => s.setDevData data
  | .getHostData env => s.getHostData env
  | .getDevData env => s.getDevData env
  | .getMutableHostData env => s.getMutableHostData env
  | .getMutableDevData env => s.getMutableDevData env
  | .free => s.cnSyncedmemFree

/-- Operations are made on a memory that is not deleted. -/
def next (s : Faulty) (l : Label) : Option Faulty :=
  if s.deleted then none else some (s.exec l).2

/-- The record of a memory, without what is for statements only. -/
def record (s : Faulty) : GstSyncedMemory where
  hostPtr := s.host.ptr
  devPtr := s.dev.ptr
  ownHostData := s.host.own
  ownDevData := s.dev.own
  head := s.head
  size := s.size
  errMsg := s.errMsg

end Faulty

end CambriconGst.SyncedMemory
