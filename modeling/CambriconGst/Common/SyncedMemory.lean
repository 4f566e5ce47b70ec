import CambriconGst.Lib.BlockHeap

/-!
# Synced memory

`gst-libs/common/synced_memory.cpp`: one piece of data that lives on the host, on the device
or on both, copied lazily when the other side asks for it.

The two address spaces are `BlockHeap`s. `none` as the result of a function is an access to a
dead block, never an error the source reports. Allocations and copies succeed.
-/

namespace CambriconGst.SyncedMemory

open Lib

/-- `CNSyncHead`. -/
inductive CNSyncHead where
  | uninitialized
  | atCpu
  | atMlu
  | synced
  deriving Repr, DecidableEq

/-- `GstSyncedMemory`. A null pointer is `none`. -/
structure GstSyncedMemory where
  hostPtr : Option Nat := none
  devPtr : Option Nat := none
  ownHostData : Bool := false
  ownDevData : Bool := false
  head : CNSyncHead := .uninitialized
  size : Nat
  errMsg : String := ""

/-- `cn_syncedmem_new`. Size 0 gives a null memory. -/
def cnSyncedmemNew (size : Nat) : Option GstSyncedMemory :=
  if size = 0 then none else some { size := size }

/-- The memory together with the two address spaces it points into. -/
structure World where
  host : BlockHeap UInt8
  dev : BlockHeap UInt8
  mem : GstSyncedMemory

/-- Bytes seen through a host pointer. -/
def World.hostBytes (w : World) (p : Nat) : Option (List UInt8) := w.host.load p w.mem.size

/-- Bytes seen through a device pointer. -/
def World.devBytes (w : World) (p : Nat) : Option (List UInt8) := w.dev.load p w.mem.size

/-! ## Moving the data -/

/-- `MluMemoryOp::MemcpyD2H` into `p`, after which both sides agree. -/
def memcpyD2H (w : World) (p : Nat) : Option World :=
  match w.mem.devPtr with
  | none => none
  | some d =>
    match w.host.copy w.dev p d w.mem.size with
    | none => none
    | some host => some { w with host := host, mem := { w.mem with head := .synced } }

/-- `MluMemoryOp::MemcpyH2D` into `p`, after which both sides agree. -/
def memcpyH2D (w : World) (p : Nat) : Option World :=
  match w.mem.hostPtr with
  | none => none
  | some q =>
    match w.dev.copy w.host p q w.mem.size with
    | none => none
    | some dev => some { w with dev := dev, mem := { w.mem with head := .synced } }

/-- `malloc` of the host block. -/
def mallocHost (w : World) : World :=
  let a := w.host.malloc w.mem.size
  { w with host := a.2, mem := { w.mem with hostPtr := some a.1, ownHostData := true } }

/-- `MluMemoryOp::AllocMlu` of the device block. -/
def allocMlu (w : World) : World :=
  let a := w.dev.malloc w.mem.size
  { w with dev := a.2, mem := { w.mem with devPtr := some a.1, ownDevData := true } }

def setHead (w : World) (head : CNSyncHead) : World := { w with mem := { w.mem with head := head } }

/-- `to_cpu`. -/
def toCpu (w : World) : Option World :=
  match w.mem.head with
  | .uninitialized => some (setHead (mallocHost w) .atCpu)
  | .atMlu =>
    match w.mem.hostPtr with
    | none => memcpyD2H (mallocHost w) w.host.brk
    | some p => memcpyD2H w p
  | .atCpu | .synced => some w

/-- `to_mlu`. -/
def toMlu (w : World) : Option World :=
  match w.mem.head with
  | .uninitialized => some (setHead (allocMlu w) .atMlu)
  | .atCpu =>
    match w.mem.devPtr with
    | none => memcpyH2D (allocMlu w) w.dev.brk
    | some p => memcpyH2D w p
  | .atMlu | .synced => some w

/-! ## The interface -/

/-- What a call gives back: the setters' `bool`, the getters' pointer. -/
inductive Reply where
  | ok (b : Bool)
  | ptr (p : Option Nat)
  deriving Repr, DecidableEq

def setErrMsg (w : World) (msg : String) : World := { w with mem := { w.mem with errMsg := msg } }

/-- `cn_syncedmem_set_host_data`. -/
def setHostData (w : World) (data : Option Nat) : Option (Reply × World) :=
  match data with
  | none => some (.ok false, setErrMsg w "data is NULL.")
  | some p =>
    let freed : Option (BlockHeap UInt8) :=
      if w.mem.ownHostData then w.mem.hostPtr.bind w.host.free else some w.host
    match freed with
    | none => none
    | some host =>
      some (.ok true,
        { w with
          host := host
          mem := { w.mem with hostPtr := some p, head := .atCpu, ownHostData := false } })

/-- `cn_syncedmem_set_dev_data`. -/
def setDevData (w : World) (data : Option Nat) : Option (Reply × World) :=
  match data with
  | none => some (.ok false, setErrMsg w "data is NULL.")
  | some p =>
    let freed : Option (BlockHeap UInt8) :=
      if w.mem.ownDevData then w.mem.devPtr.bind w.dev.free else some w.dev
    match freed with
    | none => none
    | some dev =>
      some (.ok true,
        { w with
          dev := dev
          mem := { w.mem with devPtr := some p, head := .atMlu, ownDevData := false } })

/-- `cn_syncedmem_get_host_data`. -/
def getHostData (w : World) : Option (Reply × World) :=
  (toCpu w).map fun w => (.ptr w.mem.hostPtr, w)

/-- `cn_syncedmem_get_dev_data`. -/
def getDevData (w : World) : Option (Reply × World) :=
  (toMlu w).map fun w => (.ptr w.mem.devPtr, w)

/-- `cn_syncedmem_get_mutable_host_data`. -/
def getMutableHostData (w : World) : Option (Reply × World) :=
  (toCpu w).map fun w => (.ptr w.mem.hostPtr, setHead w .atCpu)

/-- `cn_syncedmem_get_mutable_dev_data`. -/
def getMutableDevData (w : World) : Option (Reply × World) :=
  (toMlu w).map fun w => (.ptr w.mem.devPtr, setHead w .atMlu)

end CambriconGst.SyncedMemory
