import CambriconGst.Common.SyncedMemory
import CambriconGst.Lib.Transition

/-!
# Synced memory is one register

Seen from outside, a synced memory is a single register of bytes: whichever side is asked, the
answer is what was set or written last, on either side. The exception is a setter that is given
the block the memory allocated itself: the block is freed and then taken for the current data.

* `Coherent`: the invariant. `head` names a side that holds the register's contents
* `toCpu_coherent`: the lazy copy
* `getters_read_latest`: the register reading, for every run without such a setter
* `own_block_set`: a run with one

Host and device are mirror images of each other. `World.mirror` exchanges them, so every fact is
proved for the host side and carried over.
-/

namespace CambriconGst.SyncedMemory

open Lib

/-! ## Calls and runs -/

/--
One call. A mutable getter comes with what the caller writes through the pointer before the next
call, as (offset, byte) pairs.
-/
inductive Op where
  | setHostData (data : Option Nat)
  | setDevData (data : Option Nat)
  | getHostData
  | getDevData
  | getMutableHostData (writes : List (Nat × UInt8))
  | getMutableDevData (writes : List (Nat × UInt8))

/-- The caller's writes, applied to the bytes of the memory. -/
def poke (writes : List (Nat × UInt8)) (bs : List UInt8) : List UInt8 :=
  writes.foldl (fun b x => b.set x.1 x.2) bs

@[simp] theorem length_poke (writes : List (Nat × UInt8)) :
    ∀ bs : List UInt8, (poke writes bs).length = bs.length := by
  induction writes with
  | nil => intro bs; rfl
  | cons x rest ih => intro bs; simp [poke] at ih ⊢; rw [ih]; simp

/-- The caller writes through the host pointer. -/
def writeHost (w : World) (writes : List (Nat × UInt8)) : Option World :=
  match w.mem.hostPtr with
  | none => none
  | some p =>
    match w.hostBytes p with
    | none => none
    | some bs => (w.host.store p (poke writes bs)).map fun host => { w with host := host }

/-- The caller writes through the device pointer. -/
def writeDev (w : World) (writes : List (Nat × UInt8)) : Option World :=
  match w.mem.devPtr with
  | none => none
  | some p =>
    match w.devBytes p with
    | none => none
    | some bs => (w.dev.store p (poke writes bs)).map fun dev => { w with dev := dev }

/-- A call, including the caller's writes that follow it. -/
def exec (w : World) : Op → Option (Reply × World)
  | .setHostData data => setHostData w data
  | .setDevData data => setDevData w data
  | .getHostData => getHostData w
  | .getDevData => getDevData w
  | .getMutableHostData writes =>
    (getMutableHostData w).bind fun r => (writeHost r.2 writes).map fun w' => (r.1, w')
  | .getMutableDevData writes =>
    (getMutableDevData w).bind fun r => (writeDev r.2 writes).map fun w' => (r.1, w')

/-- A setter is given a live block, long enough for the memory. -/
def Legal (w : World) : Op → Prop
  | .setHostData (some p) => ∃ bs, w.hostBytes p = some bs
  | .setDevData (some p) => ∃ bs, w.devBytes p = some bs
  | _ => True

/-- A setter is not given the block that the memory allocated itself. -/
def Foreign (w : World) : Op → Prop
  | .setHostData (some p) => w.mem.ownHostData = true → w.mem.hostPtr ≠ some p
  | .setDevData (some p) => w.mem.ownDevData = true → w.mem.devPtr ≠ some p
  | _ => True

/-- Between calls the caller does as it likes with the blocks the memory does not point to. -/
structure CallerStep (w w' : World) : Prop where
  mem : w'.mem = w.mem
  host : ∀ p, w.mem.hostPtr = some p → w'.host.block p = w.host.block p
  dev : ∀ p, w.mem.devPtr = some p → w'.dev.block p = w.dev.block p

/-! ## The register -/

/-- The register: what was set or written last, `none` while nothing was. -/
abbrev Register := Option (List UInt8)

/-- What a host reader sees now. -/
def seenOnHost (w : World) : List UInt8 :=
  match getHostData w with
  | some (.ptr (some p), w') => (w'.hostBytes p).getD []
  | _ => []

/-- What a device reader sees now. -/
def seenOnDev (w : World) : List UInt8 :=
  match getDevData w with
  | some (.ptr (some p), w') => (w'.devBytes p).getD []
  | _ => []

/--
The register after a call. A write goes on top of the register's contents; the very first one
lands on whatever the fresh block holds.
-/
def registerAfter (w : World) (cur : Register) : Op → Register
  | .setHostData (some p) => w.hostBytes p
  | .setDevData (some p) => w.devBytes p
  | .setHostData none | .setDevData none => cur
  | .getHostData | .getDevData => cur
  | .getMutableHostData writes => some (poke writes (cur.getD (seenOnHost w)))
  | .getMutableDevData writes => some (poke writes (cur.getD (seenOnDev w)))

/-- A new memory over any two address spaces. -/
def Init (s : World × Register) : Prop :=
  ∃ size, cnSyncedmemNew size = some s.1.mem ∧ s.2 = none

/-- A call that meets the condition `C`, or a step of the caller. -/
inductive Step (C : World → Op → Prop) : World × Register → World × Register → Prop where
  | call {w w' : World} {cur : Register} {op : Op} {r : Reply} :
      Legal w op → C w op → exec w op = some (r, w') → Step C (w, cur) (w', registerAfter w cur op)
  | caller {w w' : World} {cur : Register} : CallerStep w w' → Step C (w, cur) (w', cur)

/-! ## The invariant -/

/-- The bytes seen are the register's, once it holds any. -/
def Shows (bs : List UInt8) (cur : Register) : Prop := ∀ c, cur = some c → bs = c

/-- The host block holds the register's contents. -/
def HostCurrent (w : World) (cur : Register) : Prop :=
  ∃ p bs, w.mem.hostPtr = some p ∧ w.hostBytes p = some bs ∧ Shows bs cur

/-- The device block holds the register's contents. -/
def DevCurrent (w : World) (cur : Register) : Prop :=
  ∃ p bs, w.mem.devPtr = some p ∧ w.devBytes p = some bs ∧ Shows bs cur

/-- What `head` says is true. -/
def HeadTruthful (w : World) (cur : Register) : Prop :=
  match w.mem.head with
  | .uninitialized => cur = none
  | .atCpu => HostCurrent w cur
  | .atMlu => DevCurrent w cur
  | .synced => HostCurrent w cur ∧ DevCurrent w cur

/-- A getter on the host side returns a pointer to the register's contents. -/
def HostReads (call : Option (Reply × World)) (cur : Register) : Prop :=
  ∃ p w' bs, call = some (.ptr (some p), w') ∧ w'.hostBytes p = some bs ∧ Shows bs cur

/-- A getter on the device side returns a pointer to the register's contents. -/
def DevReads (call : Option (Reply × World)) (cur : Register) : Prop :=
  ∃ p w' bs, call = some (.ptr (some p), w') ∧ w'.devBytes p = some bs ∧ Shows bs cur

/-- Every getter shows what was set or written last, and `head` names a side that holds it. -/
structure ReadsLatest (w : World) (cur : Register) : Prop where
  head : HeadTruthful w cur
  hostData : HostReads (getHostData w) cur
  devData : DevReads (getDevData w) cur
  mutableHostData : HostReads (getMutableHostData w) cur
  mutableDevData : DevReads (getMutableDevData w) cur

/-- Every pointer is live, and `head` names a side that holds the register's contents. -/
structure Coherent (w : World) (cur : Register) : Prop where
  hostLive : ∀ p, w.mem.hostPtr = some p → ∃ bs, w.hostBytes p = some bs
  devLive : ∀ p, w.mem.devPtr = some p → ∃ bs, w.devBytes p = some bs
  ownHost : w.mem.ownHostData = true → ∃ p, w.mem.hostPtr = some p
  ownDev : w.mem.ownDevData = true → ∃ p, w.mem.devPtr = some p
  uninitialized : w.mem.head = .uninitialized →
    w.mem.hostPtr = none ∧ w.mem.devPtr = none ∧ cur = none
  atCpu : w.mem.head = .atCpu → HostCurrent w cur
  atMlu : w.mem.head = .atMlu → DevCurrent w cur
  synced : w.mem.head = .synced → HostCurrent w cur ∧ DevCurrent w cur

/-! ## The mirror -/

def CNSyncHead.mirror : CNSyncHead → CNSyncHead
  | .atCpu => .atMlu
  | .atMlu => .atCpu
  | h => h

def GstSyncedMemory.mirror (m : GstSyncedMemory) : GstSyncedMemory :=
  { m with
    hostPtr := m.devPtr, devPtr := m.hostPtr
    ownHostData := m.ownDevData, ownDevData := m.ownHostData
    head := m.head.mirror }

/-- Host and device exchanged. -/
def World.mirror (w : World) : World := { host := w.dev, dev := w.host, mem := w.mem.mirror }

@[simp] theorem World.mirror_mirror (w : World) : w.mirror.mirror = w := by
  obtain ⟨host, dev, ⟨hp, dp, oh, od, head, size, msg⟩⟩ := w
  cases head <;> rfl

theorem memcpyH2D_eq_mirror (w : World) (p : Nat) :
    memcpyH2D w p = (memcpyD2H w.mirror p).map World.mirror := by
  obtain ⟨host, dev, ⟨hp, dp, oh, od, head, size, msg⟩⟩ := w
  cases hp with
  | none => rfl
  | some q =>
    simp only [memcpyH2D, memcpyD2H, World.mirror, GstSyncedMemory.mirror]
    cases dev.copy host p q size <;> rfl

theorem toMlu_eq_mirror (w : World) : toMlu w = (toCpu w.mirror).map World.mirror := by
  obtain ⟨host, dev, ⟨hp, dp, oh, od, head, size, msg⟩⟩ := w
  cases head with
  | uninitialized => rfl
  | atMlu => rfl
  | synced => rfl
  | atCpu =>
    cases dp with
    | none => exact memcpyH2D_eq_mirror (allocMlu _) _
    | some p => exact memcpyH2D_eq_mirror _ p

def Op.mirror : Op → Op
  | .setHostData data => .setDevData data
  | .setDevData data => .setHostData data
  | .getHostData => .getDevData
  | .getDevData => .getHostData
  | .getMutableHostData writes => .getMutableDevData writes
  | .getMutableDevData writes => .getMutableHostData writes

theorem setDevData_eq_mirror (w : World) (data : Option Nat) :
    setDevData w data = (setHostData w.mirror data).map (Prod.map id World.mirror) := by
  obtain ⟨host, dev, ⟨hp, dp, oh, od, head, size, msg⟩⟩ := w
  cases data with
  | none => cases head <;> rfl
  | some p =>
    cases od with
    | false => rfl
    | true =>
      cases dp with
      | none => rfl
      | some q =>
        simp only [setDevData, setHostData, World.mirror, GstSyncedMemory.mirror, reduceIte,
          Option.bind_some]
        cases dev.free q <;> rfl

theorem getDevData_eq_mirror (w : World) :
    getDevData w = (getHostData w.mirror).map (Prod.map id World.mirror) := by
  unfold getDevData getHostData
  rw [toMlu_eq_mirror]
  cases toCpu w.mirror <;> rfl

theorem getMutableDevData_eq_mirror (w : World) :
    getMutableDevData w = (getMutableHostData w.mirror).map (Prod.map id World.mirror) := by
  unfold getMutableDevData getMutableHostData
  rw [toMlu_eq_mirror]
  cases toCpu w.mirror <;> rfl

theorem writeDev_eq_mirror (w : World) (writes : List (Nat × UInt8)) :
    writeDev w writes = (writeHost w.mirror writes).map World.mirror := by
  obtain ⟨host, dev, ⟨hp, dp, oh, od, head, size, msg⟩⟩ := w
  cases dp with
  | none => rfl
  | some p =>
    simp only [writeDev, writeHost, World.devBytes, World.hostBytes, World.mirror,
      GstSyncedMemory.mirror]
    cases dev.load p size with
    | none => rfl
    | some bs =>
      simp only [Option.map_map]
      cases dev.store p (poke writes bs) with
      | none => rfl
      | some dev' => cases head <;> rfl

/-- **A call on one side is the mirrored call on the other.** -/
theorem exec_mirror (w : World) (op : Op) :
    exec w.mirror op.mirror = (exec w op).map (Prod.map id World.mirror) := by
  have hpm : ∀ o : Option (Reply × World),
      (o.map (Prod.map id World.mirror)).map (Prod.map id World.mirror) = o := by
    intro o
    cases o with
    | none => rfl
    | some x => simp [Prod.map]
  have hbind : ∀ (v : World) (writes : List (Nat × UInt8)),
      exec v (.getMutableDevData writes)
        = (exec v.mirror (.getMutableHostData writes)).map (Prod.map id World.mirror) := by
    intro v writes
    simp only [exec, getMutableDevData_eq_mirror v]
    cases getMutableHostData v.mirror with
    | none => rfl
    | some r =>
      simp only [Option.map_some, Option.bind_some, Prod.map, writeDev_eq_mirror,
        World.mirror_mirror, id]
      cases writeHost r.2 writes <;> rfl
  cases op with
  | setHostData data =>
    simp only [Op.mirror, exec, setDevData_eq_mirror w.mirror, World.mirror_mirror]
  | setDevData data => simp only [Op.mirror, exec, setDevData_eq_mirror w, hpm]
  | getHostData => simp only [Op.mirror, exec, getDevData_eq_mirror w.mirror, World.mirror_mirror]
  | getDevData => simp only [Op.mirror, exec, getDevData_eq_mirror w, hpm]
  | getMutableHostData writes =>
    rw [Op.mirror, hbind w.mirror writes, World.mirror_mirror]
  | getMutableDevData writes => rw [Op.mirror, hbind w writes, hpm]

theorem seenOnDev_eq_mirror (w : World) : seenOnDev w = seenOnHost w.mirror := by
  unfold seenOnDev seenOnHost
  rw [getDevData_eq_mirror]
  cases getHostData w.mirror with
  | none => rfl
  | some r =>
    obtain ⟨r, w'⟩ := r
    cases r with
    | ok b => rfl
    | ptr p => cases p <;> rfl

theorem registerAfter_mirror (w : World) (cur : Register) (op : Op) :
    registerAfter w.mirror cur op.mirror = registerAfter w cur op := by
  cases op with
  | setHostData data => cases data <;> rfl
  | setDevData data => cases data <;> rfl
  | getHostData => rfl
  | getDevData => rfl
  | getMutableHostData writes =>
    simp only [Op.mirror, registerAfter, seenOnDev_eq_mirror, World.mirror_mirror]
  | getMutableDevData writes => simp only [Op.mirror, registerAfter, seenOnDev_eq_mirror]

theorem legal_mirror {w : World} {op : Op} (h : Legal w op) : Legal w.mirror op.mirror := by
  cases op with
  | setHostData data => cases data <;> exact h
  | setDevData data => cases data <;> exact h
  | _ => trivial

theorem foreign_mirror {w : World} {op : Op} (h : Foreign w op) : Foreign w.mirror op.mirror := by
  cases op with
  | setHostData data => cases data <;> exact h
  | setDevData data => cases data <;> exact h
  | _ => trivial

theorem CNSyncHead.mirror_eq {h k : CNSyncHead} (he : h.mirror = k) : h = k.mirror := by
  cases h <;> simp [CNSyncHead.mirror] at he <;> subst he <;> rfl

theorem Coherent.mirror {w : World} {cur : Register} (h : Coherent w cur) :
    Coherent w.mirror cur where
  hostLive := h.devLive
  devLive := h.hostLive
  ownHost := h.ownDev
  ownDev := h.ownHost
  uninitialized := fun he => by
    obtain ⟨h1, h2, h3⟩ := h.uninitialized (CNSyncHead.mirror_eq he)
    exact ⟨h2, h1, h3⟩
  atCpu := fun he => h.atMlu (CNSyncHead.mirror_eq he)
  atMlu := fun he => h.atCpu (CNSyncHead.mirror_eq he)
  synced := fun he => (h.synced (CNSyncHead.mirror_eq he)).symm

theorem HeadTruthful.mirror {w : World} {cur : Register} (h : HeadTruthful w cur) :
    HeadTruthful w.mirror cur := by
  obtain ⟨host, dev, ⟨hp, dp, oh, od, head, size, msg⟩⟩ := w
  cases head with
  | synced => exact And.symm h
  | _ => exact h

/-! ## The invariant, piece by piece -/

theorem HostCurrent.live {w : World} {cur : Register} (h : HostCurrent w cur) :
    ∀ p, w.mem.hostPtr = some p → ∃ bs, w.hostBytes p = some bs := by
  obtain ⟨p, bs, hp, hb, -⟩ := h
  intro q hq
  rw [hp] at hq
  exact ⟨bs, Option.some.inj hq ▸ hb⟩

theorem HostCurrent.exists_ptr {w : World} {cur : Register} (h : HostCurrent w cur) :
    ∃ p, w.mem.hostPtr = some p := by
  obtain ⟨p, -, hp, -⟩ := h
  exact ⟨p, hp⟩

theorem DevCurrent.live {w : World} {cur : Register} (h : DevCurrent w cur) :
    ∀ p, w.mem.devPtr = some p → ∃ bs, w.devBytes p = some bs :=
  HostCurrent.live (w := w.mirror) h

theorem DevCurrent.exists_ptr {w : World} {cur : Register} (h : DevCurrent w cur) :
    ∃ p, w.mem.devPtr = some p :=
  HostCurrent.exists_ptr (w := w.mirror) h

theorem coherent_of_synced {w : World} {cur : Register} (hs : w.mem.head = .synced)
    (hh : HostCurrent w cur) (hd : DevCurrent w cur) : Coherent w cur where
  hostLive := hh.live
  devLive := hd.live
  ownHost := fun _ => hh.exists_ptr
  ownDev := fun _ => hd.exists_ptr
  uninitialized := fun he => by simp [hs] at he
  atCpu := fun he => by simp [hs] at he
  atMlu := fun he => by simp [hs] at he
  synced := fun _ => ⟨hh, hd⟩

theorem coherent_of_atCpu {w : World} {cur : Register} (hs : w.mem.head = .atCpu)
    (hh : HostCurrent w cur) (hd : ∀ p, w.mem.devPtr = some p → ∃ bs, w.devBytes p = some bs)
    (hod : w.mem.ownDevData = true → ∃ p, w.mem.devPtr = some p) : Coherent w cur where
  hostLive := hh.live
  devLive := hd
  ownHost := fun _ => hh.exists_ptr
  ownDev := hod
  uninitialized := fun he => by simp [hs] at he
  atCpu := fun _ => hh
  atMlu := fun he => by simp [hs] at he
  synced := fun he => by simp [hs] at he

/-! ## `to_cpu` -/

/-- Copying the current device data into a live host block synchronises the two. -/
theorem memcpyD2H_coherent {w : World} {cur : Register} {p : Nat} {bs : List UInt8}
    (hp : w.mem.hostPtr = some p) (hl : w.hostBytes p = some bs) (hd : DevCurrent w cur) :
    ∃ w', memcpyD2H w p = some w' ∧ w'.mem.head = .synced ∧ HostCurrent w' cur ∧
      DevCurrent w' cur := by
  obtain ⟨d, cs, hdp, hdl, hshow⟩ := hd
  obtain ⟨host, hc, hload, -⟩ := BlockHeap.copy_of_load hl hdl
  refine ⟨{ w with host := host, mem := { w.mem with head := .synced } }, ?_, rfl,
    ⟨p, cs, hp, hload, hshow⟩, ⟨d, cs, hdp, hdl, hshow⟩⟩
  simp only [memcpyD2H, hdp, hc]

/-- **`to_cpu` never fails, and brings the current data to the host.** -/
theorem toCpu_coherent {w : World} {cur : Register} (h : Coherent w cur) :
    ∃ w', toCpu w = some w' ∧ Coherent w' cur ∧ HostCurrent w' cur := by
  unfold toCpu
  cases hh : w.mem.head with
  | uninitialized =>
    obtain ⟨hhp, hdp, rfl⟩ := h.uninitialized hh
    have hcur : HostCurrent (setHead (mallocHost w) .atCpu) none :=
      ⟨_, _, rfl, BlockHeap.load_malloc_self w.host w.mem.size, fun c hc => by simp at hc⟩
    exact ⟨_, rfl, coherent_of_atCpu rfl hcur h.devLive h.ownDev, hcur⟩
  | atCpu => exact ⟨w, rfl, h, h.atCpu hh⟩
  | synced => exact ⟨w, rfl, h, (h.synced hh).1⟩
  | atMlu =>
    have hd := h.atMlu hh
    cases hp : w.mem.hostPtr with
    | none =>
      obtain ⟨w', hw', hs, hcpu, hmlu⟩ := memcpyD2H_coherent (w := mallocHost w)
        (p := w.host.brk) rfl (BlockHeap.load_malloc_self w.host w.mem.size) hd
      exact ⟨w', hw', coherent_of_synced hs hcpu hmlu, hcpu⟩
    | some p =>
      obtain ⟨bs, hl⟩ := h.hostLive p hp
      obtain ⟨w', hw', hs, hcpu, hmlu⟩ := memcpyD2H_coherent hp hl hd
      exact ⟨w', hw', coherent_of_synced hs hcpu hmlu, hcpu⟩

/-- A host getter returns a pointer to the register's contents. -/
theorem getHostData_reads {w : World} {cur : Register} (h : Coherent w cur) :
    HostReads (getHostData w) cur := by
  obtain ⟨w', hw', -, p, bs, hp, hb, hs⟩ := toCpu_coherent h
  exact ⟨p, w', bs, by simp [getHostData, hw', hp], hb, hs⟩

theorem getMutableHostData_reads {w : World} {cur : Register} (h : Coherent w cur) :
    HostReads (getMutableHostData w) cur := by
  obtain ⟨w', hw', -, p, bs, hp, hb, hs⟩ := toCpu_coherent h
  exact ⟨p, setHead w' .atCpu, bs, by simp [getMutableHostData, hw', hp], hb, hs⟩

/-! ## One step -/

/-- Handing a block over frees the memory's own block and nothing else. -/
theorem setHostData_coherent {w : World} {cur : Register} (h : Coherent w cur) {p : Nat}
    (hl : Legal w (.setHostData (some p))) (hforeign : Foreign w (.setHostData (some p))) :
    ∃ w', setHostData w (some p) = some (.ok true, w') ∧ Coherent w' (w.hostBytes p) := by
  obtain ⟨bs, hbs⟩ := hl
  obtain ⟨host, hfree, hblock⟩ : ∃ host,
      (if w.mem.ownHostData then w.mem.hostPtr.bind w.host.free else some w.host) = some host ∧
        host.block p = w.host.block p := by
    cases ho : w.mem.ownHostData with
    | false => exact ⟨w.host, rfl, rfl⟩
    | true =>
      obtain ⟨q, hq⟩ := h.ownHost ho
      obtain ⟨cs, hcs⟩ := h.hostLive q hq
      obtain ⟨host, hf, hframe⟩ := BlockHeap.free_of_load hcs
      refine ⟨host, by simp [hq, hf], hframe p ?_⟩
      intro hpq
      exact hforeign ho (by rw [hq, hpq])
  refine ⟨{ w with
      host := host
      mem := { w.mem with hostPtr := some p, head := .atCpu, ownHostData := false } },
    by simp only [setHostData, hfree], ?_⟩
  refine coherent_of_atCpu rfl ⟨p, bs, rfl, ?_, ?_⟩ h.devLive h.ownDev
  · show host.load p w.mem.size = some bs
    rw [BlockHeap.load_congr hblock]
    exact hbs
  · intro c hc
    rw [hbs] at hc
    exact Option.some.inj hc

/-- A block of the memory's own that is handed over is freed and then taken for the data. -/
theorem setHostData_own {w : World} {p : Nat} (hown : w.mem.ownHostData = true)
    (hp : w.mem.hostPtr = some p) (hl : Legal w (.setHostData (some p))) :
    ∃ w', setHostData w (some p) = some (.ok true, w') ∧ ∀ cur, ¬HeadTruthful w' cur := by
  obtain ⟨bs, hbs⟩ := hl
  obtain ⟨host, hfree, -⟩ := BlockHeap.free_of_load hbs
  refine ⟨{ w with
      host := host
      mem := { w.mem with hostPtr := some p, head := .atCpu, ownHostData := false } }, ?_, ?_⟩
  · simp only [setHostData, hown, reduceIte, hp, Option.bind_some, hfree]
  · rintro cur ⟨q, cs, hq, hload, -⟩
    obtain rfl := Option.some.inj hq
    have hdead : host.load p w.mem.size = none := BlockHeap.load_free_self hfree _
    have hlive : host.load p w.mem.size = some cs := hload
    rw [hdead] at hlive
    cases hlive

/-- What is written through the host pointer becomes the register's contents. -/
theorem writeHost_coherent {w : World} {cur : Register} (h : Coherent w cur)
    (hh : HostCurrent w cur) (writes : List (Nat × UInt8)) :
    ∃ w' bs, writeHost (setHead w .atCpu) writes = some w' ∧
      (∃ p, w.mem.hostPtr = some p ∧ w.hostBytes p = some bs) ∧ Shows bs cur ∧
      Coherent w' (some (poke writes bs)) := by
  obtain ⟨p, bs, hp, hb, hs⟩ := hh
  have hlen : (poke writes bs).length = w.mem.size := by
    rw [length_poke, BlockHeap.length_of_load hb]
  obtain ⟨host, hst, hload, -⟩ := BlockHeap.store_of_load hb hlen
  refine ⟨{ setHead w .atCpu with host := host }, bs, ?_, ⟨p, hp, hb⟩, hs, ?_⟩
  · have hb' : (setHead w .atCpu).hostBytes p = some bs := hb
    have hp' : (setHead w .atCpu).mem.hostPtr = some p := hp
    have hst' : (setHead w .atCpu).host.store p (poke writes bs) = some host := hst
    simp only [writeHost, hp', hb', hst', Option.map_some]
  · exact coherent_of_atCpu rfl ⟨p, _, hp, hload, fun c hc => Option.some.inj hc⟩ h.devLive
      h.ownDev

/-- Calls that touch the host side. -/
def Op.onHost : Op → Prop
  | .setHostData _ | .getHostData | .getMutableHostData _ => True
  | _ => False

theorem exec_coherent_onHost {w : World} {cur : Register} (h : Coherent w cur) {op : Op}
    (hop : op.onHost) (hl : Legal w op) (hf : Foreign w op) :
    ∃ r w', exec w op = some (r, w') ∧ Coherent w' (registerAfter w cur op) := by
  cases op with
  | setHostData data =>
    cases data with
    | none =>
      refine ⟨.ok false, setErrMsg w "data is NULL.", rfl, ?_⟩
      exact ⟨h.hostLive, h.devLive, h.ownHost, h.ownDev, h.uninitialized, h.atCpu, h.atMlu,
        h.synced⟩
    | some p =>
      obtain ⟨w', hw', hc⟩ := setHostData_coherent h hl hf
      exact ⟨_, w', hw', hc⟩
  | getHostData =>
    obtain ⟨w', hw', hc, -⟩ := toCpu_coherent h
    exact ⟨.ptr w'.mem.hostPtr, w', by simp [exec, getHostData, hw'], hc⟩
  | getMutableHostData writes =>
    obtain ⟨w', hw', hc, hcur⟩ := toCpu_coherent h
    obtain ⟨w'', bs, hwrite, ⟨p, hp, hb⟩, hshow, hc''⟩ := writeHost_coherent hc hcur writes
    refine ⟨.ptr w'.mem.hostPtr, w'', by simp [exec, getMutableHostData, hw', hwrite], ?_⟩
    -- the bytes under the pointer are the register's, or nothing was stored yet
    have hbs : cur.getD (seenOnHost w) = bs := by
      cases cur with
      | some c => exact (hshow c rfl).symm
      | none => simp [seenOnHost, getHostData, hw', hp, hb]
    simpa only [registerAfter, hbs] using hc''
  | setDevData data => exact absurd hop id
  | getDevData => exact absurd hop id
  | getMutableDevData writes => exact absurd hop id

@[simp] theorem Op.mirror_mirror (op : Op) : op.mirror.mirror = op := by
  cases op <;> rfl

/-- A call that succeeds on one side succeeds mirrored on the other. -/
theorem exec_of_mirror {w w' : World} {op : Op} {r : Reply}
    (he : exec w.mirror op.mirror = some (r, w')) : exec w op = some (r, w'.mirror) := by
  have hm := exec_mirror w.mirror op.mirror
  rw [World.mirror_mirror, Op.mirror_mirror, he] at hm
  exact hm

/-- **A legal call that is given no block of the memory's own keeps the invariant.** -/
theorem exec_coherent {w : World} {cur : Register} (h : Coherent w cur) {op : Op}
    (hl : Legal w op) (hf : Foreign w op) :
    ∃ r w', exec w op = some (r, w') ∧ Coherent w' (registerAfter w cur op) := by
  by_cases hop : op.onHost
  · exact exec_coherent_onHost h hop hl hf
  · have hop' : op.mirror.onHost := by cases op <;> simp_all [Op.onHost, Op.mirror]
    obtain ⟨r, w', he, hc⟩ :=
      exec_coherent_onHost h.mirror hop' (legal_mirror hl) (foreign_mirror hf)
    refine ⟨r, w'.mirror, exec_of_mirror he, ?_⟩
    rw [registerAfter_mirror] at hc
    exact hc.mirror

/-- A legal call that is given such a block succeeds too, and `head` is wrong after it. -/
theorem exec_not_foreign {w : World} {op : Op} (hl : Legal w op) (hf : ¬Foreign w op) :
    ∃ r w', exec w op = some (r, w') ∧ ∀ cur, ¬HeadTruthful w' cur := by
  cases op with
  | setHostData data =>
    cases data with
    | none => exact absurd trivial hf
    | some p =>
      obtain ⟨hown, hp⟩ : w.mem.ownHostData = true ∧ w.mem.hostPtr = some p := by
        simpa [Foreign] using hf
      obtain ⟨w', hw', hne⟩ := setHostData_own hown hp hl
      exact ⟨_, w', hw', hne⟩
  | setDevData data =>
    cases data with
    | none => exact absurd trivial hf
    | some p =>
      obtain ⟨hown, hp⟩ : w.mem.ownDevData = true ∧ w.mem.devPtr = some p := by
        simpa [Foreign] using hf
      obtain ⟨w', hw', hne⟩ := setHostData_own (w := w.mirror) hown hp (legal_mirror hl)
      refine ⟨_, w'.mirror, @exec_of_mirror w w' (.setDevData (some p)) _ hw', fun cur ht => ?_⟩
      have ht' := ht.mirror
      rw [World.mirror_mirror] at ht'
      exact hne cur ht'
  | _ => exact absurd trivial hf

/-- The caller's own doings do not disturb the memory. -/
theorem Coherent.caller {w w' : World} {cur : Register} (h : Coherent w cur)
    (hc : CallerStep w w') : Coherent w' cur := by
  obtain ⟨host', dev', mem'⟩ := w'
  obtain ⟨rfl, hhost, hdev⟩ := hc
  have hl : ∀ p, w.mem.hostPtr = some p →
      host'.load p w.mem.size = w.host.load p w.mem.size :=
    fun p hp => BlockHeap.load_congr (hhost p hp) _
  have hd : ∀ p, w.mem.devPtr = some p → dev'.load p w.mem.size = w.dev.load p w.mem.size :=
    fun p hp => BlockHeap.load_congr (hdev p hp) _
  have hhc : HostCurrent w cur → HostCurrent ⟨host', dev', w.mem⟩ cur := by
    rintro ⟨p, bs, hp, hb, hs⟩
    exact ⟨p, bs, hp, (hl p hp).trans hb, hs⟩
  have hdc : DevCurrent w cur → DevCurrent ⟨host', dev', w.mem⟩ cur := by
    rintro ⟨p, bs, hp, hb, hs⟩
    exact ⟨p, bs, hp, (hd p hp).trans hb, hs⟩
  exact {
    hostLive := fun p hp => by
      obtain ⟨bs, hb⟩ := h.hostLive p hp
      exact ⟨bs, (hl p hp).trans hb⟩
    devLive := fun p hp => by
      obtain ⟨bs, hb⟩ := h.devLive p hp
      exact ⟨bs, (hd p hp).trans hb⟩
    ownHost := h.ownHost
    ownDev := h.ownDev
    uninitialized := h.uninitialized
    atCpu := fun he => hhc (h.atCpu he)
    atMlu := fun he => hdc (h.atMlu he)
    synced := fun he => ⟨hhc (h.synced he).1, hdc (h.synced he).2⟩ }

/-! ## Every run -/

theorem coherent_of_init {s : World × Register} (h : Init s) : Coherent s.1 s.2 := by
  obtain ⟨⟨host, dev, mem⟩, cur⟩ := s
  obtain ⟨size, hn, hcur⟩ := h
  simp only [cnSyncedmemNew] at hn
  split at hn
  · simp at hn
  · obtain rfl := Option.some.inj hn
    simp only at hcur
    subst hcur
    constructor <;> simp

theorem coherent_of_reachable {s : World × Register} (h : Reachable Init (Step Foreign) s) :
    Coherent s.1 s.2 := by
  refine Reachable.invariant (I := fun s => Coherent s.1 s.2) (fun s => coherent_of_init) ?_ h
  intro s t hs hst
  cases hst with
  | call hl hf he =>
    obtain ⟨r, w', he', hc⟩ := exec_coherent hs hl hf
    rw [he] at he'
    obtain ⟨rfl, rfl⟩ := Prod.mk.inj (Option.some.inj he')
    exact hc
  | caller hc => exact hs.caller hc

theorem Coherent.headTruthful {w : World} {cur : Register} (h : Coherent w cur) :
    HeadTruthful w cur := by
  unfold HeadTruthful
  split
  · next he => exact (h.uninitialized he).2.2
  · next he => exact h.atCpu he
  · next he => exact h.atMlu he
  · next he => exact h.synced he

theorem Coherent.readsLatest {w : World} {cur : Register} (h : Coherent w cur) :
    ReadsLatest w cur where
  head := h.headTruthful
  hostData := getHostData_reads h
  devData := by
    obtain ⟨p, w', bs, hg, hb, hs⟩ := getHostData_reads h.mirror
    exact ⟨p, w'.mirror, bs, by rw [getDevData_eq_mirror, hg]; rfl, hb, hs⟩
  mutableHostData := getMutableHostData_reads h
  mutableDevData := by
    obtain ⟨p, w', bs, hg, hb, hs⟩ := getMutableHostData_reads h.mirror
    exact ⟨p, w'.mirror, bs, by rw [getMutableDevData_eq_mirror, hg]; rfl, hb, hs⟩

/--
**Whichever side is asked, the last set or write is what is read.**

In a run in which no setter is given the block that the memory allocated itself, each getter returns
a pointer under which the register's contents stand, and `head` names a side that holds them. After
such a run any legal call succeeds, and this is so after it just when it is no such setter.
-/
theorem getters_read_latest {w : World} {cur : Register}
    (h : Reachable Init (Step Foreign) (w, cur)) :
    ReadsLatest w cur ∧
    ∀ op, Legal w op → ∃ r w', exec w op = some (r, w') ∧
      (ReadsLatest w' (registerAfter w cur op) ↔ Foreign w op) := by
  have hc : Coherent w cur := coherent_of_reachable h
  refine ⟨hc.readsLatest, fun op hl => ?_⟩
  by_cases hf : Foreign w op
  · obtain ⟨r, w', he, hc'⟩ := exec_coherent hc hl hf
    exact ⟨r, w', he, iff_of_true hc'.readsLatest hf⟩
  · obtain ⟨r, w', he, hne⟩ := exec_not_foreign hl hf
    exact ⟨r, w', he, iff_of_false (fun hr => hne _ hr.head) hf⟩

/-- A memory of two bytes, and a block of the caller's holding 7 and 9. -/
def sampleWorld : World where
  host := ((BlockHeap.empty fun _ _ => 0).push [7, 9]).2
  dev := BlockHeap.empty fun _ _ => 0
  mem := { size := 2 }

theorem init_sampleWorld : Init (sampleWorld, none) :=
  ⟨2, rfl, rfl⟩

/--
The block of 7 and 9 is handed over, 5 is written on the device, and 6 is written on the host: a
device reader sees 5 and 6.
-/
theorem getters_read_latest_sample : ∃ w, DevReads (getDevData w) (some [5, 6]) ∧
    w.mem.head = .atCpu := by
  have hset : Reachable Init (Step Foreign) _ :=
    (Reachable.of_init init_sampleWorld).tail
      (@Step.call _ _ _ _ (.setHostData (some 1)) _ ⟨[7, 9], rfl⟩ (fun ho => nomatch ho) rfl)
  have hdev := hset.tail (@Step.call _ _ _ _ (.getMutableDevData [(0, 5)]) _ trivial trivial rfl)
  have hhost := hdev.tail (@Step.call _ _ _ _ (.getMutableHostData [(1, 6)]) _ trivial trivial rfl)
  exact ⟨_, (getters_read_latest hhost).1.devData, rfl⟩

/--
The pointer of a mutable getter is handed back to the setter: the block is freed, and `head` says
that the current data is in it.
-/
theorem own_block_set : ∃ w₁ w₂,
    exec sampleWorld (.getMutableHostData [(0, 5)]) = some (.ptr (some 2), w₁) ∧
    exec w₁ (.setHostData (some 2)) = some (.ok true, w₂) ∧
    Reachable Init (Step fun _ _ => True) (w₂, some [5, 0]) ∧
    w₂.mem.head = .atCpu ∧ w₂.mem.hostPtr = some 2 ∧ w₂.hostBytes 2 = none ∧
    ¬ReadsLatest w₂ (some [5, 0]) := by
  have hwrite : Reachable Init (Step fun _ _ => True) _ :=
    (Reachable.of_init init_sampleWorld).tail
      (@Step.call _ _ _ _ (.getMutableHostData [(0, 5)]) _ trivial trivial rfl)
  have hset := hwrite.tail (@Step.call _ _ _ _ (.setHostData (some 2)) _ ⟨[5, 0], rfl⟩ trivial rfl)
  refine ⟨_, _, rfl, rfl, hset, rfl, rfl, rfl, fun hr => ?_⟩
  obtain ⟨p, bs, hp, hb, -⟩ := hr.head
  obtain rfl := Option.some.inj hp
  cases hb

end CambriconGst.SyncedMemory
