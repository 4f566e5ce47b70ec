import CambriconGst.Easybang.ResizeYuv420spCores
import CambriconGst.Properties.ResizeYuv420spRows

/-!
# The code of the cores of resize

* `Fits.imageCode_eq`: the code of a core for an image, row by row
* `Fits.mem_writes`, `Fits.mem_reads`: which phase writes and reads what
* `Fits.raceFree`: the cores of a cluster do not race for the SRAM
* `Fits.content_slot`: what the SRAM holds
-/

namespace CambriconGst.Easybang.ResizeYuv420sp.Kernel

open Lib Lib.Barrier

variable {k : Kernel} {batchId coreId : Nat}

/-! ## The rows -/

/-- The parity of a row: the half of the SRAM that its lines are in. -/
def parity (i : Nat) : Bool :=
  i % 2 = 0

theorem parity_succ (i : Nat) : parity (i + 1) = !parity i := by
  unfold parity
  rcases Nat.mod_two_eq_zero_or_one i with h | h <;> simp [Nat.add_mod, h]

/-- The code for a row, `next` being what is done meanwhile for the one after it. -/
def rowCode (k : Kernel) (batchId coreId i : Nat) (next : Code) : Code :=
  k.fetch coreId (parity i) (parity i) ++ [.act (k.compute coreId (parity i))] ++ next ++
    [.store (k.storeY batchId coreId i)] ++ k.pairUV batchId coreId (parity i) (i / 2 : Nat)

/-- The lines of the rows `i` of all cores. -/
def loadRows (k : Kernel) (batchId i : Nat) : Code :=
  k.loads batchId (parity i) (fun _ => i)

/--
What the cores need: the rows are divided without rest, the lines are not wide, those of all cores have
room in a half of the SRAM, and the weights and `SV_r` have room in the NRAM.
-/
structure Fits (k : Kernel) : Prop where
  colseg : k.launch.colseg = 0
  dvd : 2 * k.coreDim ∣ k.dRow
  dRow_pos : 0 < k.dRow
  dRow_lt : k.dRow < 2 ^ 32
  sram : k.coreDim * (4 * k.srcDealNum) ≤ maxSegmentSmHf
  /-- `wy0` and `wy1` have four entries. -/
  weights : k.coreDim ≤ 4
  svR : svRStart + 2 * k.padUvR ≤ bufferSize
  ints : k.IntsFit

namespace Fits

theorem rowseg_mul (h : k.Fits) : k.coreDim * k.launch.rowseg = k.dRow :=
  Launch.rowseg_mul_of_dvd (l := k.launch) h.dvd

theorem rowseg_pos (h : k.Fits) : 0 < k.launch.rowseg := by
  have hmul := h.rowseg_mul
  have hpos := h.dRow_pos
  refine Nat.pos_of_ne_zero fun hzero => ?_
  rw [hzero] at hmul
  omega

theorem coreRowSeg (h : k.Fits) {j : Nat} (hj : j < k.coreDim) :
    k.launch.coreRowSeg j = k.launch.rowseg :=
  Launch.coreRowSeg_of_dvd (l := k.launch) h.dvd h.dRow_lt hj

theorem loads_srcIndex (h : k.Fits) {i : Nat} (hi : i < k.launch.rowseg) (parityS : Bool) :
    k.loads batchId parityS (k.srcIndex i) = k.loads batchId parityS fun _ => i := by
  refine List.flatMap_congr fun j hj => ?_
  have hseg := h.coreRowSeg (List.mem_range.mp hj)
  have hindex : k.srcIndex i j = i := by
    unfold srcIndex
    simp [hseg, hi]
  rw [hindex]

/-- The loop after `n` rows. -/
theorem iterate_rowBody (h : k.Fits) (hcore : coreId < k.coreDim) {n : Nat}
    (hn : n ≤ k.launch.rowseg - 1) : (k.rowBody batchId coreId)^[n] (k.firstLoad batchId) = {
      core := (k.launch.loopBody coreId)^[n] .start
      posIndex := n + 1
      parityS := parity n
      code := k.loadRows batchId 0 ++ [.sync] ++ (List.range n).flatMap fun i =>
        k.rowCode batchId coreId i (k.loadRows batchId (i + 1) ++ [.sync]) } := by
  have hpos := h.rowseg_pos
  have hseg := h.coreRowSeg hcore
  induction n with
  | zero => simp [firstLoad, loadRows, parity]
  | succ n ih =>
    have hcount := Launch.iterate_loopBody hseg n
    rw [Function.iterate_succ_apply', ih (by omega), Function.iterate_succ_apply', List.range_succ,
      List.flatMap_append]
    have hpar : (!decide (n % 2 = 1)) = parity n := by
      unfold parity
      rcases Nat.mod_two_eq_zero_or_one n with hp | hp <;> simp [hp]
    have hmin : min (n : Int) k.launch.rowseg = n := by omega
    have hdst : (n : Int) < k.launch.rowseg - 1 := by omega
    have huv : min ((n / 2 : Nat) : Int) (k.launch.rowseg / 2 : Nat) = (n / 2 : Nat) := by omega
    have hloads (parityS : Bool) : k.loads batchId parityS (k.srcIndex (n + 1)) =
        k.loads batchId parityS fun _ => (n + 1 : Nat) := h.loads_srcIndex (by omega) parityS
    simp only [rowBody, hcount, hseg, hmin, if_pos hdst, hpar, huv, parity_succ, rowCode, loadRows,
      hloads]
    simp

theorem imageCode_eq (h : k.Fits) (hcore : coreId < k.coreDim) : k.imageCode batchId coreId =
    k.loadRows batchId 0 ++ [.sync] ++
      ((List.range' 0 (k.launch.rowseg - 1)).flatMap fun i =>
        k.rowCode batchId coreId i (k.loadRows batchId (i + 1) ++ [.sync])) ++
      k.rowCode batchId coreId (k.launch.rowseg - 1) [] := by
  have hpos := h.rowseg_pos
  have hcount := Launch.iterate_loopBody (h.coreRowSeg hcore) (k.launch.rowseg - 1)
  have hpar : (!decide ((k.launch.rowseg - 1) % 2 = 1)) = parity (k.launch.rowseg - 1) := by
    unfold parity
    rcases Nat.mod_two_eq_zero_or_one (k.launch.rowseg - 1) with hp | hp <;> simp [hp]
  have hdst : min ((k.launch.rowseg - 1 : Nat) : Int) k.launch.rowseg =
      (k.launch.rowseg - 1 : Nat) := by omega
  have huv : min (((k.launch.rowseg - 1) / 2 : Nat) : Int) (k.launch.rowseg / 2 : Nat) =
      ((k.launch.rowseg - 1) / 2 : Nat) := by omega
  rw [imageCode, if_neg (not_not_intro h.colseg), if_pos hpos.ne',
    h.iterate_rowBody hcore (Nat.le_refl _), hcount]
  simp only [lastBody, hpar, hdst, huv, rowCode, List.range_eq_range']
  simp

end Fits

/-! ## Accesses -/

theorem loadRows_not_sync {i : Nat} : ∀ x ∈ k.loadRows batchId i, x.isSync = false := by
  intro x hx
  obtain ⟨j, -, hx⟩ := List.mem_flatMap.mp hx
  rcases List.mem_cons.mp hx with rfl | hx
  · rfl
  · simp only [List.mem_flatMap, List.mem_map] at hx
    obtain ⟨line, -, x, -, rfl⟩ := hx
    rfl

theorem fetch_not_sync {parityS parityC : Bool} :
    ∀ x ∈ k.fetch coreId parityS parityC, x.isSync = false := by
  simp [fetch, Instr.isSync]

theorem pairUV_not_sync {parityC : Bool} {uvIndex : Int} :
    ∀ x ∈ k.pairUV batchId coreId parityC uvIndex, x.isSync = false := by
  intro x hx
  unfold pairUV at hx
  split at hx
  · simp only [List.mem_cons, List.not_mem_nil, or_false] at hx
    rcases hx with rfl | rfl <;> rfl
  · cases hx

theorem syncs_rowCode (i : Nat) (next : Code) :
    syncs (k.rowCode batchId coreId i next) = syncs next := by
  have hact : syncs ([.act (k.compute coreId (parity i))] : Code) = 0 := rfl
  have hstore : syncs ([.store (k.storeY batchId coreId i)] : Code) = 0 := rfl
  simp only [rowCode, syncs_append, syncs_eq_zero fetch_not_sync, syncs_eq_zero pairUV_not_sync, hact,
    hstore]
  omega

theorem Fits.syncs_imageCode (h : k.Fits) (hcore : coreId < k.coreDim) :
    syncs (k.imageCode batchId coreId) = k.launch.rowseg := by
  have hpos := h.rowseg_pos
  have hrow (i : Nat) : syncs (k.rowCode batchId coreId i
      (k.loadRows batchId (i + 1) ++ [.sync])) = 1 := by
    rw [syncs_rowCode, syncs_append, syncs_eq_zero loadRows_not_sync, syncs_sync, syncs_nil]
  rw [h.imageCode_eq hcore, syncs_append, syncs_append, syncs_append, syncs_flatMap hrow,
    syncs_rowCode, syncs_eq_zero loadRows_not_sync, syncs_sync, syncs_nil, List.length_range']
  omega

section Access

variable {m n i a : Nat} {v : UInt8} {put : UInt8 → Nram → Nram} {next : Code}

theorem write_notMem_fetch {parityS parityC : Bool} :
    .write a v ∉ k.fetch coreId parityS parityC := by
  simp [fetch]

theorem write_notMem_pairUV {parityC : Bool} {uvIndex : Int} :
    .write a v ∉ k.pairUV batchId coreId parityC uvIndex := by
  unfold pairUV
  split <;> simp

theorem read_notMem_pairUV {parityC : Bool} {uvIndex : Int} :
    .read a put ∉ k.pairUV batchId coreId parityC uvIndex := by
  unfold pairUV
  split <;> simp

theorem read_notMem_loadRows : .read a put ∉ k.loadRows batchId i := by
  simp [loadRows, loads, load]

theorem act_not_sync {f : Nram → Nram} : ∀ x ∈ ([.act f] : Code), x.isSync = false := by
  simp [Instr.isSync]

theorem store_not_sync {f : Nram → RowStore} : ∀ x ∈ ([.store f] : Code), x.isSync = false := by
  simp [Instr.isSync]

/-- The instructions of a row, by their phases. -/
theorem mem_rowCode {x : Instr Nat UInt8 Nram RowStore} (hact : ∀ f, x ≠ .act f)
    (hstore : ∀ f, x ≠ .store f) (hpair : x ∉ k.pairUV batchId coreId (parity i) (i / 2 : Nat)) :
    (m, x) ∈ tagged n (k.rowCode batchId coreId i next) ↔
      m = n ∧ x ∈ k.fetch coreId (parity i) (parity i) ∨ (m, x) ∈ tagged n next := by
  simp only [rowCode, mem_tagged_append, mem_tagged_of_not_sync fetch_not_sync,
    mem_tagged_of_not_sync act_not_sync, mem_tagged_of_not_sync store_not_sync,
    mem_tagged_of_not_sync pairUV_not_sync, syncs_append, syncs_eq_zero fetch_not_sync,
    syncs_eq_zero act_not_sync, List.mem_singleton, hact, hstore, hpair, and_false, or_false,
    Nat.add_zero]

theorem write_mem_rowCode : (m, .write a v) ∈ tagged n (k.rowCode batchId coreId i next) ↔
    (m, .write a v) ∈ tagged n next := by
  rw [mem_rowCode (by simp) (by simp) write_notMem_pairUV]
  simp [write_notMem_fetch]

theorem access_mem_loaded {x : Instr Nat UInt8 Nram RowStore} :
    (m, x) ∈ tagged n (k.loadRows batchId i ++ [.sync]) ↔ m = n ∧ x ∈ k.loadRows batchId i := by
  rw [mem_tagged_append, mem_tagged_of_not_sync loadRows_not_sync]
  simp [tagged]

namespace Fits

/-- The lines of the rows `i` are written in the phase `i` of an image. -/
theorem mem_writes (h : k.Fits) (hcore : coreId < k.coreDim) :
    (m, .write a v) ∈ tagged n (k.imageCode batchId coreId) ↔
      ∃ i < k.launch.rowseg, m = n + i ∧ .write a v ∈ k.loadRows batchId i := by
  have hpos := h.rowseg_pos
  have hrow (i : Nat) : syncs (k.rowCode batchId coreId i
      (k.loadRows batchId (i + 1) ++ [.sync])) = 1 := by
    rw [syncs_rowCode, syncs_append, syncs_eq_zero loadRows_not_sync, syncs_sync, syncs_nil]
  rw [h.imageCode_eq hcore, mem_tagged_append, mem_tagged_append, mem_tagged_flatMap hrow,
    write_mem_rowCode, access_mem_loaded]
  simp only [write_mem_rowCode, access_mem_loaded,
    syncs_append, syncs_eq_zero loadRows_not_sync, syncs_sync, syncs_nil, Nat.zero_add, Nat.mul_one]
  constructor
  · rintro ((⟨rfl, hx⟩ | ⟨q, hq, rfl, hx⟩) | hx)
    · exact ⟨0, hpos, rfl, hx⟩
    · exact ⟨q + 1, by omega, by omega, hx⟩
    · simp [tagged] at hx
  · rintro ⟨i, hi, rfl, hx⟩
    cases i with
    | zero => exact .inl (.inl ⟨rfl, hx⟩)
    | succ i => exact .inl (.inr ⟨i, by omega, by omega, hx⟩)

/-- The lines of the row `i` are read in the phase behind that. -/
theorem mem_reads (h : k.Fits) (hcore : coreId < k.coreDim) :
    (m, .read a put) ∈ tagged n (k.imageCode batchId coreId) ↔
      ∃ i < k.launch.rowseg, m = n + i + 1 ∧ .read a put ∈ k.fetch coreId (parity i) (parity i) := by
  have hpos := h.rowseg_pos
  have hrow (i : Nat) : syncs (k.rowCode batchId coreId i
      (k.loadRows batchId (i + 1) ++ [.sync])) = 1 := by
    rw [syncs_rowCode, syncs_append, syncs_eq_zero loadRows_not_sync, syncs_sync, syncs_nil]
  rw [h.imageCode_eq hcore, mem_tagged_append, mem_tagged_append, mem_tagged_flatMap hrow,
    mem_rowCode (by simp) (by simp) read_notMem_pairUV, access_mem_loaded]
  simp only [mem_rowCode (x := .read a put) (by simp) (by simp) read_notMem_pairUV,
    access_mem_loaded, syncs_append,
    syncs_flatMap hrow, List.length_range', read_notMem_loadRows, and_false, or_false, false_or,
    syncs_eq_zero loadRows_not_sync, syncs_sync, syncs_nil, Nat.zero_add, Nat.mul_one]
  constructor
  · rintro (⟨q, hq, rfl, hx⟩ | ⟨rfl, hx⟩ | hx)
    · exact ⟨q, by omega, by omega, hx⟩
    · exact ⟨_, by omega, by omega, hx⟩
    · simp [tagged] at hx
  · rintro ⟨i, hi, rfl, hx⟩
    rcases Nat.lt_or_ge i (k.launch.rowseg - 1) with hlt | hge
    · exact .inl ⟨i, hlt, by omega, hx⟩
    · obtain rfl : i = k.launch.rowseg - 1 := by omega
      exact .inr (.inl ⟨by omega, hx⟩)

end Fits

/-! ## The SRAM -/

/-- The byte of a half of the SRAM, for the rows `i` of all cores. -/
def slotByte (k : Kernel) (batchId i r : Nat) : UInt8 :=
  k.lineByte batchId (k.py i (r / (4 * k.srcDealNum))) (r % (4 * k.srcDealNum) / k.srcDealNum)
    (r % k.srcDealNum)

/-- A place is in one row only. -/
theorem row_col_inj {w r r' x x' : Nat} (hx : x < w) (hx' : x' < w)
    (h : r * w + x = r' * w + x') : r = r' ∧ x = x' := by
  have hpos : 0 < w := Nat.zero_lt_of_lt hx
  have hrow : r = r' := by
    calc r = (w * r + x) / w := by rw [Nat.mul_add_div hpos, Nat.div_eq_of_lt hx, Nat.add_zero]
      _ = (w * r' + x') / w := by rw [Nat.mul_comm, h, Nat.mul_comm]
      _ = r' := by rw [Nat.mul_add_div hpos, Nat.div_eq_of_lt hx', Nat.add_zero]
  subst hrow
  exact ⟨rfl, Nat.add_left_cancel h⟩

/-- The place of a byte of a line of a core. -/
theorem slot_div_mod {w j line x : Nat} (hline : line < 4) (hx : x < w) :
    (j * (4 * w) + line * w + x) / (4 * w) = j ∧
      (j * (4 * w) + line * w + x) % (4 * w) / w = line ∧
      (j * (4 * w) + line * w + x) % w = x := by
  have hpos : 0 < w := Nat.zero_lt_of_lt hx
  have hlt : line * w + x < 4 * w := by
    have hmul := Nat.mul_le_mul_right w (Nat.le_of_lt_succ hline)
    omega
  have heq : j * (4 * w) + line * w + x = 4 * w * j + (line * w + x) := by ring
  have heq' : j * (4 * w) + line * w + x = w * (4 * j + line) + x := by ring
  refine ⟨?_, ?_, ?_⟩
  · rw [heq, Nat.mul_add_div (by omega), Nat.div_eq_of_lt hlt, Nat.add_zero]
  · rw [heq, Nat.mul_add_mod, Nat.mod_eq_of_lt hlt, Nat.mul_comm line, Nat.mul_add_div hpos,
      Nat.div_eq_of_lt hx, Nat.add_zero]
  · rw [heq', Nat.mul_add_mod, Nat.mod_eq_of_lt hx]

theorem parity_toNat (i : Nat) : (parity i).toNat = (i + 1) % 2 := by
  unfold parity
  rcases Nat.mod_two_eq_zero_or_one i with h | h <;> simp [h] <;> omega

theorem write_mem_loadRows : .write a v ∈ k.loadRows batchId i ↔
    ∃ r < k.coreDim * (4 * k.srcDealNum),
      a = (i + 1) % 2 * maxSegmentSmHf + r ∧ v = k.slotByte batchId i r := by
  simp only [loadRows, loads, load, parity_toNat, List.mem_flatMap, List.mem_range, List.mem_cons,
    List.mem_map, reduceCtorEq, false_or, Instr.write.injEq]
  constructor
  · rintro ⟨j, hj, line, hline, x, hx, rfl, rfl⟩
    obtain ⟨hdiv, hmod, hcol⟩ := slot_div_mod (j := j) hline hx
    refine ⟨j * (4 * k.srcDealNum) + line * k.srcDealNum + x, ?_, by ring, ?_⟩
    · have hmul := Nat.mul_le_mul_right (4 * k.srcDealNum) (Nat.succ_le_of_lt hj)
      have hline' := Nat.mul_le_mul_right k.srcDealNum (Nat.le_of_lt_succ hline)
      rw [Nat.succ_mul] at hmul
      omega
    · rw [slotByte, hdiv, hmod, hcol]
  · rintro ⟨r, hr, rfl, rfl⟩
    have hpos : 0 < k.srcDealNum := by
      refine Nat.pos_of_ne_zero fun hzero => ?_
      simp [hzero] at hr
    have hrest := Nat.mod_lt r (show 0 < 4 * k.srcDealNum by omega)
    have hdiv := Nat.div_add_mod r (4 * k.srcDealNum)
    have hdiv' := Nat.div_add_mod (r % (4 * k.srcDealNum)) k.srcDealNum
    rw [Nat.mod_mul_left_mod] at hdiv'
    refine ⟨r / (4 * k.srcDealNum), Nat.div_lt_of_lt_mul (by rwa [Nat.mul_comm]),
      r % (4 * k.srcDealNum) / k.srcDealNum, Nat.div_lt_of_lt_mul (by omega), r % k.srcDealNum,
      Nat.mod_lt _ hpos, ?_, rfl⟩
    rw [Nat.mul_comm (r / _), Nat.mul_comm (r % _ / _)]
    omega

theorem read_mem_fetch {parityC : Bool} (h : .read a put ∈ k.fetch coreId (parity i) parityC) :
    ∃ x < 4 * k.srcDealNum, a = (i + 1) % 2 * maxSegmentSmHf + coreId * (4 * k.srcDealNum) + x := by
  simp only [fetch, parity_toNat, List.mem_map, List.mem_range, Instr.read.injEq] at h
  obtain ⟨x, hx, rfl, -⟩ := h
  exact ⟨x, hx, by ring⟩

end Access

namespace Fits

variable {clusterId m a : Nat} {v : UInt8} {put : UInt8 → Nram → Nram}

theorem coreDim_pos (h : k.Fits) : 0 < k.coreDim := by
  refine Nat.pos_of_ne_zero fun hzero => ?_
  have hdvd := h.dvd
  rw [hzero, Nat.mul_zero, Nat.zero_dvd] at hdvd
  exact h.dRow_pos.ne' hdvd

theorem write_mem_coreCode (h : k.Fits) (hcore : coreId < k.coreDim) :
    (m, .write a v) ∈ tagged 0 (k.coreCode clusterId coreId) ↔
      ∃ q < k.batchNum clusterId, ∃ i < k.launch.rowseg, m = q * k.launch.rowseg + i ∧
        ∃ r < k.coreDim * (4 * k.srcDealNum), a = (i + 1) % 2 * maxSegmentSmHf + r ∧
          v = k.slotByte (k.start clusterId + q) i r := by
  rw [coreCode, tagged_cons rfl, List.mem_cons,
    mem_tagged_flatMap fun _ => h.syncs_imageCode hcore]
  simp only [h.mem_writes hcore, write_mem_loadRows, Prod.mk.injEq, reduceCtorEq, and_false, false_or,
    Nat.zero_add]

theorem read_mem_coreCode (h : k.Fits) (hcore : coreId < k.coreDim)
    (hr : (m, .read a put) ∈ tagged 0 (k.coreCode clusterId coreId)) :
    ∃ q i, m = q * k.launch.rowseg + i + 1 ∧
      ∃ r < k.coreDim * (4 * k.srcDealNum), a = (i + 1) % 2 * maxSegmentSmHf + r := by
  rw [coreCode, tagged_cons rfl, List.mem_cons,
    mem_tagged_flatMap fun _ => h.syncs_imageCode hcore] at hr
  simp only [h.mem_reads hcore, Prod.mk.injEq, reduceCtorEq, and_false, false_or,
    Nat.zero_add] at hr
  obtain ⟨q, -, i, -, rfl, hr⟩ := hr
  obtain ⟨x, hx, rfl⟩ := read_mem_fetch hr
  have hmul := Nat.mul_le_mul_right (4 * k.srcDealNum) (Nat.succ_le_of_lt hcore)
  rw [Nat.succ_mul] at hmul
  exact ⟨q, i, rfl, coreId * (4 * k.srcDealNum) + x, by omega, by omega⟩

/-- **The cores do not race**: the rows of an image are loaded to one half of the SRAM and to the other
one in turn, and begin with the same half, since their number is even. -/
theorem raceFree (h : k.Fits) (clusterId : Nat) :
    RaceFree fun coreId : Fin k.coreDim => k.coreCode clusterId coreId where
  read {c d n a put v} hr hw := by
    obtain ⟨q, i, hn, r, hr, ha⟩ := h.read_mem_coreCode c.isLt hr
    obtain ⟨q', -, i', -, hn', r', hr', ha', -⟩ := (h.write_mem_coreCode d.isLt).mp hw
    obtain ⟨half, hhalf⟩ := Nat.dvd_of_mod_eq_zero k.launch.rowseg_even
    have hsram := h.sram
    rw [hhalf, Nat.mul_left_comm] at hn hn'
    unfold maxSegmentSmHf at hsram ha ha'
    omega
  write {c d n a v w} hv hw := by
    obtain ⟨q, -, i, hi, hn, r, hr, ha, rfl⟩ := (h.write_mem_coreCode c.isLt).mp hv
    obtain ⟨q', -, i', hi', hn', r', hr', ha', rfl⟩ := (h.write_mem_coreCode d.isLt).mp hw
    obtain ⟨rfl, rfl⟩ := row_col_inj hi hi' (hn.symm.trans hn')
    have hsram := h.sram
    obtain rfl : r = r' := by omega
    rfl

/-- What the SRAM holds where the rows `i` of an image are read. -/
theorem content_slot (h : k.Fits) {sram : Nat → UInt8} {q i r : Nat}
    (hq : q < k.batchNum clusterId) (hi : i < k.launch.rowseg)
    (hr : r < k.coreDim * (4 * k.srcDealNum)) :
    content sram (fun coreId : Fin k.coreDim => k.coreCode clusterId coreId)
      (q * k.launch.rowseg + i + 1) ((i + 1) % 2 * maxSegmentSmHf + r) =
        k.slotByte (k.start clusterId + q) i r :=
  content_of_write (c := ⟨0, h.coreDim_pos⟩) (h.raceFree clusterId) <|
    (h.write_mem_coreCode h.coreDim_pos).mpr ⟨q, hq, i, hi, rfl, r, hr, rfl, rfl⟩

theorem syncs_coreCode (h : k.Fits) (hcore : coreId < k.coreDim) :
    syncs (k.coreCode clusterId coreId) = k.batchNum clusterId * k.launch.rowseg := by
  rw [coreCode, syncs_cons rfl, syncs_flatMap fun _ => h.syncs_imageCode hcore, List.length_range']

end Fits

end CambriconGst.Easybang.ResizeYuv420sp.Kernel
