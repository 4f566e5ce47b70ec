import CambriconGst.Properties.ResizeYuv420spCode
import CambriconGst.Properties.ResizeYuv420spLine

/-!
# What a core stores

* `Kernel.value`, `Kernel.pixel`: what the bytes of the picture are
* `Kernel.row_runs`, `Kernel.image_runs`: a core alone, row by row
* `Kernel.core_stores`: the rows of the picture that it puts out
-/

namespace CambriconGst.Easybang.ResizeYuv420sp.Kernel

open Lib Lib.Barrier

variable {k : Kernel} {batchId coreId : Nat}

/-! ## The picture -/

/-- The position of a row of the destination. -/
def rowPos (k : Kernel) (r : Nat) : Int :=
  position k.scaleY r

/-- `wy0` and `wy1` of a row. -/
def rowWeight0 (k : Kernel) (r : Nat) : ℚ :=
  k.weight0 (k.fy (k.rowPos r))

def rowWeight1 (k : Kernel) (r : Nat) : ℚ :=
  k.weight1 (k.fy (k.rowPos r))

/-- The bytes of the lines of the source that a row is taken from. -/
def rowByte (k : Kernel) (batchId r line x : Nat) : ℚ :=
  (k.lineByte batchId (k.rowPos r) line x).toNat

def luma (k : Kernel) (batchId r x : Nat) : ℚ :=
  k.blend (k.rowWeight0 r) (k.rowWeight1 r) (k.blendX (k.rowByte batchId r 0) x)
    (k.blendX (k.rowByte batchId r 1) x)

/-- A chroma, for a source where each value counts for two columns. -/
def chromaAt (k : Kernel) (batchId p r x : Nat) : ℚ :=
  k.blend (k.rowWeight0 r) (k.rowWeight1 r)
    (k.blendX (fun i => k.rowByte batchId r 2 (2 * (i / 2) + p)) x)
    (k.blendX (fun i => k.rowByte batchId r 3 (2 * (i / 2) + p)) x)

/-- What the bytes of the destination are taken from: the chroma is the mean of two rows and two
columns. -/
def value (k : Kernel) (batchId : Nat) : Plane → Nat → Nat → ℚ
  | .y, r, x => k.luma batchId r x
  | .uv, r, x => k.mean (fun j => k.half.round
      (k.chromaAt batchId (x % 2) (2 * r) j + k.chromaAt batchId (x % 2) (2 * r + 1) j)) (x / 2)

/-- The bytes of the destination. -/
def pixel (k : Kernel) (batchId : Nat) (plane : Plane) (r x : Nat) : UInt8 :=
  k.uchar (k.value batchId plane r x)

/-- The columns of a plane: where the width is odd, the last chroma has no right neighbour. -/
def InRow (k : Kernel) : Plane → Nat → Prop
  | .y, x => x < k.dCol
  | .uv, x => 2 * (x / 2) + 1 < k.dCol

def rows (k : Kernel) : Plane → Nat
  | .y => k.dRow
  | .uv => k.dRow / 2

/-! ## What is put out -/

/-- The row `r` of the picture. -/
structure RowOf (k : Kernel) (o : RowStore) (r : Nat) : Prop where
  offset : o.offset = r * k.dCol
  byte (x : Nat) (hx : k.InRow o.plane x) : o.byte x = k.pixel o.batchId o.plane r x

/-- The rows in `S` of the picture, and no others. -/
structure Stores (k : Kernel) (os : List RowStore) (S : Plane → Nat → Nat → Prop) : Prop where
  right : ∀ o ∈ os, ∃ r, S o.plane o.batchId r ∧ k.RowOf o r
  covers : ∀ plane b r, S plane b r →
    ∃ o ∈ os, o.plane = plane ∧ o.batchId = b ∧ o.offset = r * k.dCol

theorem Stores.append {os os' : List RowStore} {S S' : Plane → Nat → Nat → Prop}
    (h : k.Stores os S) (h' : k.Stores os' S') :
    k.Stores (os ++ os') fun plane b r => S plane b r ∨ S' plane b r where
  right o ho := by
    rcases List.mem_append.mp ho with ho | ho
    · obtain ⟨r, hr, hrow⟩ := h.right o ho
      exact ⟨r, .inl hr, hrow⟩
    · obtain ⟨r, hr, hrow⟩ := h'.right o ho
      exact ⟨r, .inr hr, hrow⟩
  covers plane b r hS := by
    rcases hS with hS | hS
    · obtain ⟨o, ho, heq⟩ := h.covers plane b r hS
      exact ⟨o, List.mem_append_left _ ho, heq⟩
    · obtain ⟨o, ho, heq⟩ := h'.covers plane b r hS
      exact ⟨o, List.mem_append_right _ ho, heq⟩

theorem Stores.congr {os : List RowStore} {S S' : Plane → Nat → Nat → Prop} (h : k.Stores os S)
    (hS : ∀ plane b r, S' plane b r ↔ S plane b r) : k.Stores os S' where
  right o ho := by
    obtain ⟨r, hr, hrow⟩ := h.right o ho
    exact ⟨r, (hS _ _ _).mpr hr, hrow⟩
  covers plane b r hr := h.covers plane b r ((hS _ _ _).mp hr)

/-- A core puts out rows of the picture. -/
def Puts (k : Kernel) (p p' : Solo Nram RowStore) (S : Plane → Nat → Nat → Prop) : Prop :=
  ∃ os, p'.out = p.out ++ os ∧ k.Stores os S

theorem Puts.trans {p p' p'' : Solo Nram RowStore} {S S' : Plane → Nat → Nat → Prop}
    (h : k.Puts p p' S) (h' : k.Puts p' p'' S') :
    k.Puts p p'' fun plane b r => S plane b r ∨ S' plane b r := by
  obtain ⟨os, hos, hS⟩ := h
  obtain ⟨os', hos', hS'⟩ := h'
  exact ⟨os ++ os', by rw [hos', hos, List.append_assoc], hS.append hS'⟩

/-! ## Loads and fetches -/

section Solo

variable {memory : Nat → Nat → UInt8} {p : Solo Nram RowStore}

/-- The weights for the rows `i` of all cores. -/
def withWeights (k : Kernel) (i : Nat) (s : Nram) : Nram :=
  { s with
    wy0 := writeCells s.wy0 ((List.range k.coreDim).map fun j => (j, k.weight0 (k.fy (k.py i j))))
    wy1 := writeCells s.wy1 ((List.range k.coreDim).map fun j => (j, k.weight1 (k.fy (k.py i j)))) }

theorem writeCells_range {V : Type} {n j : Nat} {f : Nat → V} {buffer : Nat → V} (hj : j < n) :
    writeCells buffer ((List.range n).map fun j => (j, f j)) j = f j := by
  refine writeCells_of_mem (List.mem_map_of_mem (List.mem_range.mpr hj)) fun w hw heq => ?_
  obtain ⟨j', -, rfl⟩ := List.mem_map.mp hw
  rw [← heq]

/-- What is loaded changes the weights only. -/
theorem loadRows_runs (i : Nat) : p.runs memory (k.loadRows batchId i) =
    { p with st := k.withWeights i p.st } := by
  have hload (j : Nat) (st : Nram) :
      Solo.runs memory { p with st } (k.load batchId (parity i) j (k.py i j)) = { p with st := { st with
        wy0 := Function.update st.wy0 j (k.weight0 (k.fy (k.py i j)))
        wy1 := Function.update st.wy1 j (k.weight1 (k.fy (k.py i j))) } } := by
    rw [load, Solo.runs_cons, Solo.runs_flatMap (g := fun _ st => st) (List.range 4)
      fun line _ st => Solo.runs_writes ..]
    simp [Solo.exec, Instr.isSync, Instr.run, Instr.puts]
  have hfold (l : List Nat) (s : Nram) : l.foldl (fun s j => { s with
        wy0 := Function.update s.wy0 j (k.weight0 (k.fy (k.py i j)))
        wy1 := Function.update s.wy1 j (k.weight1 (k.fy (k.py i j))) }) s = { s with
      wy0 := writeCells s.wy0 (l.map fun j => (j, k.weight0 (k.fy (k.py i j))))
      wy1 := writeCells s.wy1 (l.map fun j => (j, k.weight1 (k.fy (k.py i j)))) } := by
    induction l generalizing s with
    | nil => rfl
    | cons j l ih =>
      rw [List.foldl_cons, ih]
      rfl
  rw [loadRows, loads, Solo.runs_flatMap _ fun j _ st => hload j st, hfold, withWeights]

/-- What is fetched. -/
theorem fetch_runs (parityS parityC : Bool) : ∃ src,
    p.runs memory (k.fetch coreId parityS parityC) = { p with st := { p.st with src } } ∧
      ∀ i < 4 * k.srcDealNum, src (parityC.toNat * 4 * maxSegmentHf + i) =
        memory p.phase (parityS.toNat * maxSegmentSmHf + coreId * 4 * k.srcDealNum + i) := by
  have hrun (l : List Nat) (p : Solo Nram RowStore) (f g : Nat → Nat) :
      p.runs memory (l.map fun i => (.read (f i) fun v s =>
        { s with src := Function.update s.src (g i) v } : Instr Nat UInt8 Nram RowStore)) =
      { p with st := { p.st with
        src := writeCells p.st.src (l.map fun i => (g i, memory p.phase (f i))) } } := by
    induction l generalizing p with
    | nil => rfl
    | cons i l ih =>
      rw [List.map_cons, Solo.runs_cons, ih]
      simp [Solo.exec, Instr.isSync, Instr.run, Instr.puts, writeCells]
  refine ⟨_, hrun _ p _ _, fun i hi => ?_⟩
  refine writeCells_of_mem (List.mem_map.mpr ⟨i, List.mem_range.mpr hi, rfl⟩) fun w hw heq => ?_
  obtain ⟨i', -, rfl⟩ := List.mem_map.mp hw
  obtain rfl : i' = i := by
    dsimp only at heq
    omega
  rfl

/-- A row, with what the core has computed when the loads for the next one are done. -/
theorem rowCode_runs {next : Code} {n i : Nat} {g : Nram → Nram}
    (hnext : ∀ p : Solo Nram RowStore, p.runs memory next = ⟨p.phase + n, g p.st, p.out⟩) :
    ∃ src, (∀ x < 4 * k.srcDealNum, src ((parity i).toNat * 4 * maxSegmentHf + x) =
        memory p.phase ((parity i).toNat * maxSegmentSmHf + coreId * 4 * k.srcDealNum + x)) ∧
      ∀ t, t = g (k.compute coreId (parity i) { p.st with src }) →
        p.runs memory (k.rowCode batchId coreId i next) = ⟨p.phase + n,
          if parity i then t else k.computeUV t,
          p.out ++ k.storeY batchId coreId i t ::
            if parity i then [] else [k.storeUV batchId coreId (i / 2 : Nat) (k.computeUV t)]⟩ := by
  obtain ⟨src, hfetch, hsrc⟩ := @fetch_runs k coreId memory p (parity i) (parity i)
  refine ⟨src, hsrc, fun t ht => ?_⟩
  subst ht
  rw [rowCode, Solo.runs_append, Solo.runs_append, Solo.runs_append, Solo.runs_append, hfetch,
    hnext]
  cases hpar : parity i <;> simp [pairUV, Solo.exec, Instr.isSync, Instr.run, Instr.puts]

end Solo

/-! ## A row -/

section Row

variable {i x p : Nat} {s t : Nram}

theorem py_eq (k : Kernel) (i c : Nat) : k.py i c = k.rowPos (c * k.launch.rowseg + i) := by
  unfold py rowPos position
  push_cast
  ring

/-- What a core has before the row `i` of its share: the weights and, where it is the second of two,
the chroma of the first one. -/
structure Before (k : Kernel) (batchId coreId i : Nat) (s : Nram) : Prop where
  weightX : k.HasWeights s.weightX
  wy0 : s.wy0 coreId = k.rowWeight0 (coreId * k.launch.rowseg + i)
  wy1 : s.wy1 coreId = k.rowWeight1 (coreId * k.launch.rowseg + i)
  suR (hpar : parity i = false) : ∀ x < k.dCol,
    s.suR x = k.chromaAt batchId 1 (coreId * k.launch.rowseg + (i - 1)) x
  svR (hpar : parity i = false) : ∀ x < k.dCol,
    s.svR x = k.chromaAt batchId 0 (coreId * k.launch.rowseg + (i - 1)) x

/-- The lines of the row are in the NRAM. -/
def Fetched (k : Kernel) (batchId coreId i : Nat) (s : Nram) : Prop :=
  ∀ line < 4, ∀ x < k.srcDealNum,
    k.srcByte s (parity i) line x = k.rowByte batchId (coreId * k.launch.rowseg + i) line x

theorem fetched_of_slots (hcore : coreId < k.coreDim) {memory : Nat → UInt8}
    (hmem : ∀ r < k.coreDim * (4 * k.srcDealNum),
      memory ((i + 1) % 2 * maxSegmentSmHf + r) = k.slotByte batchId i r) {src : Nat → UInt8}
    (hsrc : ∀ x < 4 * k.srcDealNum, src ((parity i).toNat * 4 * maxSegmentHf + x) =
      memory ((parity i).toNat * maxSegmentSmHf + coreId * 4 * k.srcDealNum + x)) :
    k.Fetched batchId coreId i { s with src } := by
  intro line hline x hx
  obtain ⟨hdiv, hmod, hcol⟩ := slot_div_mod (j := coreId) hline hx
  have hmul := Nat.mul_le_mul_right (4 * k.srcDealNum) (Nat.succ_le_of_lt hcore)
  have hmul' := Nat.mul_le_mul_right k.srcDealNum (Nat.le_of_lt_succ hline)
  rw [Nat.succ_mul] at hmul
  have hplace : (parity i).toNat * maxSegmentSmHf + coreId * 4 * k.srcDealNum +
      (line * k.srcDealNum + x) = (i + 1) % 2 * maxSegmentSmHf +
        (coreId * (4 * k.srcDealNum) + line * k.srcDealNum + x) := by
    rw [parity_toNat]
    ring
  rw [srcByte, rowByte]
  dsimp only
  rw [hsrc _ (by omega), hplace, hmem _ (by omega), slotByte, hdiv, hmod, hcol, py_eq]

/-- What a core has computed for a row. -/
structure Computed (k : Kernel) (batchId coreId i : Nat) (s t : Nram) : Prop where
  weightX : k.HasWeights t.weightX
  sLine : ∀ x < k.dCol, t.sLine x = k.luma batchId (coreId * k.launch.rowseg + i) x
  sUV : ∀ p < 2, ∀ x < k.dCol,
    t.sUV ((uvPlace p).1 + x) = k.chromaAt batchId p (coreId * k.launch.rowseg + i) x
  kept (hpar : parity i = true) : ∀ x < k.dCol,
    t.suR x = t.sUV x ∧ t.svR x = t.sUV (sV0 + x)
  second (hpar : parity i = false) : t.suR = s.suR ∧ t.svR = s.svR

theorem Before.compute (hk : k.Fits) (hs : Shrinks k.sCol k.dCol)
    (h : k.Before batchId coreId i s) (hf : k.Fetched batchId coreId i s) :
    k.Computed batchId coreId i s (k.compute coreId (parity i) s) where
  weightX := by
    have hsame : SameWeights s (k.compute coreId (parity i) s) := sameWeights_compute
    rw [hsame.weightX]
    exact h.weightX
  sLine x hx := by
    have hn := le_srcDealNum hk.colseg
    rw [compute_sLine hk.colseg hs h.weightX hx, h.wy0, h.wy1, luma,
      blendX_congr hs (fun i hi => hf 0 (by decide) i (hi.trans_le hn)) hx,
      blendX_congr hs (fun i hi => hf 1 (by decide) i (hi.trans_le hn)) hx]
  sUV p hp x hx := by
    have hn := le_srcDealNum hk.colseg
    have hmod := k.srcDealNum_mod
    have hline {line : Nat} (hline : line < 4) : k.blendX (k.srcChroma s (parity i) line p) x =
        k.blendX (fun j => k.rowByte batchId (coreId * k.launch.rowseg + i) line (2 * (j / 2) + p)) x :=
      blendX_congr hs (fun j hj => hf line hline _ (by omega)) hx
    rw [compute_sUV hk.colseg hs h.weightX hp hx, h.wy0, h.wy1, chromaAt, hline (by decide),
      hline (by decide)]
  kept hpar x hx := by
    rw [hpar]
    exact compute_first hk.colseg hs hx
  second hpar := by
    rw [hpar]
    exact compute_second

theorem Computed.of_loaded (h : k.Computed batchId coreId i s t) (n : Nat) :
    k.Computed batchId coreId i s (k.withWeights n t) :=
  ⟨h.weightX, h.sLine, h.sUV, h.kept, h.second⟩

/-- The rows of a core are rows of the picture. -/
theorem row_lt (hk : k.Fits) (hcore : coreId < k.coreDim) {i : Nat} (hi : i < k.launch.rowseg) :
    coreId * k.launch.rowseg + i < k.dRow := by
  have hmul := Nat.mul_le_mul_right k.launch.rowseg (Nat.succ_le_of_lt hcore)
  rw [Nat.succ_mul, hk.rowseg_mul] at hmul
  omega

/-- 32 bits are enough for where a row of the picture begins. -/
theorem uint32_offset (hk : k.Fits) {r : Nat} (hr : r ≤ k.dRow) :
    uint32 ((r : Int) * k.dCol) = r * k.dCol := by
  have hle : r * k.dCol ≤ k.dRow * k.dCol := Nat.mul_le_mul_right _ hr
  have hlt := hk.ints.dst
  rw [← Int.natCast_mul, Launch.uint32_natCast (by omega)]

theorem storeY_offset (hk : k.Fits) (hcore : coreId < k.coreDim) (hi : i < k.launch.rowseg) :
    (k.storeY batchId coreId i t).offset = (coreId * k.launch.rowseg + i : Nat) * k.dCol := by
  have hrow : (k.launch.yStore coreId i).row = (coreId * k.launch.rowseg + i : Nat) := by
    simp
  rw [← uint32_offset hk (row_lt hk hcore hi).le, ← hrow]
  exact k.launch.yStore_offset coreId i

theorem storeUV_offset (hk : k.Fits) (hcore : coreId < k.coreDim) (hi : i < k.launch.rowseg) :
    (k.storeUV batchId coreId (i / 2 : Nat) t).offset =
      (coreId * (k.launch.rowseg / 2) + i / 2 : Nat) * k.dCol := by
  have hlt := row_lt hk hcore hi
  have hhalf : coreId * (k.launch.rowseg / 2) ≤ coreId * k.launch.rowseg :=
    Nat.mul_le_mul_left _ (Nat.div_le_self _ _)
  have hrow : (k.launch.uvStore coreId (i / 2 : Nat)).row =
      (coreId * (k.launch.rowseg / 2) + i / 2 : Nat) := by
    simp
  rw [← uint32_offset hk (by omega), ← hrow]
  exact k.launch.uvStore_offset coreId (i / 2 : Nat)

/-- The row of luma is right. -/
theorem Computed.right_y (hk : k.Fits) (hcore : coreId < k.coreDim) (hi : i < k.launch.rowseg)
    (h : k.Computed batchId coreId i s t) :
    k.RowOf (k.storeY batchId coreId i t) (coreId * k.launch.rowseg + i) := by
  refine ⟨storeY_offset hk hcore hi, fun x hx => ?_⟩
  · simp only [storeY, pixel, value]
    rw [h.sLine x hx]

theorem mean_congr {f g : Nat → ℚ} {q : Nat} (h : f (2 * q) = g (2 * q))
    (h' : f (2 * q + 1) = g (2 * q + 1)) : k.mean f q = k.mean g q := by
  rw [mean, mean, h, h']

/-- The sums are of the chroma of this row and of the one before. -/
theorem Computed.pairSum_eq (h : k.Computed batchId coreId i s t) (hb : k.Before batchId coreId i s)
    (hpar : parity i = false) (hp : p < 2) (hx : x < k.dCol) :
    k.pairSum t p x = k.half.round
      (k.chromaAt batchId p (coreId * k.launch.rowseg + (i - 1)) x +
        k.chromaAt batchId p (coreId * k.launch.rowseg + i) x) := by
  obtain ⟨hsuR, hsvR⟩ := h.second hpar
  have hsUV := h.sUV p hp x hx
  rcases (by omega : p = 0 ∨ p = 1) with rfl | rfl
  · simp only [uvPlace, Nat.zero_ne_one, if_false] at hsUV
    simp only [pairSum, Nat.zero_ne_one, if_false, hsvR, hb.svR hpar x hx, hsUV]
  · simp only [uvPlace, if_true, Nat.zero_add] at hsUV
    simp only [pairSum, if_true, hsuR, hb.suR hpar x hx, hsUV]

/-- The row of chroma that an odd row of the share ends. -/
theorem uvRow_eq (k : Kernel) (c : Nat) {i : Nat} (hpar : parity i = false) :
    2 * (c * (k.launch.rowseg / 2) + i / 2) = c * k.launch.rowseg + (i - 1) ∧
      2 * (c * (k.launch.rowseg / 2) + i / 2) + 1 = c * k.launch.rowseg + i := by
  have hodd : i % 2 = 1 := by simpa [parity] using hpar
  have hhalf : c * (k.launch.rowseg / 2) * 2 = c * k.launch.rowseg := by
    rw [Nat.mul_assoc, Nat.div_mul_cancel (Nat.dvd_of_mod_eq_zero k.launch.rowseg_even)]
  omega

theorem Computed.right_uv (hk : k.Fits) (hs : Shrinks k.sCol k.dCol) (hcore : coreId < k.coreDim)
    (hi : i < k.launch.rowseg) (h : k.Computed batchId coreId i s t) (hb : k.Before batchId coreId i s)
    (hpar : parity i = false) :
    k.RowOf (k.storeUV batchId coreId (i / 2 : Nat) (k.computeUV t))
      (coreId * (k.launch.rowseg / 2) + i / 2) := by
  obtain ⟨hrow, hrow'⟩ := uvRow_eq k coreId hpar
  refine ⟨storeUV_offset hk hcore hi, fun x hx => ?_⟩
  · have hx' : 2 * (x / 2) + 1 < k.dCol := hx
    have hp : x % 2 < 2 := Nat.mod_lt x (by decide)
    simp only [storeUV, pixel, value]
    rw [hrow', hrow]
    congr 1
    calc (k.computeUV t).suR x = (k.computeUV t).suR (2 * (x / 2) + x % 2) := by
          rw [Nat.div_add_mod]
      _ = k.mean (k.pairSum t (x % 2)) (x / 2) := computeUV_eq hk.colseg hs hp hx'
      _ = _ := mean_congr (h.pairSum_eq hb hpar hp (by omega)) (h.pairSum_eq hb hpar hp hx')

theorem withWeights_wy0 (hcore : coreId < k.coreDim) (i : Nat) (s : Nram) :
    (k.withWeights i s).wy0 coreId = k.rowWeight0 (coreId * k.launch.rowseg + i) := by
  refine (writeCells_range hcore).trans ?_
  rw [py_eq, rowWeight0]

theorem withWeights_wy1 (hcore : coreId < k.coreDim) (i : Nat) (s : Nram) :
    (k.withWeights i s).wy1 coreId = k.rowWeight1 (coreId * k.launch.rowseg + i) := by
  refine (writeCells_range hcore).trans ?_
  rw [py_eq, rowWeight1]

/-- What a core has behind a row, while it has loaded the weights for the next one. -/
theorem Computed.before (hcore : coreId < k.coreDim) (h : k.Computed batchId coreId i s t) :
    k.Before batchId coreId (i + 1)
      (if parity i then k.withWeights (i + 1) t else k.computeUV (k.withWeights (i + 1) t)) := by
  have hwy0 := withWeights_wy0 hcore (i + 1) t
  have hwy1 := withWeights_wy1 hcore (i + 1) t
  cases hpar : parity i with
  | true =>
    refine ⟨h.weightX, hwy0, hwy1, fun _ x hx => ?_, fun _ x hx => ?_⟩
    · have hsUV := h.sUV 1 (by decide) x hx
      simp only [uvPlace, if_true, Nat.zero_add] at hsUV
      exact (h.kept hpar x hx).1.trans hsUV
    · exact (h.kept hpar x hx).2.trans (h.sUV 0 (by decide) x hx)
  | false =>
    have hnext : parity (i + 1) = true := by rw [parity_succ, hpar, Bool.not_false]
    obtain ⟨hweightX, hwy0', hwy1'⟩ := sameWeights_computeUV (k := k) (s := k.withWeights (i + 1) t)
    refine ⟨?_, ?_, ?_, fun hfalse => ?_, fun hfalse => ?_⟩
    · rw [if_neg Bool.false_ne_true, hweightX]
      exact h.weightX
    · rw [if_neg Bool.false_ne_true, hwy0', hwy0]
    · rw [if_neg Bool.false_ne_true, hwy1', hwy1]
    · exact absurd (hnext.symm.trans hfalse) (by decide)
    · exact absurd (hnext.symm.trans hfalse) (by decide)

/-- The rows of a plane that are stored when a core has done `n` rows of its share. -/
def Share (k : Kernel) (batchId coreId n : Nat) (plane : Plane) (b r : Nat) : Prop :=
  b = batchId ∧ match plane with
    | .y => ∃ i < n, r = coreId * k.launch.rowseg + i
    | .uv => ∃ i < n / 2, r = coreId * (k.launch.rowseg / 2) + i

theorem Share.succ {n b r : Nat} {plane : Plane} (h : k.Share batchId coreId n plane b r) :
    k.Share batchId coreId (n + 1) plane b r := by
  obtain ⟨rfl, h⟩ := h
  refine ⟨rfl, ?_⟩
  cases plane with
  | y =>
    obtain ⟨i, hi, rfl⟩ := h
    exact ⟨i, by omega, rfl⟩
  | uv =>
    obtain ⟨i, hi, rfl⟩ := h
    exact ⟨i, by omega, rfl⟩

theorem Share.cases {n b r : Nat} {plane : Plane} (h : k.Share batchId coreId (n + 1) plane b r) :
    k.Share batchId coreId n plane b r ∨ b = batchId ∧ match plane with
      | .y => r = coreId * k.launch.rowseg + n
      | .uv => parity n = false ∧ r = coreId * (k.launch.rowseg / 2) + n / 2 := by
  obtain ⟨rfl, h⟩ := h
  cases plane with
  | y =>
    obtain ⟨i, hi, rfl⟩ := h
    rcases Nat.lt_succ_iff_lt_or_eq.mp hi with hi | rfl
    · exact .inl ⟨rfl, i, hi, rfl⟩
    · exact .inr ⟨rfl, rfl⟩
  | uv =>
    obtain ⟨i, hi, rfl⟩ := h
    by_cases hlt : i < n / 2
    · exact .inl ⟨rfl, i, hlt, rfl⟩
    · have hpar : parity n = false := by
        simp only [parity, decide_eq_false_iff_not]
        omega
      have heq : i = n / 2 := by omega
      exact .inr ⟨rfl, hpar, by rw [heq]⟩

section Runs

variable {memory : Nat → Nat → UInt8} {p₀ p : Solo Nram RowStore} {next : Code} {n : Nat}
  {g : Nram → Nram}

/-- A core does a row of its share. -/
theorem row_runs (hk : k.Fits) (hs : Shrinks k.sCol k.dCol) (hcore : coreId < k.coreDim)
    (hi : i < k.launch.rowseg)
    (hmem : ∀ r < k.coreDim * (4 * k.srcDealNum),
      memory p.phase ((i + 1) % 2 * maxSegmentSmHf + r) = k.slotByte batchId i r)
    (hb : k.Before batchId coreId i p.st) (hput : k.Puts p₀ p (k.Share batchId coreId i))
    (hnext : ∀ p : Solo Nram RowStore, p.runs memory next = ⟨p.phase + n, g p.st, p.out⟩)
    (hg : ∀ s t, k.Computed batchId coreId i s t → k.Computed batchId coreId i s (g t)) :
    k.Puts p₀ (p.runs memory (k.rowCode batchId coreId i next)) (k.Share batchId coreId (i + 1)) ∧
      ∃ s t, k.Computed batchId coreId i s t ∧
        (p.runs memory (k.rowCode batchId coreId i next)).st =
          if parity i then g t else k.computeUV (g t) := by
  obtain ⟨src, hsrc, hrun⟩ := @rowCode_runs k batchId coreId memory p next n i g hnext
  have hb' : k.Before batchId coreId i { p.st with src } := ⟨hb.1, hb.2, hb.3, hb.4, hb.5⟩
  have hcomp := hb'.compute hk hs (fetched_of_slots hcore hmem hsrc)
  obtain ⟨t, ht⟩ : ∃ t, t = g (k.compute coreId (parity i) { p.st with src }) := ⟨_, rfl⟩
  have hg' : k.Computed batchId coreId i { p.st with src } t := ht ▸ hg _ _ hcomp
  rw [hrun t ht]
  refine ⟨?_, _, _, hcomp, by rw [← ht]⟩
  obtain ⟨os, hos, hstores⟩ := hput
  refine ⟨_, by rw [hos, List.append_assoc], fun o ho => ?_, fun plane b r hr => ?_⟩
  · rcases List.mem_append.mp ho with ho | ho
    · obtain ⟨r, hr, hrow⟩ := hstores.right o ho
      exact ⟨r, hr.succ, hrow⟩
    rcases List.mem_cons.mp ho with rfl | ho
    · exact ⟨_, ⟨rfl, i, Nat.lt_succ_self i, rfl⟩, hg'.right_y hk hcore hi⟩
    · cases hpar : parity i with
      | true => simp [hpar] at ho
      | false =>
        have hodd : i % 2 = 1 := by simpa [parity] using hpar
        simp only [hpar, Bool.false_eq_true, if_false, List.mem_singleton] at ho
        subst ho
        exact ⟨_, ⟨rfl, i / 2, by omega, rfl⟩, hg'.right_uv hk hs hcore hi hb' hpar⟩
  · rcases hr.cases with hr | ⟨hbatch, hr⟩
    · obtain ⟨o, ho, heq⟩ := hstores.covers plane b r hr
      exact ⟨o, List.mem_append_left _ ho, heq⟩
    · cases plane with
      | y =>
        refine ⟨_, List.mem_append_right _ List.mem_cons_self, rfl, hbatch.symm, ?_⟩
        rw [storeY_offset hk hcore hi, show r = coreId * k.launch.rowseg + i from hr]
      | uv =>
        obtain ⟨hpar, hr⟩ := hr
        refine ⟨k.storeUV batchId coreId (i / 2 : Nat) (k.computeUV t),
          List.mem_append_right _ (List.mem_cons_of_mem _ ?_), rfl, hbatch.symm, ?_⟩
        · simp [hpar]
        · rw [storeUV_offset hk hcore hi, hr]

/-- The loads for the rows `i`, up to the barrier. -/
theorem loaded_runs (p : Solo Nram RowStore) (i : Nat) :
    p.runs memory (k.loadRows batchId i ++ [.sync]) =
      ⟨p.phase + 1, k.withWeights i p.st, p.out⟩ := by
  rw [Solo.runs_concat, loadRows_runs]
  simp [Solo.exec, Instr.isSync, Instr.run, Instr.puts]

theorem before_first (hcore : coreId < k.coreDim) (hw : k.HasWeights s.weightX) :
    k.Before batchId coreId 0 (k.withWeights 0 s) where
  weightX := hw
  wy0 := withWeights_wy0 hcore 0 s
  wy1 := withWeights_wy1 hcore 0 s
  suR hpar := absurd hpar (by decide)
  svR hpar := absurd hpar (by decide)

/-- A core in the middle of an image that it began at `p₀`. -/
structure Within (k : Kernel) (batchId coreId : Nat) (p₀ : Solo Nram RowStore) (i : Nat)
    (p : Solo Nram RowStore) : Prop where
  phase : p.phase = p₀.phase + i + 1
  before : k.Before batchId coreId i p.st
  puts : k.Puts p₀ p (k.Share batchId coreId i)

/-- The loop over the rows: by induction on how many are done. -/
theorem loop_runs (hk : k.Fits) (hs : Shrinks k.sCol k.dCol) (hcore : coreId < k.coreDim)
    (hmem : ∀ i < k.launch.rowseg, ∀ r < k.coreDim * (4 * k.srcDealNum),
      memory (p₀.phase + i + 1) ((i + 1) % 2 * maxSegmentSmHf + r) = k.slotByte batchId i r)
    (hw : k.HasWeights p₀.st.weightX) (hn : n ≤ k.launch.rowseg - 1) :
    k.Within batchId coreId p₀ n (p₀.runs memory (k.loadRows batchId 0 ++ [.sync] ++
      (List.range' 0 n).flatMap fun i =>
        k.rowCode batchId coreId i (k.loadRows batchId (i + 1) ++ [.sync]))) := by
  have hpos := hk.rowseg_pos
  induction n with
  | zero =>
    rw [Solo.runs_append, loaded_runs]
    refine ⟨rfl, before_first hcore hw, [], by simp, by simp, fun plane b r hr => ?_⟩
    obtain ⟨-, hr⟩ := hr
    cases plane <;> simp at hr
  | succ n ih =>
    have h := ih (by omega)
    have hphase := h.phase
    rw [List.range'_1_concat, List.flatMap_append, ← List.append_assoc, Solo.runs_append,
      List.flatMap_singleton, Nat.zero_add]
    generalize p₀.runs memory _ = p at h hphase ⊢
    obtain ⟨hput, s, t, hcomp, hst⟩ := row_runs hk hs hcore (show n < _ by omega)
      (by rw [hphase]; exact hmem n (by omega)) h.before h.puts
      (fun p => loaded_runs p (n + 1)) fun s t ht => ht.of_loaded (n + 1)
    refine ⟨?_, ?_, hput⟩
    · rw [Solo.runs_phase, syncs_rowCode, syncs_append, syncs_eq_zero loadRows_not_sync, syncs_sync,
        syncs_nil, hphase]
      omega
    · rw [hst]
      exact hcomp.before hcore

/-- A core does its share of an image. -/
theorem image_runs (hk : k.Fits) (hs : Shrinks k.sCol k.dCol) (hcore : coreId < k.coreDim)
    (hmem : ∀ i < k.launch.rowseg, ∀ r < k.coreDim * (4 * k.srcDealNum),
      memory (p₀.phase + i + 1) ((i + 1) % 2 * maxSegmentSmHf + r) = k.slotByte batchId i r)
    (hw : k.HasWeights p₀.st.weightX) :
    k.Puts p₀ (p₀.runs memory (k.imageCode batchId coreId))
        (k.Share batchId coreId k.launch.rowseg) ∧
      k.HasWeights (p₀.runs memory (k.imageCode batchId coreId)).st.weightX := by
  have hpos := hk.rowseg_pos
  have h := loop_runs hk hs hcore hmem hw (Nat.le_refl (k.launch.rowseg - 1))
  have hphase := h.phase
  rw [hk.imageCode_eq hcore, Solo.runs_append]
  generalize p₀.runs memory _ = p at h hphase ⊢
  obtain ⟨hput, s, t, hcomp, hst⟩ := @row_runs k batchId coreId _ memory p₀ p [] 0 id hk hs
    hcore (by omega) (by rw [hphase]; exact hmem (k.launch.rowseg - 1) (by omega)) h.before h.puts
    (fun p => rfl) fun s t ht => ht
  rw [Nat.sub_add_cancel hpos] at hput
  refine ⟨hput, ?_⟩
  rw [hst, id]
  split
  · exact hcomp.weightX
  · rw [sameWeights_computeUV.weightX]
    exact hcomp.weightX

end Runs

end Row

/-! ## A core -/

theorem Share.lt (hk : k.Fits) (hcore : coreId < k.coreDim) {plane : Plane} {b r : Nat}
    (h : k.Share batchId coreId k.launch.rowseg plane b r) : r < k.rows plane := by
  obtain ⟨-, h⟩ := h
  cases plane with
  | y =>
    obtain ⟨i, hi, rfl⟩ := h
    exact row_lt hk hcore hi
  | uv =>
    obtain ⟨i, hi, rfl⟩ := h
    have hpar : parity (2 * i + 1) = false := by
      simp only [parity, decide_eq_false_iff_not]
      omega
    have huv := (uvRow_eq k coreId hpar).2
    have hlt := row_lt hk hcore (show 2 * i + 1 < k.launch.rowseg by omega)
    have hhalf : (2 * i + 1) / 2 = i := by omega
    rw [hhalf] at huv
    simp only [rows]
    omega

section Core

variable {clusterId : Nat} {sram : Nat → UInt8}

/-- The images of a core, by induction on how many are done. -/
theorem images_runs (hk : k.Fits) (hs : Shrinks k.sCol k.dCol) (hcore : coreId < k.coreDim)
    {p₀ : Solo Nram RowStore} (hphase : p₀.phase = 0) (hw : k.HasWeights p₀.st.weightX) {n : Nat}
    (hn : n ≤ k.batchNum clusterId) :
    let p := p₀.runs (content sram fun coreId : Fin k.coreDim => k.coreCode clusterId coreId)
      ((List.range' (k.start clusterId) n).flatMap fun batchId => k.imageCode batchId coreId)
    p.phase = n * k.launch.rowseg ∧ k.HasWeights p.st.weightX ∧ k.Puts p₀ p fun plane b r =>
      ∃ q < n, k.Share (k.start clusterId + q) coreId k.launch.rowseg plane b r := by
  induction n with
  | zero => exact ⟨by simp [hphase], hw, [], by simp, by simp, by simp⟩
  | succ n ih =>
    obtain ⟨hp, hweights, hputs⟩ := ih (by omega)
    dsimp only at hp hweights hputs ⊢
    rw [List.range'_1_concat, List.flatMap_append, Solo.runs_append, List.flatMap_singleton]
    generalize p₀.runs _ (List.flatMap _ (List.range' _ n)) = p at hp hweights hputs ⊢
    obtain ⟨hput, hweights'⟩ := @image_runs k (k.start clusterId + n) coreId
      (content sram fun coreId : Fin k.coreDim => k.coreCode clusterId coreId) p hk hs hcore
      (fun i hi r hr => by rw [hp]; exact hk.content_slot (by omega) hi hr) hweights
    refine ⟨?_, hweights', ?_⟩
    · rw [Solo.runs_phase, hk.syncs_imageCode hcore, hp, Nat.succ_mul]
    · obtain ⟨os, hos, hstores⟩ := hputs.trans hput
      refine ⟨os, hos, hstores.congr fun plane b r => ?_⟩
      simp only [Nat.lt_succ_iff_lt_or_eq, or_and_right, exists_or, exists_eq_left]

/-- What a core stores by itself. -/
theorem core_stores (hk : k.Fits) (hs : Shrinks k.sCol k.dCol) (hcore : coreId < k.coreDim)
    (st : Nram) :
    k.Stores (Solo.runs (content sram fun coreId : Fin k.coreDim => k.coreCode clusterId coreId)
      ⟨0, st, []⟩ (k.coreCode clusterId coreId)).out fun plane b r =>
        ∃ q < k.batchNum clusterId,
          k.Share (k.start clusterId + q) coreId k.launch.rowseg plane b r := by
  have hact : Solo.exec (content sram fun coreId : Fin k.coreDim => k.coreCode clusterId coreId)
      ⟨0, st, []⟩ (.act k.genWeights) = (⟨0, k.genWeights st, []⟩ : Solo Nram RowStore) := rfl
  obtain ⟨-, -, os, hos, hstores⟩ := @images_runs k coreId clusterId sram hk hs hcore
    ⟨0, k.genWeights st, []⟩ rfl (hasWeights_genWeights hk.colseg hs st) _
    (Nat.le_refl _)
  rw [coreCode, Solo.runs_cons, hact]
  rw [List.nil_append] at hos
  exact hos ▸ hstores

end Core

end CambriconGst.Easybang.ResizeYuv420sp.Kernel
