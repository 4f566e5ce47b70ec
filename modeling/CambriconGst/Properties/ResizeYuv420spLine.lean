import Mathlib.Data.List.Sort
import CambriconGst.Easybang.ResizeYuv420spCores
import CambriconGst.Lib.Interpolation
import CambriconGst.Properties.ResizePixels
import CambriconGst.Properties.ResizeYuv420spMasks

/-!
# A line that the kernel of resize computes

* `getElem?_filter_mask`: what is selected by a mask with increasing slots
* `Kernel.resize_eq`: two lines are blended along their columns, and then with each other
* `Kernel.spread_eq`: the chroma of a line, each value twice
* `Kernel.computeUV_eq`: the mean of two rows and two columns
-/

namespace CambriconGst.Easybang

open Lib

/-! ## Copies -/

section Copy

variable {V : Type} {dst n i : Nat} {src buffer : Nat → V}

theorem copyTo_add (h : i < n) : copyTo dst n src buffer (dst + i) = src i := by
  simp [copyTo, h]

theorem copyTo_zero (h : i < n) : copyTo 0 n src buffer i = src i := by
  simp [copyTo, h]

theorem copyTo_of_ge (h : dst + n ≤ i) : copyTo dst n src buffer i = buffer i :=
  if_neg fun hin => by omega

theorem bangCollect_of_ge {n i : Nat} {src buffer : Nat → ℚ} {mask : Nat → Bool} (h : dst + n ≤ i) :
    bangCollect dst src mask n buffer i = buffer i := by
  have hle := List.length_filter_le mask (List.range n)
  rw [List.length_range] at hle
  unfold bangCollect
  refine copyTo_of_ge ?_
  rw [List.length_map]
  omega

end Copy

/-- What is selected by a mask with increasing slots. -/
theorem getElem?_filter_mask {f : Nat → Nat} (hf : StrictMono f) {mask : Nat → Bool} {d : Nat}
    {n : Nat} (hmask : ∀ i < n, mask i = true ↔ ∃ j < d, f j = i) {j : Nat} (hj : j < d)
    (hn : f j < n) : ((List.range n).filter mask)[j]? = some (f j) := by
  have hbefore : (List.range (f j)).filter mask = (List.range j).map f := by
    refine List.Pairwise.eq_of_mem_iff (r := (· < ·)) (List.pairwise_lt_range.filter _) ?_ fun i => ?_
    · exact List.pairwise_map.mpr (List.pairwise_lt_range.imp fun hlt => hf hlt)
    · simp only [List.mem_filter, List.mem_range, List.mem_map]
      constructor
      · rintro ⟨hi, hsel⟩
        obtain ⟨j', -, rfl⟩ := (hmask i (hi.trans hn)).mp hsel
        exact ⟨j', hf.lt_iff_lt.mp hi, rfl⟩
      · rintro ⟨j', hj', rfl⟩
        exact ⟨hf hj', (hmask _ ((hf hj').trans hn)).mpr ⟨j', hj'.trans hj, rfl⟩⟩
  obtain ⟨rest, rfl⟩ : ∃ rest, n = f j + (rest + 1) := ⟨n - f j - 1, by omega⟩
  have hself : mask (f j) = true := (hmask _ hn).mpr ⟨j, hj, rfl⟩
  rw [List.range_add, List.filter_append, hbefore, List.getElem?_append_right (by simp),
    List.range_succ_eq_map, List.map_cons, Nat.add_zero, List.filter_cons_of_pos hself]
  simp

namespace ResizeYuv420sp.Kernel

variable {k : Kernel}

/-! ## Columns -/

/-- `wx0` and `wx1` of a column of the destination. -/
def wx0 (k : Kernel) (j : Nat) : ℚ :=
  k.weight0 (k.fx (position (scaleX k.sCol k.dCol) j))

def wx1 (k : Kernel) (j : Nat) : ℚ :=
  k.weight1 (k.fx (position (scaleX k.sCol k.dCol) j))

/-- The column of the source on the left, and the one on the right. -/
def left (k : Kernel) (j : Nat) : Nat :=
  (column (scaleX k.sCol k.dCol) j).toNat

def right (k : Kernel) (j : Nat) : Nat :=
  min (k.left j + 1) (k.sCol - 1)

theorem round_zero : k.half.round 0 = 0 := by
  simpa using k.half.natCast 0 (by decide)

theorem round_one : k.half.round 1 = 1 := by
  simpa using k.half.natCast 1 (by decide)

theorem le_srcDealNum (h : k.launch.colseg = 0) : k.sCol ≤ k.srcDealNum := by
  have hlt : k.sCol < maxSegment :=
    (Nat.div_eq_zero_iff.mp h).resolve_left (by decide)
  exact le_dealNum hlt.le

theorem le_dstDealNum (h : k.launch.colseg = 0) (hs : Shrinks k.sCol k.dCol) :
    k.dCol ≤ k.dstDealNum := by
  have hlt : k.sCol < maxSegment :=
    (Nat.div_eq_zero_iff.mp h).resolve_left (by decide)
  exact le_dealNum (hs.le.trans hlt.le)

theorem padUp_mono {x y : Nat} (h : x ≤ y) : padUp x 64 ≤ padUp y 64 := by
  unfold padUp
  split <;> split <;> omega

theorem dstDealNum_le (hs : Shrinks k.sCol k.dCol) : k.dstDealNum ≤ k.srcDealNum := by
  have hle := padUp_mono hs.le
  unfold dstDealNum srcDealNum dealNum
  dsimp only
  split <;> split <;> omega

theorem srcDealNum_le : k.srcDealNum ≤ maxSegment :=
  dealNum_le k.sCol

section Shrinks

variable (hs : Shrinks k.sCol k.dCol) {j : Nat}

include hs

theorem left_cast : (k.left j : Int) = column (scaleX k.sCol k.dCol) j :=
  Int.toNat_of_nonneg hs.column_nonneg

theorem left_strictMono : StrictMono k.left :=
  strictMono_nat_of_lt_succ fun j => by
    have hlt := hs.column_lt_succ (j := j)
    rw [← left_cast hs, ← left_cast hs] at hlt
    exact_mod_cast hlt

theorem left_lt (hj : j < k.dCol) : k.left j < k.sCol := by
  have hlt := hs.column_lt hj
  rw [← left_cast hs] at hlt
  exact_mod_cast hlt

theorem hasRoom (h : k.launch.colseg = 0) : HasRoom k.sCol k.dCol := by
  have hlt : k.sCol < maxSegment :=
    (Nat.div_eq_zero_iff.mp h).resolve_left (by decide)
  have hd := hs.one_le
  have hle := hs.le
  have hlast := hs.position_le (show k.dCol - 1 < k.dCol by omega)
  rw [maxSegment_eq] at hlt
  exact ⟨by omega, by omega⟩

omit hs in
/-- A slot is not zero when it is that of a column. -/
theorem slot_ne_zero_iff {start : Nat} {slot : Nat → Int}
    (hslots : HasSlots k.sCol k.dCol start slot) {i : Nat} (hi : i < k.srcDealNum) :
    ResizeYuv420sp.stored k.sCol k.dCol k.dCol (start + i) ≠ .zero ↔ ∃ j < k.dCol, slot j = i := by
  have hle := srcDealNum_le (k := k)
  have hlt : (i : Int) < dealNum k.sCol := Int.ofNat_lt.mpr hi
  rw [hslots.stored (le_refl _) (Int.natCast_nonneg i) (by omega), if_pos hlt]
  split
  · next hmem =>
    obtain ⟨j, hj, hslot⟩ := List.mem_map.mp hmem
    exact iff_of_true nofun ⟨j, List.mem_range.mp hj, hslot⟩
  · next hmem =>
    refine iff_of_false (fun hne => hne rfl) ?_
    rintro ⟨j, hj, hslot⟩
    exact hmem (List.mem_map.mpr ⟨j, List.mem_range.mpr hj, hslot⟩)

theorem maskX0_iff (h : k.launch.colseg = 0) {i : Nat} (hi : i < k.srcDealNum) :
    k.maskX0 i = true ↔ ∃ j < k.dCol, k.left j = i := by
  rw [maskX0, decide_eq_true_eq, hs.masks_eq.buffer,
    slot_ne_zero_iff (hs.hasSlots_maskX0 (hasRoom hs h)) hi]
  simp only [← left_cast hs, Nat.cast_inj]

theorem maskX1_iff (h : k.launch.colseg = 0) {i : Nat} (hi : i < k.srcDealNum) :
    k.maskX1 i = true ↔ ∃ j < k.dCol, k.left j + 1 = i := by
  rw [maskX1, decide_eq_true_eq, hs.masks_eq.buffer,
    slot_ne_zero_iff (hs.hasSlots_maskX1 (hasRoom hs h)) hi]
  simp only [← left_cast hs]
  norm_cast

theorem selected_left (h : k.launch.colseg = 0) (hj : j < k.dCol) :
    ((List.range k.srcDealNum).filter k.maskX0)[j]? = some (k.left j) :=
  getElem?_filter_mask (left_strictMono hs) (fun _ hi => maskX0_iff hs h hi) hj
    ((left_lt hs hj).trans_le (le_srcDealNum h))

theorem selected_right (h : k.launch.colseg = 0) (hj : j < k.dCol)
    (hn : k.left j + 1 < k.srcDealNum) :
    ((List.range k.srcDealNum).filter k.maskX1)[j]? = some (k.left j + 1) :=
  getElem?_filter_mask (f := fun j => k.left j + 1)
    (fun _ _ hlt => Nat.succ_lt_succ (left_strictMono hs hlt)) (fun _ hi => maskX1_iff hs h hi) hj hn

/-- The last column of the source has no neighbour, and the weight for it is zero. -/
theorem wx1_of_last (hj : k.left j + 1 = k.sCol) : k.wx1 j = 0 := by
  have hwhole : whole (position (scaleX k.sCol k.dCol) j) = k.colLimit := by
    have hleft := left_cast hs (j := j)
    have hnonneg := hs.position_nonneg (j := j)
    unfold column at hleft
    unfold whole colLimit
    rw [Int.shiftRight_eq_div_pow]
    split <;> omega
  have hfx : k.fx (position (scaleX k.sCol k.dCol) j) = 0 := by
    rw [fx, hwhole, if_neg (lt_irrefl _), mul_zero]
  rw [wx1, hfx, weight1, weight0, sub_zero, round_one, sub_self, round_zero]

end Shrinks

/-- The weights are those of the columns. -/
def HasWeights (k : Kernel) (weightX : Nat → ℚ) : Prop :=
  ∀ j < k.dCol, weightX j = k.wx0 j ∧ weightX (k.dstDealNum + j) = k.wx1 j

theorem hasWeights_genWeights (h : k.launch.colseg = 0) (hs : Shrinks k.sCol k.dCol) (s : Nram) :
    k.HasWeights (k.genWeights s).weightX := by
  intro j hj
  have hle := le_dstDealNum h hs
  have hpos : (masks k.sCol k.dCol).positions.getD j 0 = position (scaleX k.sCol k.dCol) j := by
    rw [hs.masks_eq.positions, List.getD_eq_getElem?_getD, List.getElem?_map,
      List.getElem?_range (by omega), Option.map_some, Option.getD_some]
  simp only [genWeights]
  constructor
  · rw [copyTo_of_lt (by omega), copyTo_zero hj, hpos, wx0]
  · rw [copyTo_add hj, hpos, wx1]

/-! ## Two lines -/

/-- Two values with their weights, in halfs. -/
def blend (k : Kernel) (w0 w1 a b : ℚ) : ℚ :=
  k.half.round (k.half.round (a * w0) + k.half.round (b * w1))

theorem blend_congr {w0 w1 a b a' b' : ℚ} (ha : a = a') (hb : b = b') :
    k.blend w0 w1 a b = k.blend w0 w1 a' b' := by
  rw [ha, hb]

/-- A column of the destination, for a line of the source. -/
def blendX (k : Kernel) (line : Nat → ℚ) (j : Nat) : ℚ :=
  k.blend (k.wx0 j) (k.wx1 j) (line (k.left j)) (line (k.right j))

section Resize

variable {weightX buffer e e0 e1 : Nat → ℚ} {w0 w1 : ℚ} {src0 src1 i j : Nat}

theorem columns_eq (h : k.launch.colseg = 0) (hs : Shrinks k.sCol k.dCol)
    (hw : k.HasWeights weightX) (hj : j < k.dCol) (src : Nat → ℚ) :
    k.half.round (k.columns weightX src e j + k.columns weightX src e (k.dstDealNum + j)) =
      k.blendX src j := by
  have hdst := le_dstDealNum h hs
  have hleft := bangCollect_add (selected_left hs h hj) 0 src e
  rw [Nat.zero_add] at hleft
  unfold columns blendX blend
  rw [copyTo_zero (by omega), copyTo_zero (by omega), bangCollect_of_lt (by omega), hleft, (hw j hj).1,
    (hw j hj).2]
  refine congrArg k.half.round (congrArg _ (congrArg k.half.round ?_))
  by_cases hlast : k.left j + 1 = k.sCol
  · -- what was selected for the last column does not count
    rw [wx1_of_last hs hlast, mul_zero, mul_zero]
  · have hlt := left_lt hs hj
    have hn : k.left j + 1 < k.srcDealNum := by
      have hle := le_srcDealNum h
      omega
    have hright : k.right j = k.left j + 1 := by
      unfold right
      omega
    rw [bangCollect_add (selected_right hs h hj hn), hright]

theorem map2_of_ge {f : ℚ → ℚ → ℚ} {n : Nat} (hi : src0 + n ≤ i) :
    k.map2 f src0 src1 n buffer i = buffer i :=
  copyTo_of_ge hi

theorem map2_of_lt {f : ℚ → ℚ → ℚ} {n : Nat} (hi : i < src0) :
    k.map2 f src0 src1 n buffer i = buffer i :=
  copyTo_of_lt hi

theorem map2_add {f : ℚ → ℚ → ℚ} {n : Nat} (hj : j < n) :
    k.map2 f src0 src1 n buffer (src0 + j) =
      k.half.round (f (buffer (src0 + j)) (buffer (src1 + j))) :=
  copyTo_add hj

/-- The lines are blended along their columns, and then with each other. -/
theorem resize_eq (h : k.launch.colseg = 0) (hs : Shrinks k.sCol k.dCol)
    (hw : k.HasWeights weightX) (hsrc : src0 + k.dstDealNum ≤ src1) (hj : j < k.dCol) :
    (k.resize weightX w0 w1 src0 src1 buffer e0 e1).1 (src0 + j) =
      k.blend w0 w1 (k.blendX (fun i => buffer (src0 + i)) j)
        (k.blendX (fun i => buffer (src1 + i)) j) := by
  have hdst := le_dstDealNum h hs
  have hj' : j < k.dstDealNum := hj.trans_le hdst
  unfold resize blend
  dsimp only
  rw [map2_add hj', map2_of_lt (by omega), map2_add hj', map2_add hj', map2_of_ge (by omega),
    copyTo_of_lt (by omega), copyTo_add hj', copyTo_add hj', columns_eq h hs hw hj,
    columns_eq h hs hw hj]

/-- The first line is at the beginning of the buffer. -/
theorem resize_zero_eq (h : k.launch.colseg = 0) (hs : Shrinks k.sCol k.dCol)
    (hw : k.HasWeights weightX) (hsrc : k.dstDealNum ≤ src1) (hj : j < k.dCol) :
    (k.resize weightX w0 w1 0 src1 buffer e0 e1).1 j =
      k.blend w0 w1 (k.blendX buffer j) (k.blendX (fun i => buffer (src1 + i)) j) := by
  have hresize := @resize_eq k weightX buffer e0 e1 w0 w1 0 src1 j h hs hw (by simpa using hsrc) hj
  simpa using hresize

theorem resize_of_ge (hi : src0 + k.dstDealNum ≤ i) (hi' : src1 + k.dstDealNum ≤ i) :
    (k.resize weightX w0 w1 src0 src1 buffer e0 e1).1 i = buffer i := by
  unfold resize
  dsimp only
  rw [map2_of_ge hi, map2_of_ge hi', map2_of_ge hi, copyTo_of_ge hi', copyTo_of_ge hi]

theorem resize_of_lt (hi : i < src0) (hi' : i < src1) :
    (k.resize weightX w0 w1 src0 src1 buffer e0 e1).1 i = buffer i := by
  unfold resize
  dsimp only
  rw [map2_of_lt hi, map2_of_lt hi', map2_of_lt hi, copyTo_of_lt hi', copyTo_of_lt hi]

end Resize

/-! ## Chroma -/

theorem genKernel_row (even odd : Int) {row t : Nat} (hrow : row < 64) (ht : t < 32) :
    genKernel even odd (row * 32 + t) =
      writeCells (fun _ => 0) [(row / 2, if row % 2 = 0 then even else odd)] t := by
  unfold genKernel
  by_cases h : row / 2 = t
  · have hright : writeCells (fun _ => 0) [(row / 2, if row % 2 = 0 then even else odd)] t =
        if row % 2 = 0 then even else odd := writeCells_of_mem (by simp [h]) (by simp [h])
    rw [hright]
    refine writeCells_of_mem ?_ fun w hw heq => ?_
    · refine List.mem_flatMap.mpr ⟨t, List.mem_range.mpr ht, ?_⟩
      rcases Nat.mod_two_eq_zero_or_one row with hpar | hpar
      · have hmul : row * 32 + t = 2 * t * 32 + t := by omega
        simp [hpar, hmul]
      · have hmul : row * 32 + t = (2 * t + 1) * 32 + t := by omega
        simp [hpar, hmul]
    · obtain ⟨i, hi, hw⟩ := List.mem_flatMap.mp hw
      have hi' := List.mem_range.mp hi
      simp only [List.mem_cons, List.not_mem_nil, or_false] at hw
      rcases hw with rfl | rfl
      · have hpar : row % 2 = 0 := by
          dsimp only at heq
          omega
        simp [hpar]
      · have hpar : ¬row % 2 = 0 := by
          dsimp only at heq
          omega
        simp [hpar]
  · have hright : writeCells (fun _ => 0) [(row / 2, if row % 2 = 0 then even else odd)] t = 0 :=
      writeCells_of_ne (by simpa using h)
    rw [hright, writeCells_of_ne]
    intro w hw heq
    obtain ⟨i, hi, hw⟩ := List.mem_flatMap.mp hw
    have hi' := List.mem_range.mp hi
    simp only [List.mem_cons, List.not_mem_nil, or_false] at hw
    rcases hw with rfl | rfl <;> dsimp only at heq <;> omega

theorem convHalf_eq (even odd : Int) (n : Nat) (src : Nat → ℚ) (i : Nat) :
    k.convHalf (genKernel even odd) n src i =
      k.half.round (⌊src (i / 2)⌋ * if i % 2 = 0 then (even : ℚ) else odd) := by
  have hmod : i % (ci * 2) < 64 := Nat.mod_lt i (by decide)
  have hkernel : ∀ t < 1 * ci, genKernel even odd (ltRow (ci * 2) (i % (ci * 2)) * (1 * ci) + t) =
      writeCells (fun _ => 0)
        [(i % (ci * 2) / 2, if i % (ci * 2) % 2 = 0 then even else odd)] t := by
    intro t ht
    have hrow : ltRow (ci * 2) (i % (ci * 2)) = i % (ci * 2) := by
      unfold ltRow
      simp only [ltNum, ci] at hmod ⊢
      omega
    rw [hrow, ← genKernel_row even odd hmod (by simpa [ci] using ht)]
    simp [ci]
  rw [convHalf, bangConv, conv_eq hkernel (by simp) (by simp [ci]; omega)]
  have hidx : (i % (ci * 2) / 2 / ci * (n / ci) + i / (ci * 2)) * ci + i % (ci * 2) / 2 % ci =
      i / 2 := by
    have hzero : i % (ci * 2) / 2 / ci = 0 := by
      simp only [ci] at hmod ⊢
      omega
    rw [hzero]
    simp only [ci]
    omega
  have hpar : i % (ci * 2) % 2 = i % 2 := by
    simp only [ci]
    omega
  simp only [List.map_cons, List.map_nil, List.sum_singleton, hidx, hpar, Int.cast_mul]
  congr 2
  split <;> rfl

theorem dealNum_mod (col : Nat) : dealNum col % 64 = 0 := by
  unfold dealNum
  dsimp only
  split
  · rfl
  · exact Nat.mul_mod_left _ _

theorem srcDealNum_mod (k : Kernel) : k.srcDealNum % 64 = 0 :=
  dealNum_mod k.sCol

theorem dstDealNum_mod (k : Kernel) : k.dstDealNum % 64 = 0 :=
  dealNum_mod k.dCol

theorem padUv_bounds (k : Kernel) : k.srcDealNum ≤ 2 * k.padUv ∧ 2 * k.padUv ≤ sU1 := by
  have hmod := k.srcDealNum_mod
  have hle := k.srcDealNum_le
  have hpad := le_padUp (k.srcDealNum / 2) (y := 64) (by decide)
  unfold maxSegment at hle
  unfold padUv sU1 maxSegment
  refine ⟨by omega, ?_⟩
  unfold padUp
  split <;> omega

theorem padUvR_bounds (k : Kernel) : k.dstDealNum ≤ 2 * k.padUvR ∧ 2 * k.padUvR ≤ sU1 := by
  have hmod := k.dstDealNum_mod
  have hle : k.dstDealNum ≤ maxSegment := dealNum_le k.dCol
  have hpad := le_padUp (k.dstDealNum / 2) (y := 64) (by decide)
  unfold maxSegment at hle
  unfold padUvR sU1 maxSegment
  refine ⟨by omega, ?_⟩
  unfold padUp
  split <;> omega

/-- The slots of one chroma, by `p` being odd. -/
def uvMaskOf (p : Nat) : Nat → Bool :=
  if p = 1 then uvMask else uvMask1

theorem selected_uv {p n q : Nat} (hp : p < 2) (hq : 2 * q + p < n) :
    ((List.range n).filter (uvMaskOf p))[q]? = some (2 * q + p) := by
  refine getElem?_filter_mask (f := fun q => 2 * q + p) (d := n)
    (fun _ _ hlt => by dsimp only; omega) (fun i hi => ?_) (by omega) hq
  have hmask : uvMaskOf p i = true ↔ i % 2 = p := by
    rcases (by omega : p = 0 ∨ p = 1) with rfl | rfl <;> simp [uvMaskOf, uvMask, uvMask1]
  rw [hmask]
  constructor
  · intro h
    exact ⟨i / 2, by omega, by omega⟩
  · rintro ⟨q, -, rfl⟩
    omega

section Spread

variable {s : Nram} {line dst p x i : Nat}

/-- One chroma of a line, each value twice. -/
def spreadByte (k : Kernel) (s : Nram) (line p x : Nat) : ℚ :=
  k.half.round ⌊s.sLine (line * k.srcDealNum + (2 * (x / 2) + p))⌋

theorem spread_eq (hp : p < 2) (hx : x < k.srcDealNum) :
    (k.spread (uvMaskOf p) line dst s).sUV (dst + x) = k.spreadByte s line p x := by
  have hmod := k.srcDealNum_mod
  have hcollect := bangCollect_add (selected_uv (n := k.srcDealNum) (q := x / 2) hp (by omega)) 0
    (fun i => s.sLine (line * k.srcDealNum + i)) s.temp
  rw [Nat.zero_add] at hcollect
  unfold spread spreadByte
  dsimp only
  rw [copyTo_add (hx.trans_le k.padUv_bounds.1), convHalf_eq, hcollect]
  simp

theorem spread_of_lt {mask : Nat → Bool} (hi : i < dst) :
    (k.spread mask line dst s).sUV i = s.sUV i :=
  copyTo_of_lt hi

@[simp]
theorem spreadByte_spread {mask : Nat → Bool} {line' : Nat} :
    k.spreadByte (k.spread mask line' dst s) line p x = k.spreadByte s line p x := by
  simp only [spreadByte, spread]

theorem spread_odd (hx : x < k.srcDealNum) :
    (k.spread uvMask line dst s).sUV (dst + x) = k.spreadByte s line 1 x :=
  spread_eq (p := 1) (by decide) hx

theorem spread_even (hx : x < k.srcDealNum) :
    (k.spread uvMask1 line dst s).sUV (dst + x) = k.spreadByte s line 0 x :=
  spread_eq (p := 0) (by decide) hx

/-- The first place of a chroma of both lines: of the first one, and of the second one. -/
def uvPlace (p : Nat) : Nat × Nat :=
  if p = 1 then (0, sU1) else (sV0, sV1)

theorem place_bounds : maxSegment ≤ sU1 ∧ sU1 + sU1 = sV0 ∧ sV0 + sU1 = sV1 := by
  decide

theorem chroma_eq (hp : p < 2) (hx : x < k.srcDealNum) :
    (k.chroma s).sUV ((uvPlace p).1 + x) = k.spreadByte s 2 p x ∧
      (k.chroma s).sUV ((uvPlace p).2 + x) = k.spreadByte s 3 p x := by
  obtain ⟨hseg, hV0, hV1⟩ := place_bounds
  have hlt : x < sU1 := hx.trans_le (k.srcDealNum_le.trans hseg)
  unfold chroma
  rcases (by omega : p = 0 ∨ p = 1) with rfl | rfl
  · simp only [uvPlace, Nat.zero_ne_one, if_false]
    rw [spread_of_lt (by omega), spread_even hx, spread_even hx]
    simp
  · simp only [uvPlace, if_true]
    rw [spread_of_lt (by omega), spread_of_lt (by omega), spread_of_lt (by omega), spread_odd hx,
      spread_of_lt (by omega), spread_of_lt (by omega), spread_odd hx]
    simp

end Spread

/-! ## A row -/

section Compute

variable {s : Nram} {coreId p x : Nat} {parityC : Bool}

theorem blendX_congr (hs : Shrinks k.sCol k.dCol) {f g : Nat → ℚ} (hfg : ∀ i < k.sCol, f i = g i)
    (hx : x < k.dCol) : k.blendX f x = k.blendX g x := by
  have hlt := left_lt hs hx
  have hright : k.right x < k.sCol := by
    unfold right
    omega
  rw [blendX, blendX, hfg _ hlt, hfg _ hright]

/-- A byte that was fetched. -/
def srcByte (k : Kernel) (s : Nram) (parityC : Bool) (line x : Nat) : ℚ :=
  (s.src (parityC.toNat * 4 * maxSegmentHf + (line * k.srcDealNum + x))).toNat

theorem convert_sLine {line : Nat} (hline : line < 4) (hx : x < k.srcDealNum) :
    (k.convert parityC s).sLine (line * k.srcDealNum + x) = k.srcByte s parityC line x := by
  have hmul := Nat.mul_le_mul_right k.srcDealNum (Nat.le_of_lt_succ hline)
  unfold convert
  dsimp only
  rw [copyTo_zero (by omega), srcByte]

theorem spreadByte_convert (hp : p < 2) {line : Nat} (hline : line < 4) (hx : x < k.srcDealNum) :
    k.spreadByte (k.convert parityC s) line p x = k.srcByte s parityC line (2 * (x / 2) + p) := by
  have hmod := k.srcDealNum_mod
  have hlt := (s.src (parityC.toNat * 4 * maxSegmentHf +
    (line * k.srcDealNum + (2 * (x / 2) + p)))).toNat_lt
  rw [spreadByte, convert_sLine hline (by omega), srcByte, Int.floor_natCast, Int.cast_natCast]
  exact k.half.natCast _ (by omega)

/-! What the steps of a row leave. -/

section Frame

variable {src0 src1 : Nat}

@[simp]
theorem keepFirst_sLine : (k.keepFirst parityC s).sLine = s.sLine := by
  unfold keepFirst
  split <;> rfl

@[simp]
theorem keepFirst_sUV : (k.keepFirst parityC s).sUV = s.sUV := by
  unfold keepFirst
  split <;> rfl

@[simp]
theorem resizeUV_sLine : (k.resizeUV coreId src0 src1 s).sLine = s.sLine :=
  rfl

theorem resizeUV_sUV : (k.resizeUV coreId src0 src1 s).sUV =
    (k.resize s.weightX (s.wy0 coreId) (s.wy1 coreId) src0 src1 s.sUV s.sLine0e s.sLine1e).1 :=
  rfl

theorem resizeLine_sLine : (k.resizeLine coreId s).sLine =
    (k.resize s.weightX (s.wy0 coreId) (s.wy1 coreId) 0 k.srcDealNum s.sLine s.sLine0e s.sLine1e).1 :=
  rfl

@[simp]
theorem resizeLine_sUV : (k.resizeLine coreId s).sUV = s.sUV :=
  rfl

theorem spread_sLine {mask : Nat → Bool} {line dst : Nat} :
    (k.spread mask line dst s).sLine = s.sLine := by
  simp only [spread]

@[simp]
theorem chroma_sLine : (k.chroma s).sLine = s.sLine := by
  simp only [chroma, spread_sLine]

/-- The weights stay. -/
structure SameWeights (s t : Nram) : Prop where
  weightX : t.weightX = s.weightX
  wy0 : t.wy0 = s.wy0
  wy1 : t.wy1 = s.wy1

theorem SameWeights.trans {t u : Nram} (h : SameWeights s t) (h' : SameWeights t u) :
    SameWeights s u :=
  ⟨h'.1.trans h.1, h'.2.trans h.2, h'.3.trans h.3⟩

theorem sameWeights_resizeUV : SameWeights s (k.resizeUV coreId src0 src1 s) := by
  constructor <;> simp only [resizeUV]

theorem sameWeights_resizeLine : SameWeights s (k.resizeLine coreId s) := by
  constructor <;> simp only [resizeLine]

theorem sameWeights_spread {mask : Nat → Bool} {line dst : Nat} :
    SameWeights s (k.spread mask line dst s) := by
  constructor <;> simp only [spread]

theorem sameWeights_chroma : SameWeights s (k.chroma s) :=
  sameWeights_spread.trans <| sameWeights_spread.trans <|
    sameWeights_spread.trans sameWeights_spread

theorem sameWeights_convert : SameWeights s (k.convert parityC s) := by
  constructor <;> simp only [convert]

theorem sameWeights_keepFirst : SameWeights s (k.keepFirst parityC s) := by
  unfold keepFirst
  split <;> exact ⟨rfl, rfl, rfl⟩

theorem sameWeights_compute : SameWeights s (k.compute coreId parityC s) :=
  sameWeights_convert.trans <| sameWeights_chroma.trans <| sameWeights_resizeLine.trans <|
    sameWeights_resizeUV.trans <| sameWeights_resizeUV.trans sameWeights_keepFirst

end Frame

theorem compute_sLine (h : k.launch.colseg = 0) (hs : Shrinks k.sCol k.dCol)
    (hw : k.HasWeights s.weightX) (hx : x < k.dCol) :
    (k.compute coreId parityC s).sLine x = k.blend (s.wy0 coreId) (s.wy1 coreId)
      (k.blendX (k.srcByte s parityC 0) x) (k.blendX (k.srcByte s parityC 1) x) := by
  have hn := le_srcDealNum h
  obtain ⟨hweightX, hwy0, hwy1⟩ : SameWeights s (k.chroma (k.convert parityC s)) :=
    sameWeights_convert.trans sameWeights_chroma
  simp only [compute, keepFirst_sLine, resizeUV_sLine, resizeLine_sLine, chroma_sLine, hweightX, hwy0,
    hwy1]
  rw [resize_zero_eq h hs hw (dstDealNum_le hs) hx]
  refine blend_congr ?_ ?_
  · refine blendX_congr hs (fun i hi => ?_) hx
    rw [← convert_sLine (by decide) (hi.trans_le hn), Nat.zero_mul, Nat.zero_add]
  · refine blendX_congr hs (fun i hi => ?_) hx
    rw [← convert_sLine (by decide) (hi.trans_le hn), Nat.one_mul]

/-- The chroma of a line that was fetched, each value twice. -/
def srcChroma (k : Kernel) (s : Nram) (parityC : Bool) (line p x : Nat) : ℚ :=
  k.srcByte s parityC line (2 * (x / 2) + p)

theorem chroma_convert (h : k.launch.colseg = 0) (hp : p < 2) (hx : x < k.sCol) :
    (k.chroma (k.convert parityC s)).sUV ((uvPlace p).1 + x) = k.srcChroma s parityC 2 p x ∧
      (k.chroma (k.convert parityC s)).sUV ((uvPlace p).2 + x) = k.srcChroma s parityC 3 p x := by
  have hlt := hx.trans_le (le_srcDealNum h)
  rw [(chroma_eq hp hlt).1, (chroma_eq hp hlt).2, spreadByte_convert hp (by decide) hlt,
    spreadByte_convert hp (by decide) hlt]
  exact ⟨rfl, rfl⟩

/-- Both chromas are resized, the even one behind the odd one. -/
theorem resizeUV_both (h : k.launch.colseg = 0) (hs : Shrinks k.sCol k.dCol)
    (hw : k.HasWeights s.weightX) (hp : p < 2) (hx : x < k.dCol) :
    (k.resizeUV coreId sV0 sV1 (k.resizeUV coreId 0 sU1 s)).sUV ((uvPlace p).1 + x) =
      k.blend (s.wy0 coreId) (s.wy1 coreId) (k.blendX (fun i => s.sUV ((uvPlace p).1 + i)) x)
        (k.blendX (fun i => s.sUV ((uvPlace p).2 + i)) x) := by
  obtain ⟨hseg, hV0, hV1⟩ := place_bounds
  have hdst : k.dstDealNum ≤ sU1 := (dstDealNum_le hs).trans (k.srcDealNum_le.trans hseg)
  have hx' : x < k.dstDealNum := hx.trans_le (le_dstDealNum h hs)
  obtain ⟨hweightX, hwy0, hwy1⟩ : SameWeights s (k.resizeUV coreId 0 sU1 s) :=
    sameWeights_resizeUV
  rw [resizeUV_sUV, hweightX, hwy0, hwy1]
  rcases (by omega : p = 0 ∨ p = 1) with rfl | rfl
  · simp only [uvPlace, Nat.zero_ne_one, if_false]
    rw [resize_eq h hs hw (by omega) hx]
    refine blend_congr ?_ ?_
    · refine blendX_congr hs (fun i hi => ?_) hx
      rw [resizeUV_sUV]
      exact resize_of_ge (by omega) (by omega)
    · refine blendX_congr hs (fun i hi => ?_) hx
      rw [resizeUV_sUV]
      exact resize_of_ge (by omega) (by omega)
  · simp only [uvPlace, if_true, Nat.zero_add]
    rw [resize_of_lt (by omega) (by omega), resizeUV_sUV, resize_zero_eq h hs hw hdst hx]

theorem compute_sUV (h : k.launch.colseg = 0) (hs : Shrinks k.sCol k.dCol)
    (hw : k.HasWeights s.weightX) (hp : p < 2) (hx : x < k.dCol) :
    (k.compute coreId parityC s).sUV ((uvPlace p).1 + x) = k.blend (s.wy0 coreId) (s.wy1 coreId)
      (k.blendX (k.srcChroma s parityC 2 p) x) (k.blendX (k.srcChroma s parityC 3 p) x) := by
  obtain ⟨hweightX, hwy0, hwy1⟩ :
      SameWeights s (k.resizeLine coreId (k.chroma (k.convert parityC s))) :=
    sameWeights_convert.trans (sameWeights_chroma.trans sameWeights_resizeLine)
  simp only [compute, keepFirst_sUV]
  rw [resizeUV_both h hs (by rwa [hweightX]) hp hx, hwy0, hwy1]
  simp only [resizeLine_sUV]
  rw [blendX_congr hs (fun i hi => (chroma_convert h hp hi).1) hx,
    blendX_congr hs (fun i hi => (chroma_convert h hp hi).2) hx]

/-- The chroma of the first of two rows is kept for the second one. -/
theorem compute_first (h : k.launch.colseg = 0) (hs : Shrinks k.sCol k.dCol) (hx : x < k.dCol) :
    (k.compute coreId true s).suR x = (k.compute coreId true s).sUV x ∧
      (k.compute coreId true s).svR x = (k.compute coreId true s).sUV (sV0 + x) := by
  have hx' : x < k.dstDealNum := hx.trans_le (le_dstDealNum h hs)
  simp only [compute, keepFirst_sUV]
  generalize k.resizeUV coreId sV0 sV1 _ = t
  unfold keepFirst
  simp [copyTo_zero hx']

theorem compute_second : (k.compute coreId false s).suR = s.suR ∧
    (k.compute coreId false s).svR = s.svR := by
  have hresize {c a b : Nat} {s : Nram} : (k.resizeUV c a b s).suR = s.suR ∧
      (k.resizeUV c a b s).svR = s.svR := by
    simp only [resizeUV, and_self]
  have hline {c : Nat} {s : Nram} : (k.resizeLine c s).suR = s.suR ∧
      (k.resizeLine c s).svR = s.svR := by
    simp only [resizeLine, and_self]
  have hspread {mask : Nat → Bool} {a b : Nat} {s : Nram} : (k.spread mask a b s).suR = s.suR ∧
      (k.spread mask a b s).svR = s.svR := by
    simp only [spread, and_self]
  simp only [compute, keepFirst, chroma, Bool.false_eq_true, if_false, hresize, hline, hspread,
    convert, and_self]

end Compute

/-! ## Two rows -/

/-- The mean of four, in halfs, as `computeUV` has it. -/
def mean (k : Kernel) (f : Nat → ℚ) (q : Nat) : ℚ :=
  k.half.round (k.half.round
    ⌊k.half.round (k.half.round (f (2 * q) + f (2 * q + 1)) * (1 / 4))⌋)

section Pair

variable {s : Nram} {p q : Nat}

/-- A chroma of both rows, column by column. -/
def pairSum (k : Kernel) (s : Nram) (p x : Nat) : ℚ :=
  if p = 1 then k.half.round (s.suR x + s.sUV x) else k.half.round (s.svR x + s.sUV (sV0 + x))

theorem addRows_eq {x : Nat} (hx : x < k.dstDealNum) :
    (k.addRows s).suR x = k.pairSum s 1 x ∧ (k.addRows s).svR x = k.pairSum s 0 x := by
  simp [addRows, pairSum, copyTo_zero hx]

theorem splitColumns_odd (hm : k.dstDealNum ≤ sU1) (hq : 2 * q + 1 < k.dstDealNum) :
    (k.splitColumns s).sUV q = s.suR (2 * q + 1) ∧
      (k.splitColumns s).sUV (sV0 + q) = s.svR (2 * q + 1) := by
  obtain ⟨hseg, hV0, hV1⟩ := place_bounds
  have hsel := selected_uv (p := 1) (n := k.dstDealNum) (q := q) (by decide) (by omega)
  have hu := bangCollect_add hsel 0 s.suR s.sUV
  rw [Nat.zero_add] at hu
  unfold splitColumns
  dsimp only
  constructor
  · rw [bangCollect_of_lt (by omega), bangCollect_of_lt (by omega), bangCollect_of_lt (by omega)]
    exact hu
  · rw [bangCollect_of_lt (by omega), bangCollect_of_ge (by omega)]
    exact bangCollect_add hsel sV0 _ _

theorem splitColumns_even (hm : k.dstDealNum ≤ sU1) (hq : 2 * q < k.dstDealNum) :
    (k.splitColumns s).sUV (sU1 + q) = s.suR (2 * q) ∧
      (k.splitColumns s).sUV (sV1 + q) = s.svR (2 * q) := by
  obtain ⟨hseg, hV0, hV1⟩ := place_bounds
  have hsel := selected_uv (p := 0) (n := k.dstDealNum) (q := q) (by decide) (by omega)
  unfold splitColumns
  dsimp only
  constructor
  · rw [bangCollect_of_lt (by omega)]
    exact bangCollect_add hsel sU1 _ _
  · exact bangCollect_add hsel sV1 _ _

theorem average_eq (hq : q < k.padUvR) :
    (k.average s).sUV q =
      k.half.round (k.half.round (s.sUV (sU1 + q) + s.sUV q) * (1 / 4)) ∧
    (k.average s).sUV (sV0 + q) =
      k.half.round (k.half.round (s.sUV (sV1 + q) + s.sUV (sV0 + q)) * (1 / 4)) := by
  obtain ⟨hseg, hV0, hV1⟩ := place_bounds
  have hle := k.padUvR_bounds.2
  unfold average
  dsimp only
  constructor
  · rw [copyTo_of_lt (by omega), copyTo_zero hq, copyTo_zero hq]
  · rw [copyTo_add hq, copyTo_zero hq]

theorem interleave_eq (hp : p < 2) (hq : 2 * q + p < k.dstDealNum) :
    (k.interleave s).suR (2 * q + p) =
      k.half.round (k.half.round ⌊s.sUV ((uvPlace p).1 + q)⌋) := by
  have hpad := k.padUvR_bounds.1
  have hdiv : (2 * q + p) / 2 = q := by omega
  have hmod : (2 * q + p) % 2 = p := by omega
  unfold interleave
  dsimp only
  rw [copyTo_zero hq, copyTo_zero (by omega), copyTo_zero (by omega), convHalf_eq, convHalf_eq, hdiv,
    hmod]
  rcases (by omega : p = 0 ∨ p = 1) with rfl | rfl <;> simp [uvPlace, round_zero]

theorem sameWeights_computeUV : SameWeights s (k.computeUV s) := by
  constructor <;> simp only [computeUV, interleave, average, splitColumns, addRows]

theorem computeUV_eq (h : k.launch.colseg = 0) (hs : Shrinks k.sCol k.dCol) (hp : p < 2)
    (hq : 2 * q + 1 < k.dCol) :
    (k.computeUV s).suR (2 * q + p) = k.mean (k.pairSum s p) q := by
  have hdst : k.dstDealNum ≤ sU1 :=
    (dstDealNum_le hs).trans (k.srcDealNum_le.trans place_bounds.1)
  have hle := le_dstDealNum h hs
  have hpad := k.padUvR_bounds.1
  have havg := average_eq (s := k.splitColumns (k.addRows s)) (show q < k.padUvR by omega)
  obtain ⟨hu, hv⟩ := splitColumns_odd (s := k.addRows s) hdst (show 2 * q + 1 < _ by omega)
  obtain ⟨hu', hv'⟩ := splitColumns_even (s := k.addRows s) hdst (show 2 * q < _ by omega)
  rw [hu, hu', hv, hv', (addRows_eq (by omega)).1, (addRows_eq (by omega)).1,
    (addRows_eq (by omega)).2, (addRows_eq (by omega)).2] at havg
  rw [computeUV, interleave_eq hp (by omega), mean]
  rcases (by omega : p = 0 ∨ p = 1) with rfl | rfl
  · simp only [uvPlace, Nat.zero_ne_one, if_false, havg.2]
  · simp only [uvPlace, if_true, Nat.zero_add, havg.1]

end Pair

end ResizeYuv420sp.Kernel

end CambriconGst.Easybang
