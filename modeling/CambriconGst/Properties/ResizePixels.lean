import CambriconGst.Easybang.ResizePixels
import CambriconGst.Properties.ResizeColor

/-!
# A line of the destination in the buffers

* `loadLines_y`, `loadLines_uv`: what is loaded for the two lines of the source
* `Columns.interp_eq`: the blending of the two lines, each of which is blended along its columns
-/

namespace CambriconGst.Easybang

open Lib

/-! ## Sizes -/

theorem le_padUp (x : Nat) {y : Nat} (hy : 0 < y) : x ≤ padUp x y := by
  have hdiv := Nat.div_add_mod' x y
  have hmod := Nat.mod_lt x hy
  unfold padUp
  rw [Nat.add_mul]
  split <;> omega

theorem padUp_of_dvd {x y : Nat} (h : y ∣ x) : padUp x y = x := by
  have hmod : ¬x % y > 0 := by
    rw [Nat.mod_eq_zero_of_dvd h]
    exact Nat.lt_irrefl 0
  rw [padUp, if_neg hmod, Nat.add_zero, Nat.div_mul_cancel h]

theorem yuvNumPad_spec (n : Nat) : ∃ k, yuvNumPad n = 16 * k ∧ n ≤ 16 * k := by
  obtain ⟨k, hk⟩ : halfPadSize ∣ padUp (n * channel) halfPadSize := Nat.dvd_mul_left _ _
  have hle := le_padUp (n * channel) (y := halfPadSize) (by decide)
  unfold yuvNumPad
  rw [hk] at hle ⊢
  simp only [channel, halfPadSize] at hle ⊢
  exact ⟨k, by omega, by omega⟩

theorem le_yuvNumPad (n : Nat) : n ≤ yuvNumPad n := by
  obtain ⟨k, hk, hle⟩ := yuvNumPad_spec n
  rwa [hk]

theorem yuv2lineNumPad_eq (n : Nat) : yuv2lineNumPad n = 2 * yuvNumPad n := by
  obtain ⟨k, hk, -⟩ := yuvNumPad_spec n
  rw [yuv2lineNumPad, padUp_of_dvd, Nat.mul_comm]
  rw [hk]
  exact ⟨k, by simp only [ci]; omega⟩

theorem ci_dvd_yuv2lineNumPad (n : Nat) : ci ∣ yuv2lineNumPad n :=
  Dvd.intro_left _ rfl

theorem le_weightNumPad (n : Nat) : n * 4 ≤ weightNumPad n :=
  le_padUp _ (by decide)

/-! ## What is loaded -/

section Load

variable {source : Source} {roi : SrcRoi} {q : ℚ} {ch : Chunk} {j : Nat}

/-- The first line, or the second one. -/
def SrcRoi.yH (roi : SrcRoi) (q : ℚ) (second : Bool) : Int :=
  if second then roi.y2H q else roi.y1H q

/-- The place of a line in the buffers. -/
def lineAt (ch : Chunk) (second : Bool) : Nat :=
  if second then yuvNumPad ch.loadNum else 0

theorem lineAt_le (ch : Chunk) (second : Bool) : lineAt ch second ≤ yuvNumPad ch.loadNum := by
  unfold lineAt
  split <;> omega

theorem lineAt_even (ch : Chunk) (second : Bool) : lineAt ch second % 2 = 0 := by
  obtain ⟨k, hk, -⟩ := yuvNumPad_spec ch.loadNum
  unfold lineAt
  split <;> omega

/-- A slot of a line that was expanded is one of its pixel. -/
theorem expand_line {k p s c : Nat} {log : List (Write Datum)} {rgba : Nat → ℚ} (hk : 0 < k)
    (hfilter : loadsCopyFilter k → ∀ o < copyFilterBytes k,
      load log (p + o) 1 = load (copyFilterWrites k 0) o 1)
    (hhalf : ∀ i, rgba i ∈ binary16.magnitudes) (hs : s < k * ch.loadNum) (hc : c < 4)
    (second : Bool) (stale : Nat → ℚ) :
    expand k (2 * yuvNumPad ch.loadNum) log p stale rgba
        ((if second then yuvNumPad ch.loadNum * channel * k else 0) + (4 * s + c)) =
      rgba (4 * (lineAt ch second + s / k) + c) := by
  have hindex : (if second then yuvNumPad ch.loadNum * channel * k else 0) + (4 * s + c)
      = 4 * (lineAt ch second * k + s) + c := by
    unfold lineAt
    simp only [channel]
    cases second
    · simp
    · simp only [if_true]
      ring
  have hslot : lineAt ch second * k + s < k * (2 * yuvNumPad ch.loadNum) := by
    have hle : s < k * yuvNumPad ch.loadNum := hs.trans_le (Nat.mul_le_mul_left _ (le_yuvNumPad _))
    have hline := Nat.mul_le_mul_left k (lineAt_le ch second)
    rw [Nat.two_mul, Nat.mul_add, Nat.mul_comm _ k]
    exact Nat.add_lt_add_of_le_of_lt hline hle
  have hdiv : (4 * (lineAt ch second * k + s) + c) / (4 * k) = lineAt ch second + s / k := by
    rw [← Nat.div_div_eq_div_mul, Nat.mul_add_div (by decide), Nat.div_eq_of_lt hc, Nat.add_zero,
      Nat.mul_comm (lineAt ch second), Nat.mul_add_div hk]
  have hmod : (4 * (lineAt ch second * k + s) + c) % 4 = c := by omega
  rw [hindex, expand_eq hk hfilter hhalf (by rw [Nat.mul_assoc]; omega), hdiv, hmod, Nat.mul_comm _ 4]

theorem loadLines_y (hstore : 0 < ch.storeNum) (hj : j < ch.loadNum) (second : Bool)
    (stale : Nat → UInt8) :
    loadLines source roi q ch stale (lineAt ch second + j) =
      source.plane .y (ch.column + roi.rowOffset (roi.yH q second) + j) := by
  have hle := le_yuvNumPad ch.loadNum
  unfold loadLines SrcRoi.chunkLoads lineAt SrcRoi.yH
  rw [yuv2lineNumPad_eq]
  generalize yuvNumPad ch.loadNum = n at hle ⊢
  cases second
  · have hfirst : ¬n ≤ j := by omega
    have huv : ¬2 * n ≤ j := by omega
    have huv' : ¬2 * n + n ≤ j := by omega
    simp [hstore, copyTo, hj, hfirst, huv, huv']
  · have huv : ¬2 * n + n ≤ n + j := by omega
    simp [hstore, copyTo, hj, huv]

theorem loadLines_uv (hstore : 0 < ch.storeNum) (hj : j < ch.loadNum) (second : Bool)
    (stale : Nat → UInt8) :
    loadLines source roi q ch stale (yuv2lineNumPad ch.loadNum + lineAt ch second + j) =
      source.plane .uv (ch.column + roi.rowOffset ((roi.yH q second).tdiv 2) + j) := by
  have hle := le_yuvNumPad ch.loadNum
  unfold loadLines SrcRoi.chunkLoads lineAt SrcRoi.yH
  rw [yuv2lineNumPad_eq]
  generalize yuvNumPad ch.loadNum = n at hle ⊢
  cases second
  · have hy : ¬(n ≤ 2 * n + j ∧ 2 * n + j < n + ch.loadNum) := by omega
    have huv : ¬2 * n + n ≤ 2 * n + j := by omega
    have hsub : 2 * n + j - 2 * n = j := by omega
    simp [hstore, copyTo, hj, hy, huv, hsub]
  · have hsub : 2 * n + n + j - (2 * n + n) = j := by omega
    have hin : 2 * n + n ≤ 2 * n + n + j ∧ 2 * n + n + j < 2 * n + n + ch.loadNum := by omega
    simp [hstore, copyTo, hin, hsub]

end Load

/-! ## Channels of pixels -/

/-- The elements of groups that are chosen. -/
theorem filter_range_groups (q : Nat → Bool) (n : Nat) :
    (List.range (4 * n)).filter (fun e => q (e / 4)) =
      ((List.range n).filter q).flatMap fun s => (List.range 4).map (4 * s + ·) := by
  induction n with
  | zero => rfl
  | succ n ih =>
    have hgroup : ((List.range 4).map (4 * n + ·)).filter (fun e => q (e / 4)) =
        if q n then (List.range 4).map (4 * n + ·) else [] := by
      have hdiv : ∀ c ∈ List.range 4, q ((4 * n + c) / 4) = q n := fun c hc => by
        have hlt := List.mem_range.mp hc
        congr 1
        omega
      rw [List.filter_map]
      split
      · next hq =>
        rw [List.filter_eq_self.mpr fun c hc => by simpa [hdiv c hc] using hq]
      · next hq =>
        rw [List.filter_eq_nil_iff.mpr fun c hc => by simpa [hdiv c hc] using hq]
        rfl
    have hsucc : (List.range (n + 1)).filter q =
        (List.range n).filter q ++ if q n then [n] else [] := by
      rw [List.range_succ, List.filter_append, List.filter_singleton, Bool.cond_eq_ite]
    rw [Nat.mul_succ, List.range_add, List.filter_append, ih, hgroup, hsucc, List.flatMap_append]
    congr 1
    cases q n
    · rfl
    · simp

theorem getElem?_groups (l : List Nat) (j : Nat) {c : Nat} (hc : c < 4) :
    (l.flatMap fun s => (List.range 4).map (4 * s + ·))[4 * j + c]? = l[j]?.map (4 * · + c) := by
  induction l generalizing j with
  | nil => rfl
  | cons s l ih =>
    rw [List.flatMap_cons]
    cases j with
    | zero =>
      rw [List.getElem?_append_left (by simpa using hc)]
      simp [List.getElem?_range hc]
    | succ j =>
      have hlen : ((List.range 4).map (4 * s + ·)).length = 4 := by simp
      rw [List.getElem?_append_right (by rw [hlen]; omega), hlen, List.getElem?_cons_succ, ← ih]
      congr 1
      omega

/-! ## What is collected -/

theorem copyTo_of_lt {V : Type} {dst n i : Nat} {src buffer : Nat → V} (h : i < dst) :
    copyTo dst n src buffer i = buffer i :=
  if_neg fun hin => absurd hin.1 (not_le.mpr h)

theorem bangCollect_of_lt {dst n i : Nat} {src buffer : Nat → ℚ} {mask : Nat → Bool} (h : i < dst) :
    bangCollect dst src mask n buffer i = buffer i := by
  unfold bangCollect
  exact copyTo_of_lt h

theorem bangCollect_add {n e x : Nat} {mask : Nat → Bool}
    (h : ((List.range n).filter mask)[e]? = some x) (dst : Nat) (src buffer : Nat → ℚ) :
    bangCollect dst src mask n buffer (dst + e) = src x := by
  have hlt := (List.getElem?_eq_some_iff.mp h).1
  have hin : dst ≤ dst + e ∧ dst + e < dst + (((List.range n).filter mask).map src).length := by
    rw [List.length_map]
    omega
  unfold bangCollect copyTo
  dsimp only
  rw [if_pos hin, Nat.add_sub_cancel_left, List.getD_eq_getElem?_getD, List.getElem?_map, h]
  rfl

namespace Columns

variable {c : Columns} {ch : Chunk} {j i slot : Nat}

theorem collect_eq_map (c : Columns) (m : Mask) (ch : Chunk) :
    c.collect m ch = ((List.range (c.mult * ch.loadNum)).filter fun s =>
      c.group m (c.mult * ch.maskColumn + s)).map (c.mult * ch.maskColumn + ·) := by
  rw [collect, List.range'_eq_map_range, List.filter_map]
  rfl

/-- The elements of a slot that is collected. -/
theorem maskNram_collected {m : Mask} (h : (c.collect m ch)[j]? = some slot) (hi : i < 4)
    (stale : Nat → Bool) : ∃ s < c.mult * ch.loadNum, slot = c.mult * ch.maskColumn + s ∧
      ((List.range (padUp (c.mult * channel * ch.loadNum) halfPadSize)).filter
        (c.maskNram ch stale m))[4 * j + i]? = some (4 * s + i) := by
  rw [collect_eq_map, List.getElem?_map, Option.map_eq_some_iff] at h
  obtain ⟨s, hs, rfl⟩ := h
  have hmem := List.mem_filter.mp (List.mem_of_getElem? hs)
  refine ⟨s, List.mem_range.mp hmem.1, rfl, ?_⟩
  have hnum : c.mult * channel * ch.loadNum = 4 * (c.mult * ch.loadNum) := by
    simp only [channel]
    rw [Nat.mul_right_comm, Nat.mul_comm]
  obtain ⟨rest, hrest⟩ := Nat.exists_eq_add_of_le
    (le_padUp (4 * (c.mult * ch.loadNum)) (y := halfPadSize) (by decide))
  have hfirst : (List.range (4 * (c.mult * ch.loadNum))).filter (c.maskNram ch stale m) =
      (List.range (4 * (c.mult * ch.loadNum))).filter fun e =>
        (fun s => c.group m (c.mult * ch.maskColumn + s)) (e / 4) := by
    refine List.filter_congr fun e he => ?_
    unfold maskNram
    rw [hnum, if_pos (List.mem_range.mp he)]
    rfl
  have hget : ((List.range (4 * (c.mult * ch.loadNum))).filter (c.maskNram ch stale m))[4 * j + i]?
      = some (4 * s + i) := by
    rw [hfirst, filter_range_groups fun s => c.group m (c.mult * ch.maskColumn + s),
      getElem?_groups _ _ hi, hs]
    rfl
  rw [hnum, hrest, List.range_add, List.filter_append,
    List.getElem?_append_left (List.getElem?_eq_some_iff.mp hget).1, hget]

/-! ## What is interpolated -/

/-- The part of `select_rgba_nram` for a line and a mask. -/
def selectPart (second : Bool) : Mask → Nat
  | .left => if second then 2 else 0
  | .right => if second then 3 else 1

theorem weightNram_left (c : Columns) (hj : j < ch.storeNum) (hi : i < 4) (stale : Nat → ℚ) :
    c.weightNram ch stale (4 * j + i) = c.weight .left (ch.weight + j) := by
  have hle := le_weightNumPad ch.storeNum
  have hdiv : (4 * j + i) / 4 = j := by omega
  have hin : 4 * j + i < ch.storeNum * 4 := by omega
  unfold weightNram
  rw [copyTo_of_lt (by omega)]
  simp [copyTo, channel, hdiv, hin]

theorem weightNram_right (c : Columns) (hj : j < ch.storeNum) (hi : i < 4) (stale : Nat → ℚ) :
    c.weightNram ch stale (weightNumPad ch.storeNum + (4 * j + i)) =
      c.weight .right (ch.weight + j) := by
  have hdiv : (4 * j + i) / 4 = j := by omega
  have hin : 4 * j + i < ch.storeNum * 4 := by omega
  simp [weightNram, copyTo, channel, hdiv, hin]

/-- The channel of a pixel that is in the part for a line and a mask. -/
theorem selectRgba_of_collected {m : Mask} (h : (c.collect m ch)[j]? = some slot)
    (hj : j < ch.storeNum) (hi : i < 4) (b : Buffers) (src : Nat → ℚ) (second : Bool) :
    ∃ s < c.mult * ch.loadNum, slot = c.mult * ch.maskColumn + s ∧
      c.selectRgba ch b src (selectPart second m * weightNumPad ch.storeNum + (4 * j + i)) =
        src ((if second then yuvNumPad ch.loadNum * channel * c.mult else 0) + (4 * s + i)) := by
  have hle := le_weightNumPad ch.storeNum
  obtain ⟨s, hs, hslot, hget⟩ := maskNram_collected h hi b.maskRight
  refine ⟨s, hs, hslot, ?_⟩
  unfold selectRgba selectPart
  cases m with
  | left =>
    cases second with
    | false =>
      simp only [Bool.false_eq_true, if_false, Nat.zero_mul]
      rw [bangCollect_of_lt (by omega), bangCollect_of_lt (by omega), bangCollect_of_lt (by omega),
        bangCollect_add hget, Nat.zero_add]
    | true =>
      simp only [if_true]
      rw [bangCollect_of_lt (by omega), bangCollect_add hget]
  | right =>
    cases second with
    | false =>
      simp only [Bool.false_eq_true, if_false, Nat.one_mul]
      rw [bangCollect_of_lt (by omega), bangCollect_of_lt (by omega), bangCollect_add hget,
        Nat.zero_add]
    | true =>
      simp only [if_true]
      rw [bangCollect_add hget]

end Columns

namespace HalfUnit

/-- A pixel of a line before the lines are blended: what is left of the left and the right value. -/
def weigh (u : HalfUnit) (left w right w' : ℚ) : ℚ × ℚ :=
  (u.round (left * w), u.round (right * w'))

/-- What becomes of the pixels of the two lines. -/
def blendLines (u : HalfUnit) (hWeight1 : ℚ) (p p' : ℚ × ℚ) : ℚ :=
  let w := u.round (u.round (1 - hWeight1) * 4)
  let w' := u.round (hWeight1 * 4)
  u.average [u.round (p.1 * w), u.round (p.2 * w), u.round (p'.1 * w'), u.round (p'.2 * w')]

end HalfUnit

/--
**The two lines are blended, each after its columns are.** What is in the buffers where nothing is
selected is what the pixels of the lines take from there.
-/
theorem Columns.interp_eq {c : Columns} {ch : Chunk} {j i : Nat} (hmult : 0 < c.mult)
    (hj : j < ch.storeNum) (hi : i < 4) (u : HalfUnit) (b : Buffers) (hWeight1 : ℚ)
    {src : Nat → ℚ} {line : Bool → Nat → ℚ}
    (hsrc : ∀ second, ∀ s < c.mult * ch.loadNum,
      src ((if second then yuvNumPad ch.loadNum * channel * c.mult else 0) + (4 * s + i)) =
        line second (ch.column + s / c.mult)) :
    ∃ stale : Bool → Mask → Nat → ℚ, c.interp u ch b hWeight1 src (4 * j + i) =
      u.blendLines hWeight1 (c.pixelOf u.weigh (line false) (stale false) ch j)
        (c.pixelOf u.weigh (line true) (stale true) ch j) := by
  let part (second : Bool) (m : Mask) : ℚ :=
    c.selectRgba ch b src (selectPart second m * weightNumPad ch.storeNum + (4 * j + i))
  have hpart (second : Bool) (m : Mask) :
      part second m = c.selected (line second) (fun m _ => part second m) ch m j := by
    unfold selected
    cases h : (c.collect m ch)[j]? with
    | none => rfl
    | some slot =>
      obtain ⟨s, hs, rfl, hselect⟩ := selectRgba_of_collected h hj hi b src second
      dsimp only
      rw [Nat.mul_add_div hmult, Nat.add_sub_cancel_left, ← hsrc second s hs]
      exact hselect
  refine ⟨fun second m _ => part second m, ?_⟩
  have hle := le_weightNumPad ch.storeNum
  have hleft := c.weightNram_left hj hi b.weight
  have hright := c.weightNram_right hj hi b.weight
  unfold pixelOf
  rw [← hpart false .left, ← hpart false .right, ← hpart true .left, ← hpart true .right]
  unfold interp HalfUnit.bangAvgpool
  dsimp only [part, selectPart]
  generalize weightNumPad ch.storeNum = n at hle hright ⊢
  have hsub2 : 2 * n + (4 * j + i) - 2 * n = 4 * j + i := by omega
  have hsub3 : 3 * n + (4 * j + i) - 2 * n = n + (4 * j + i) := by omega
  have hin0 : 0 * n + (4 * j + i) < 2 * n := by omega
  have hin1 : 1 * n + (4 * j + i) < 2 * n := by omega
  have hout2 : ¬2 * n + (4 * j + i) < 2 * n := by omega
  have hout3 : ¬3 * n + (4 * j + i) < 2 * n := by omega
  have hrange : List.range 4 = [0, 1, 2, 3] := rfl
  rw [hrange]
  simp only [List.map_cons, List.map_nil]
  rw [if_pos hin0, if_pos hin1, if_neg hout2, if_neg hout3, hsub2, hsub3]
  simp only [Bool.false_eq_true, if_false, if_true, Nat.zero_mul, Nat.one_mul, Nat.zero_add, hleft,
    hright, HalfUnit.blendLines, HalfUnit.weigh]

end CambriconGst.Easybang
