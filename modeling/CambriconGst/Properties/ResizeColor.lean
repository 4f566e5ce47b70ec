import CambriconGst.Easybang.ResizeColor
import CambriconGst.Properties.Half
import CambriconGst.Properties.ResizeCopyFilter

/-!
# Conversion and expansion of the lines

* `yuv2rgba_eq`: the filter for the colours gives each channel of each pixel
* `expand_eq`: the expansion repeats each pixel, with the copy filter as well as by copies
* `expanded_slot`: both, with the tables of the host
-/

namespace CambriconGst.Easybang

open Lib

/-! ## The filter for the colours -/

namespace ColorMode

variable (m : ColorMode)

/-- The kernel `o`, from where its row starts. -/
def kernel (o : Nat) : List (Nat × Int) :=
  let first := ci + o / 4 / 2 * 2
  [(o / 4, m.termY (o % 4)),
    (if m.reverseChannel then first + 1 else first, m.termU (o % 4)),
    (if m.reverseChannel then first else first + 1, m.termV (o % 4))]

theorem kernel_lt {o : Nat} (ho : o < co) : ∀ w ∈ m.kernel o, w.1 < 2 * ci := by
  intro w hw
  simp only [kernel, co, ci, List.mem_cons, List.not_mem_nil, or_false] at hw ho ⊢
  rcases hw with rfl | rfl | rfl
  · dsimp only
    omega
  · dsimp only
    split <;> omega
  · dsimp only
    split <;> omega

theorem kernel_nodup (o : Nat) : ((m.kernel o).map Prod.fst).Nodup := by
  simp only [kernel, ci, List.map_cons, List.map_nil]
  cases m.reverseChannel <;> simp <;> omega

theorem filterWrites_eq (lt idx : Nat) :
    m.filterWrites lt idx = (m.kernel (idx * ltNum + lt)).map fun w =>
      ((lt * 2 + idx) * (2 * ci) + w.1, w.2) := by
  have hc : (idx * 64 + lt) % 4 = lt % 4 := by omega
  have hfirst : (lt * 128 / 64 + idx) * (2 * 32) + (idx * 64 + lt) / 4 + 32 - lt / 4 % 2 =
      (lt * 2 + idx) * (2 * 32) + (32 + (idx * 64 + lt) / 4 / 2 * 2) := by
    omega
  have hrow : lt * 128 / 64 = lt * 2 := by omega
  unfold filterWrites kernel
  simp only [ci, co, ltNum]
  rw [hfirst, hrow, hc]
  cases m.reverseChannel <;> simp [Nat.add_assoc]

/-- The row of a kernel. -/
theorem yuvFilter_row {o t : Nat} (ho : o < co) (ht : t < 2 * ci) :
    m.yuvFilter (ltRow co o * (2 * ci) + t) = writeCells (fun _ => 0) (m.kernel o) t := by
  have hlt : o % ltNum < ltNum := Nat.mod_lt o (by decide)
  have hidx : o / ltNum < co / ltNum := Nat.div_lt_of_lt_mul (by simpa [co, ltNum] using ho)
  have houtside {lt idx : Nat} (hlt : lt < ltNum) (hidx : idx < co / ltNum)
      (hne : lt * 2 + idx ≠ ltRow co o) :
      ∀ w ∈ m.filterWrites lt idx, w.1 ≠ ltRow co o * (2 * ci) + t := by
    intro w hw he
    rw [m.filterWrites_eq] at hw
    obtain ⟨w', hw', rfl⟩ := List.mem_map.mp hw
    have hmem := m.kernel_lt (o := idx * ltNum + lt) (by simp only [co, ltNum] at *; omega) w' hw'
    dsimp only at he
    simp only [ci] at he hmem ht
    omega
  have hrow : ltRow co o = o % ltNum * 2 + o / ltNum := rfl
  rw [yuvFilter, writeCells_flatMap List.nodup_range (List.mem_range.mpr hlt)]
  · rw [writeCells_flatMap List.nodup_range (List.mem_range.mpr hidx)]
    · have ho' : o / ltNum * ltNum + o % ltNum = o := Nat.div_add_mod' o ltNum
      rw [m.filterWrites_eq, ho', hrow]
      exact writeCells_map_add _ _ _
    · intro idx hmem hne
      refine houtside hlt (List.mem_range.mp hmem) ?_
      rw [hrow]
      omega
  · intro lt hmem hne w hw
    obtain ⟨idx, hmem', hw⟩ := List.mem_flatMap.mp hw
    have hlt' := List.mem_range.mp hmem
    have hidx' := List.mem_range.mp hmem'
    refine houtside hlt' hidx' ?_ w hw
    rw [hrow]
    simp only [co, ltNum] at hidx hidx' hne ⊢
    omega

theorem yuvBias_eq (half : ℚ → ℚ) {o : Nat} (ho : o < co) :
    m.yuvBias half o = m.biasTerm half (o % 4) := by
  have hlt : o % ltNum < ltNum := Nat.mod_lt o (by decide)
  have hidx : o / ltNum < co / ltNum := Nat.div_lt_of_lt_mul (by simpa [co, ltNum] using ho)
  refine writeCells_of_mem ?_ ?_
  · refine List.mem_flatMap.mpr ⟨_, List.mem_range.mpr hlt, List.mem_map.mpr
      ⟨_, List.mem_range.mpr hidx, ?_⟩⟩
    rw [Nat.div_add_mod', Nat.mod_mod_of_dvd o (by decide : 4 ∣ ltNum)]
  · intro w hw he
    obtain ⟨lt, hmem, hw⟩ := List.mem_flatMap.mp hw
    obtain ⟨idx, hmem', rfl⟩ := List.mem_map.mp hw
    have hlt' := List.mem_range.mp hmem
    simp only [ltNum] at he hlt'
    have hc : lt % 4 = o % 4 := by omega
    rw [hc]

/-- The first place of a pair of UV, for a pixel of a line of `n`. -/
def uvAt (n p : Nat) : Nat :=
  n + p / 2 * 2

theorem bangConv_yuvFilter {n i : Nat} (hn : ci ∣ n) (input : Nat → Int) :
    bangConv ci 2 (n / ci) co m.yuvFilter input i =
      input (i / 4) * m.termY (i % 4) +
      input (uvAt n (i / 4) + if m.reverseChannel then 1 else 0) * m.termU (i % 4) +
      input (uvAt n (i / 4) + if m.reverseChannel then 0 else 1) * m.termV (i % 4) := by
  obtain ⟨W, rfl⟩ := hn
  have ho : i % co < co := Nat.mod_lt i (by decide)
  rw [Nat.mul_div_cancel_left W (by decide : 0 < ci)]
  rw [bangConv, conv_eq (fun t ht => m.yuvFilter_row ho ht) (m.kernel_nodup _) (m.kernel_lt ho)]
  have hy : (i % 128 / 4 / 32 * W + i / 128) * 32 + i % 128 / 4 % 32 = i / 4 := by
    have hzero : i % 128 / 4 / 32 = 0 := by omega
    rw [hzero]
    omega
  have huv {r : Nat} (hr : r < 2) : ((32 + i % 128 / 4 / 2 * 2 + r) / 32 * W + i / 128) * 32 +
      (32 + i % 128 / 4 / 2 * 2 + r) % 32 = 32 * W + i / 4 / 2 * 2 + r := by
    have hone : (32 + i % 128 / 4 / 2 * 2 + r) / 32 = 1 := by omega
    rw [hone]
    omega
  have hc : i % 128 % 4 = i % 4 := by omega
  have huv0 := huv (r := 0) (by decide)
  have huv1 := huv (r := 1) (by decide)
  simp only [Nat.add_zero] at huv0
  unfold kernel uvAt
  simp only [ci, co, List.map_cons, List.map_nil, List.sum_cons, List.sum_nil, hc]
  cases m.reverseChannel with
  | false =>
    simp only [Bool.false_eq_true, if_false, hy, huv0, huv1, add_zero]
    exact (add_assoc _ _ _).symm
  | true =>
    simp only [if_true, hy, huv0, huv1, add_zero]
    exact (add_assoc _ _ _).symm

/-- A channel of a pixel, from Y, U and V. -/
def channelOf (half : Halves) (y u v : Nat) (c : Nat) : ℚ :=
  min (max (half.conv ((y * m.termY c + u * m.termU c + v * m.termV c) * 2 ^ 7)
    (m.biasTerm half.const c)) 0) 255

end ColorMode

theorem half2int16Rd_natCast (n : Nat) : half2int16Rd n = n * 2 ^ 7 := by
  have hcast : ((n : ℚ) * 2 ^ 7) = ((n * 2 ^ 7 : Int) : ℚ) := by push_cast; rfl
  rw [half2int16Rd, hcast, Int.floor_intCast]

/-- **Each channel of each pixel, from its own Y, U and V.** -/
theorem yuv2rgba_eq (m : ColorMode) (half : Halves) {n p c y u v : Nat} {yuv : Nat → ℚ}
    (hn : ci ∣ n) (hc : c < 4) (hy : yuv p = y)
    (hu : yuv (ColorMode.uvAt n p + if m.reverseChannel then 1 else 0) = u)
    (hv : yuv (ColorMode.uvAt n p + if m.reverseChannel then 0 else 1) = v) :
    yuv2rgba m half n yuv (4 * p + c) = m.channelOf half y u v c := by
  have hp : (4 * p + c) / 4 = p := by omega
  have hc' : (4 * p + c) % 4 = c := by omega
  have ho : (4 * p + c) % co % 4 = c := by simp only [co]; omega
  have hscale : (y : Int) * 2 ^ 7 * m.termY c + u * 2 ^ 7 * m.termU c + v * 2 ^ 7 * m.termV c
      = (y * m.termY c + u * m.termU c + v * m.termV c) * 2 ^ 7 := by
    ring
  unfold yuv2rgba
  dsimp only
  rw [m.bangConv_yuvFilter hn, hp, hc', hy, hu, hv, half2int16Rd_natCast, half2int16Rd_natCast,
    half2int16Rd_natCast, hscale, m.yuvBias_eq half.const (Nat.mod_lt _ (by decide)), ho]
  rfl

/-- What is converted is a half. -/
theorem yuv2rgba_isHalf (m : ColorMode) (half : Halves) (n : Nat) (yuv : Nat → ℚ) (i : Nat) :
    yuv2rgba m half n yuv i ∈ binary16.magnitudes := by
  have hmax : (255 : ℚ) ∈ binary16.magnitudes :=
    Format.mem_magnitudes.mpr ⟨0x5BF8, by decide, by decide +kernel⟩
  unfold yuv2rgba
  dsimp only
  generalize bangConv ci 2 (n / ci) co m.yuvFilter (fun j => half2int16Rd (yuv j)) i = sum
  rcases le_total 0 (half.conv sum (m.yuvBias half.const (i % co))) with hge | hle
  · rw [max_eq_left hge]
    rcases min_choice (half.conv sum (m.yuvBias half.const (i % co))) 255 with h | h <;> rw [h]
    · exact half.isHalf _ _ hge
    · exact hmax
  · rw [max_eq_right hle, min_eq_left (by norm_num)]
    exact binary16.zero_mem_magnitudes

/-! ## The copy filter -/

section CopyFilter

variable {mult o t : Nat}

/-- The place of the 1 in the kernel `o` of the copy filter. -/
def copyOffset (mult o : Nat) : Nat :=
  o / (mult * 4) * 4 + o % 4

theorem copyOffset_lt (hmult : 0 < mult) (ho : o < ltNum * mult) : copyOffset mult o < ltNum := by
  have hdiv : o / (mult * 4) < 16 := by
    rw [Nat.div_lt_iff_lt_mul (by omega)]
    simp only [ltNum] at ho
    omega
  unfold copyOffset
  simp only [ltNum]
  omega

theorem mem_copyFilterWrites {w : Write Datum} : w ∈ copyFilterWrites mult 0 ↔
    ∃ o < ltNum * mult, w = { offset := ltRow (ltNum * mult) o * ltNum + copyOffset mult o
                              size := 1, datum := .int8 1 } := by
  have hmul : ltNum * mult / ltNum = mult := Nat.mul_div_cancel_left mult (by decide)
  unfold copyFilterWrites copyOffset ltRow
  simp only [List.mem_flatMap, List.mem_map, List.mem_range, hmul, Nat.zero_add]
  constructor
  · rintro ⟨lt, hlt, idx, hidx, rfl⟩
    have hmod : (lt + idx * ltNum) % ltNum = lt := by
      rw [Nat.add_mul_mod_self_right, Nat.mod_eq_of_lt hlt]
    have hdiv : (lt + idx * ltNum) / ltNum = idx := by
      rw [Nat.add_mul_div_right _ _ (by decide), Nat.div_eq_of_lt hlt, Nat.zero_add]
    refine ⟨lt + idx * ltNum, ?_, by rw [hmod, hdiv]⟩
    simp only [ltNum] at hlt ⊢
    omega
  · rintro ⟨o, ho, rfl⟩
    refine ⟨o % ltNum, Nat.mod_lt o (by decide), o / ltNum, Nat.div_lt_of_lt_mul ho, ?_⟩
    rw [Nat.mod_add_div']

/-- The row of a kernel of the copy filter. -/
theorem filterByte_row (hmult : 0 < mult) (ho : o < ltNum * mult) (ht : t < ltNum) :
    filterByte (copyFilterWrites mult 0) (ltRow (ltNum * mult) o * ltNum + t) =
      writeCells (fun _ => 0) [(copyOffset mult o, 1)] t := by
  by_cases h : t = copyOffset mult o
  · subst h
    let w : Write Datum := { offset := ltRow (ltNum * mult) o * ltNum + copyOffset mult o
                             size := 1, datum := .int8 1 }
    have hload : load (copyFilterWrites mult 0) w.offset w.size = .datum w.datum := by
      refine load_eq_datum (mem_copyFilterWrites.mpr ⟨o, ho, rfl⟩) Nat.one_pos fun w' hw' hover => ?_
      obtain ⟨o', -, rfl⟩ := mem_copyFilterWrites.mp hw'
      unfold Write.Overlaps at hover
      have heq : ltRow (ltNum * mult) o' * ltNum + copyOffset mult o' =
          ltRow (ltNum * mult) o * ltNum + copyOffset mult o := by
        dsimp only [w] at hover
        omega
      rw [heq]
    unfold filterByte
    rw [hload]
    simp [writeCells, w]
  · have hload : load (copyFilterWrites mult 0) (ltRow (ltNum * mult) o * ltNum + t) 1 = .zero := by
      refine load_eq_zero fun w hw hover => h ?_
      obtain ⟨o', ho', rfl⟩ := mem_copyFilterWrites.mp hw
      have hlt := copyOffset_lt hmult ho'
      unfold Write.Overlaps at hover
      dsimp only at hover
      -- both rows are of `ltNum` bytes, and the rows of the kernels are apart
      have heq : ltRow (ltNum * mult) o' = ltRow (ltNum * mult) o ∧ copyOffset mult o' = t := by
        simp only [ltNum] at *
        omega
      have hoo : o' = o := by
        have hrow := heq.1
        unfold ltRow at hrow
        rw [Nat.mul_div_cancel_left mult (by decide : 0 < ltNum)] at hrow
        have hmod : o' % ltNum = o % ltNum := by
          have hdiv := congrArg (· / mult) hrow
          simpa only [Nat.mul_comm _ mult, Nat.mul_add_div hmult,
            Nat.div_eq_of_lt (Nat.div_lt_of_lt_mul ho), Nat.add_zero,
            Nat.div_eq_of_lt (Nat.div_lt_of_lt_mul ho')] using hdiv
        rw [hmod] at hrow
        rw [← Nat.mod_add_div' o' ltNum, ← Nat.mod_add_div' o ltNum, hmod,
          Nat.add_left_cancel hrow]
      rw [← heq.2, hoo]
    unfold filterByte
    rw [hload]
    simp [writeCells, h]

theorem copy_index (mult i : Nat) :
    i / (ltNum * mult) * ltNum + copyOffset mult (i % (ltNum * mult)) = i / (4 * mult) * 4 + i % 4 := by
  have hsplit : ltNum * mult = 4 * mult * 16 := by simp only [ltNum]; omega
  have hmod : i % (ltNum * mult) % 4 = i % 4 :=
    Nat.mod_mod_of_dvd i ⟨16 * mult, by simp only [ltNum]; omega⟩
  have hdiv : i % (ltNum * mult) / (mult * 4) = i / (4 * mult) % 16 := by
    rw [hsplit, Nat.mul_comm mult 4, Nat.mod_mul_right_div_self]
  have hdiv' : i / (ltNum * mult) = i / (4 * mult) / 16 := by
    rw [hsplit, Nat.div_div_eq_div_mul]
  unfold copyOffset
  rw [hmod, hdiv, hdiv']
  simp only [ltNum]
  omega

theorem bangConv_copyFilter {filter : Nat → Int} (hmult : 0 < mult)
    (hfilter : ∀ a < copyFilterBytes mult, filter a = filterByte (copyFilterWrites mult 0) a)
    (W : Nat) (input : Nat → Int) (i : Nat) :
    bangConv ltNum 1 W (ltNum * mult) filter input i = input (i / (4 * mult) * 4 + i % 4) := by
  have hpos : 0 < ltNum * mult := Nat.mul_pos (by decide) hmult
  have ho := Nat.mod_lt i hpos
  have hoffset := copyOffset_lt hmult ho
  have hws : ([(copyOffset mult (i % (ltNum * mult)), 1)].map (Prod.fst : Nat × Int → Nat)).Nodup := by
    simp
  refine (conv_eq (fun t ht => ?_) hws (by simpa using hoffset)).trans ?_
  · rw [Nat.one_mul] at ht ⊢
    rw [hfilter, filterByte_row hmult ho ht]
    have hrow : ltRow (ltNum * mult) (i % (ltNum * mult)) < ltNum * mult := by
      have hlt := Nat.mod_lt (i % (ltNum * mult)) (by decide : 0 < ltNum)
      have hdiv := Nat.div_lt_of_lt_mul ho
      unfold ltRow
      rw [Nat.mul_div_cancel_left mult (by decide : 0 < ltNum)]
      calc i % (ltNum * mult) % ltNum * mult + i % (ltNum * mult) / ltNum
          < (i % (ltNum * mult) % ltNum + 1) * mult := by rw [Nat.succ_mul]; omega
        _ ≤ ltNum * mult := Nat.mul_le_mul_right mult hlt
    have hbytes : copyFilterBytes mult = ltNum * mult * ltNum := rfl
    rw [hbytes]
    calc ltRow (ltNum * mult) (i % (ltNum * mult)) * ltNum + t
        < (ltRow (ltNum * mult) (i % (ltNum * mult)) + 1) * ltNum := by rw [Nat.succ_mul]; omega
      _ ≤ ltNum * mult * ltNum := Nat.mul_le_mul_right ltNum hrow
  · rw [List.map_singleton, List.sum_singleton, mul_one]
    dsimp only
    rw [Nat.div_eq_of_lt hoffset, Nat.mod_eq_of_lt hoffset, Nat.zero_mul, Nat.zero_add,
      copy_index]

end CopyFilter

/-! ## Copies -/

theorem writeCells_memcpy {mult n i : Nat} (hi : i < 4 * mult * n) (stale rgba : Nat → ℚ) :
    writeCells stale (memcpyWrites mult n rgba) i = rgba (i / (4 * mult) * 4 + i % 4) := by
  have hmult : 0 < mult := Nat.pos_of_ne_zero fun he => by simp [he] at hi
  have hblock : 0 < 4 * mult := by omega
  refine writeCells_of_mem ?_ ?_
  · have hseg : i / (4 * mult) < n := Nat.div_lt_of_lt_mul hi
    have hm : i % (4 * mult) / 4 < mult := Nat.div_lt_of_lt_mul (Nat.mod_lt i hblock)
    have hmod : i % (4 * mult) % 4 = i % 4 := Nat.mod_mod_of_dvd i ⟨mult, rfl⟩
    refine List.mem_flatMap.mpr ⟨_, List.mem_range.mpr hm, List.mem_flatMap.mpr
      ⟨_, List.mem_range.mpr hseg, List.mem_map.mpr
        ⟨i % 4, List.mem_range.mpr (Nat.mod_lt i (by decide)), Prod.ext ?_ rfl⟩⟩⟩
    have hsplit := Nat.div_add_mod' i (4 * mult)
    simp only [channel]
    rw [Nat.mul_comm mult 4]
    omega
  · intro w hw he
    obtain ⟨m, hm, hw⟩ := List.mem_flatMap.mp hw
    obtain ⟨seg, hseg, hw⟩ := List.mem_flatMap.mp hw
    obtain ⟨c, hc, rfl⟩ := List.mem_map.mp hw
    have hm := List.mem_range.mp hm
    have hc : c < 4 := List.mem_range.mp hc
    simp only [channel] at he ⊢
    have hdiv : i / (4 * mult) = seg := by
      rw [← he, Nat.mul_comm mult 4, Nat.add_right_comm, Nat.add_mul_div_right _ _ hblock,
        Nat.div_eq_of_lt (by omega), Nat.zero_add]
    have hmod : i % 4 = c := by
      rw [← he, Nat.mul_comm mult 4, Nat.mul_left_comm]
      omega
    rw [hdiv, hmod]

theorem int16BitsHalf_halfBitsInt16 {q : ℚ} (hq : q ∈ binary16.magnitudes) :
    int16BitsHalf (halfBitsInt16 q) = q := by
  have hword : binary16.word q < 2 ^ 15 := Format.word_lt hq
  have hint : toInt16 (binary16.word q) = (binary16.word q : ℕ) := by
    unfold toInt16
    rw [Int.bmod_eq_of_le] <;> omega
  rw [halfBitsInt16, int16BitsHalf, hint, Int.toNat_natCast, Format.ofWord_word hq]

/-- **The expansion repeats each pixel**, if the copy filter is there when it is used. -/
theorem expand_eq {mult n p i : Nat} {log : List (Write Datum)} {rgba : Nat → ℚ}
    (hmult : 0 < mult) (hfilter : loadsCopyFilter mult → ∀ o < copyFilterBytes mult,
      load log (p + o) 1 = load (copyFilterWrites mult 0) o 1)
    (hhalf : ∀ j, rgba j ∈ binary16.magnitudes) (hi : i < 4 * mult * n) (stale : Nat → ℚ) :
    expand mult n log p stale rgba i = rgba (i / (4 * mult) * 4 + i % 4) := by
  unfold expand
  cases he : expansion mult with
  | copyFilter =>
    have hloads := expansion_eq_copyFilter_iff.mp he
    dsimp only
    rw [bangConv_copyFilter hmult fun a ha => ?_, int16BitsHalf_halfBitsInt16 (hhalf _)]
    unfold filterByte
    rw [hfilter hloads a ha]
  | memcpy => exact writeCells_memcpy hi stale rgba
  | none =>
    have hone : mult = 1 := by
      unfold expansion at he
      split_ifs at he
      omega
    subst hone
    dsimp only
    congr 1
    omega

/-! ## With the tables of the host -/

namespace Rounded

/-- What the kernel finds for a batch element. -/
theorem copyFilter_found {keep : Bool} {dst : Dst} {rois : List Roi} {i : Fin rois.length}
    (hfit : IntsFit keep dst rois)
    (hdst : ¬(127 * (rois.get i).w < 3 * dstRoiW keep dst (rois.get i) ∧
      3 * dstRoiW keep dst (rois.get i) ≤ 129 * (rois.get i).w)) :
    let ws := prepareMaskAndWeights keep dst rois
    let mult := mult (rois.get i).w (dstRoiW keep dst (rois.get i))
    ws.loadSlot rois.length i .mult = .datum (.int mult) ∧
      (loadsCopyFilter mult → ∀ o < copyFilterBytes mult,
        load ws.writes (ws.copyFilterAddr rois.length i + o) 1 =
          load (copyFilterWrites mult 0) o 1) := by
  intro ws mult
  have h : Prepared columns rois.length ws _ := prepareMaskAndWeights_prepared keep dst rois
  have hi : (rois.map (listEntry keep dst))[(i : Nat)]?
      = some (listEntry keep dst (rois.get i)) := by simp
  have hagrees : CopyFilterAgrees ws rois.length i :=
    ((copyFilter_agrees_iff keep dst rois i).mpr ⟨hfit, hdst⟩).2
  obtain ⟨m, hm, hused, -⟩ := hagrees
  obtain ⟨e, he, hentry⟩ := h.exists_element hi
  have hslot : ws.loadSlot rois.length i .mult = .datum (.int mult) := by
    have hload := h.load_slot (List.length_map _) he .mult
    unfold Element.stored at hload
    rw [hentry] at hload
    exact hload
  obtain rfl : mult = m := by simpa using hslot.symm.trans hm
  refine ⟨hslot, fun hloads o ho => ?_⟩
  obtain ⟨p, hp, hfilter⟩ := hused (.inl hloads)
  unfold Workspace.loadSlot at hp
  rw [Workspace.copyFilterAddr, hp]
  exact hfilter o 1 ho

/-- Halves that are cut off, and do not go beyond the largest one. -/
def cutHalves : Halves where
  const q := if q < 0 then -binary16.cut (-q) else binary16.cut q
  conv sum bias :=
    let q := sum / 2 ^ 20 + bias
    if q < 0 then -binary16.cut (-q) else binary16.cut (min q 65504)
  isHalf sum bias := by
    dsimp only
    split_ifs with hneg
    · intro hge
      have hcut : binary16.cut (-(sum / 2 ^ 20 + bias)) = 0 := by
        refine le_antisymm (by linarith) ?_
        exact mul_nonneg (Nat.cast_nonneg _) binary16.unit_pos.le
      rw [hcut, neg_zero]
      exact binary16.zero_mem_magnitudes
    · intro _
      refine (Format.isGreatest_cut (le_min (not_lt.mp hneg) (by norm_num)) ?_).1.1
      rw [mag_infinity_half]
      exact (min_le_right _ _).trans_lt (by norm_num)

end Rounded

end CambriconGst.Easybang
