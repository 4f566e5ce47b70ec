import CambriconGst.Properties.Half
import CambriconGst.Properties.ResizeMasks

/-!
# Which slots of a mask are set

* `weight_of_skipped`: a column of the destination that sets no slot on the right
* `card_slots`: how many slots of the mask are set
* `one_sub_lt_cut_add_cut`: what the weights lose when they are stored
* `slots_spec`: the slots and the weights of all columns
-/

namespace CambriconGst.Easybang

open Lib

@[simp]
theorem cut_zero : binary16.cut 0 = 0 := by
  simp [Format.cut, cutDigits]

@[simp]
theorem cut_one : binary16.cut 1 = 1 := by
  have hunits : ⌊(1 : ℚ) / binary16.unit⌋ = 2 ^ 24 := by
    rw [unit_half]
    norm_num
  have hcut : cutDigits binary16.mantissa (2 ^ 24) = 2 ^ 24 := by decide +kernel
  rw [Format.cut, hunits, show ((2 : ℤ) ^ 24).toNat = 2 ^ 24 from rfl, hcut, unit_half]
  norm_num

theorem isGreatest_cut_of_le_one {q : ℚ} (hq : 0 ≤ q) (hle : q ≤ 1) :
    IsGreatest {r | r ∈ binary16.magnitudes ∧ r ≤ q} (binary16.cut q) := by
  refine Format.isGreatest_cut hq (hle.trans_lt ?_)
  rw [mag_infinity_half]
  norm_num

/-- Two parts of one lose less than a digit of the larger each. -/
theorem one_sub_lt_cut_add_cut {left right : ℚ} (hleft : 0 ≤ left) (hright : 0 ≤ right)
    (hsum : left + right = 1) :
    1 - 1 / 2 ^ 10 < binary16.cut left + binary16.cut right ∧
      binary16.cut left + binary16.cut right ≤ 1 := by
  have hlost {q : ℚ} (hq : 0 ≤ q) (hle : q ≤ 1) : q - binary16.cut q < 1 / 2 ^ 11 := by
    rcases hle.eq_or_lt with rfl | hlt
    · rw [cut_one]
      norm_num
    · have hlt' : q < 2 ^ 24 * binary16.unit := by
        rw [unit_half]
        linarith
      refine (Format.sub_cut_lt hq hlt').trans_eq ?_
      rw [unit_half]
      change (2 : ℚ) ^ (24 - 1 - 10) * (1 / 2 ^ 24) = _
      norm_num
  have hl := hlost hleft (by linarith)
  have hr := hlost hright (by linarith)
  have hl' := Format.cut_le (F := binary16) hleft
  have hr' := Format.cut_le (F := binary16) hright
  constructor <;> linarith

namespace TableKey

/-- The four channels of the pixel `j` of a table hold `q`. -/
def Holds (k : TableKey) (t : Table) (j : Nat) (q : ℚ) : Prop :=
  ∀ c < 4, load (tableWrites k.columns 0) (t.offset k.columns + (j * 4 + c) * 2) 2
    = .datum (.half q)

instance (k : TableKey) (t : Table) (j : Nat) (q : ℚ) : Decidable (k.Holds t j q) := by
  unfold Holds
  infer_instance

variable {k : TableKey} {t : Table} {d j : Nat} {q : ℚ}

/-- What is held is what was written, cut off to a half. -/
theorem holds_iff (hw : 0 < k.w) (hj : j < t.length k.columns) :
    k.Holds t j q ↔ ∃ q', t.value k.columns j = some q' ∧ binary16.cut q' = q := by
  have hload {c : Nat} (hc : c < 4) := Table.load_eq (t := t) (slotsInside hw) hj hc
  constructor
  · intro h
    have hzero := (hload (c := 0) (by decide)).symm.trans (h 0 (by decide))
    cases hvalue : t.value k.columns j with
    | none => simp [hvalue] at hzero
    | some q' =>
      simp only [hvalue, Option.map_some, Option.getD_some, Loaded.datum.injEq, toHalf,
        Datum.half.injEq] at hzero
      exact ⟨q', rfl, hzero⟩
  · rintro ⟨q', hvalue, rfl⟩ c hc
    rw [hload hc, hvalue]
    rfl

theorem holds_left_iff (hw : 0 < k.w) (hj : j < k.mult * k.evenW) :
    k.Holds (.mask .left) j 1 ↔ ∃ d < k.dstRoiW, k.maskLeftIndex d = j := by
  rw [holds_iff hw hj]
  simp only [Table.value_mask_eq_some_iff, Columns.group_left_iff, and_assoc, exists_and_left,
    exists_eq_left, cut_one, and_true]

/-- A right slot is skipped only behind the last column of the source. -/
theorem weight_of_skipped (hw : 0 < k.w) (hd : d < k.dstRoiW)
    (hskip : ¬k.maskRightIndex d < (k.w + k.parity) * k.mult) : k.rightWeight d = 0 := by
  change ¬k.maskLeftIndex d + k.mult < (k.w + k.parity) * k.mult at hskip
  have hpos : 0 < k.dstRoiW := Nat.zero_lt_of_lt hd
  have hindex := maskLeftIndex_lt hw hd
  have hint := srcWIterInt_lt (d := d) hw hpos
  have hlt : (k.w + k.parity) * k.mult < (k.srcWIterInt d + k.parity + 2) * k.mult := by
    rw [Nat.succ_mul (k.srcWIterInt d + k.parity + 1)]
    omega
  have hcolumn := Nat.lt_of_mul_lt_mul_right hlt
  exact rightWeight_of_last hw hpos (by omega)

/-- Distinct columns have distinct slots. -/
theorem card_slots (hw : 0 < k.w) :
    ((Finset.range (k.mult * k.evenW)).filter fun j => k.Holds (.mask .left) j 1).card
      = k.dstRoiW := by
  have hslots : (Finset.range (k.mult * k.evenW)).filter (fun j => k.Holds (.mask .left) j 1)
      = (Finset.range k.dstRoiW).image k.maskLeftIndex := by
    ext j
    rw [Finset.mem_filter, Finset.mem_range, Finset.mem_image]
    constructor
    · rintro ⟨hj, hset⟩
      obtain ⟨d, hd, hindex⟩ := (holds_left_iff hw hj).mp hset
      exact ⟨d, Finset.mem_range.mpr hd, hindex⟩
    · rintro ⟨d, hd, rfl⟩
      have hd := Finset.mem_range.mp hd
      have hj := maskLeftIndex_lt_evenW hw hd
      exact ⟨hj, (holds_left_iff hw hj).mpr ⟨d, hd, rfl⟩⟩
  have hinj : Set.InjOn k.maskLeftIndex (Finset.range k.dstRoiW) := by
    intro d hd d' hd' heq
    have hd := Finset.mem_range.mp hd
    have hd' := Finset.mem_range.mp hd'
    rcases Nat.lt_trichotomy d d' with hlt | rfl | hlt
    · exact absurd heq (maskLeftIndex_strictMonoOn hw hlt hd').ne
    · rfl
    · exact absurd heq.symm (maskLeftIndex_strictMonoOn hw hlt hd).ne
  rw [hslots, Finset.card_image_of_injOn hinj, Finset.card_range]

/-- The group of a slot is that of the position, clamped to the columns and rounded down. -/
theorem maskLeftIndex_group (hw : 0 < k.w) (hd : d < k.dstRoiW) :
    ((k.maskLeftIndex d / k.mult : ℕ) : ℤ)
      = ⌊min (max ((d + 1 / 2) * ((k.w : ℚ) / k.dstRoiW) - 1 / 2) 0) (k.w - 1)⌋ + k.parity := by
  have hposition : k.srcWIter d
      = min (max ((d + 1 / 2) * ((k.w : ℚ) / k.dstRoiW) - 1 / 2) 0) (k.w - 1) := by
    have hcentre : d * ((k.w : ℚ) / k.dstRoiW) + (1 / 2 * ((k.w : ℚ) / k.dstRoiW) - 1 / 2)
        = (d + 1 / 2) * ((k.w : ℚ) / k.dstRoiW) - 1 / 2 := by ring
    rw [srcWIter, hcentre]
  have hnonneg : 0 ≤ ⌊k.srcWIter d⌋ := by
    have hlast : (0 : ℚ) ≤ k.w - 1 := sub_nonneg.mpr (Nat.one_le_cast.mpr hw)
    rw [hposition]
    exact Int.floor_nonneg.mpr (le_min (le_max_right _ _) hlast)
  rw [maskLeftIndex_div hw hd, ← hposition, Nat.cast_add, srcWIterInt, Int.toNat_of_nonneg hnonneg]

/-- The right weight is what is behind the point of the position. -/
theorem rightWeight_mem (hw : 0 < k.w) : 0 ≤ k.rightWeight d ∧ k.rightWeight d ≤ 1 := by
  have hlast : (0 : ℚ) ≤ k.w - 1 := sub_nonneg.mpr (Nat.one_le_cast.mpr hw)
  have hpos : 0 ≤ k.srcWIter d := le_min (le_max_right _ _) hlast
  have hint : ((⌊k.srcWIter d⌋.toNat : ℕ) : ℚ) = ⌊k.srcWIter d⌋ := by
    exact_mod_cast Int.toNat_of_nonneg (Int.floor_nonneg.mpr hpos)
  rw [rightWeight, srcWIterInt, hint]
  exact ⟨sub_nonneg.mpr (Int.floor_le _), (Int.fract_lt_one _).le⟩

end TableKey

/--
**The columns of the destination have slots of their own, in their order and in the groups of the
columns that they are taken from. The two weights of each are parts of one, and are stored as the
largest halves that are not above them.**
-/
theorem slots_spec (curRoiX curRoiW dstRoiW : Nat) (hw : 1 ≤ curRoiW)
    (hfit : TableKey.IntsFit { parity := curRoiX % 2, w := curRoiW, dstRoiW := dstRoiW }) :
    let k : TableKey := { parity := curRoiX % 2, w := curRoiW, dstRoiW := dstRoiW }
    (∀ d d', d < d' → d' < dstRoiW → k.maskLeftIndex d < k.maskLeftIndex d') ∧
    ((Finset.range (k.mult * k.evenW)).filter fun j => k.Holds (.mask .left) j 1).card = dstRoiW ∧
    ∀ d < dstRoiW,
      k.maskLeftIndex d < k.mult * k.evenW ∧
      (∀ c < 4, asInt (k.maskLeftIndex d * 4 + c) = (k.maskLeftIndex d * 4 + c : ℕ)) ∧
      k.Holds (.mask .left) (k.maskLeftIndex d) 1 ∧
      ((k.maskLeftIndex d / k.mult : ℕ) : ℤ)
        = ⌊min (max ((d + 1 / 2) * ((curRoiW : ℚ) / dstRoiW) - 1 / 2) 0) (curRoiW - 1)⌋
          + (curRoiX % 2 : ℕ) ∧
      ∃ left right storedLeft storedRight : ℚ,
        left + right = 1 ∧
        IsGreatest {r | r ∈ binary16.magnitudes ∧ r ≤ left} storedLeft ∧
        IsGreatest {r | r ∈ binary16.magnitudes ∧ r ≤ right} storedRight ∧
        k.Holds (.weight .left) d storedLeft ∧ k.Holds (.weight .right) d storedRight ∧
        1 - 1 / 2 ^ 10 < storedLeft + storedRight ∧ storedLeft + storedRight ≤ 1 ∧
        (¬k.maskRightIndex d < (curRoiW + curRoiX % 2) * k.mult → right = 0 ∧ storedRight = 0) := by
  intro k
  have hpos : 0 < k.w := hw
  refine ⟨fun d d' hlt hd' => TableKey.maskLeftIndex_strictMonoOn hpos hlt hd',
    TableKey.card_slots hpos, ?_⟩
  intro d hd
  have hin : k.maskLeftIndex d < k.mult * k.evenW := TableKey.maskLeftIndex_lt_evenW hpos hd
  obtain ⟨hright, hle⟩ := TableKey.rightWeight_mem (d := d) hpos
  have hleft : 0 ≤ 1 - k.rightWeight d := sub_nonneg.mpr hle
  have hsum : 1 - k.rightWeight d + k.rightWeight d = 1 := sub_add_cancel 1 _
  obtain ⟨hlow, hhigh⟩ := one_sub_lt_cut_add_cut hleft hright hsum
  have hindex : k.maskLeftIndex d * 4 + 3 < 2 ^ 31 := hfit.maskLeft d hd
  refine ⟨hin, fun c hc => asInt_of_lt (by omega), (TableKey.holds_left_iff hpos hin).mpr ⟨d, hd, rfl⟩,
    TableKey.maskLeftIndex_group hpos hd, 1 - k.rightWeight d, k.rightWeight d,
    binary16.cut (1 - k.rightWeight d), binary16.cut (k.rightWeight d), hsum,
    isGreatest_cut_of_le_one hleft (by linarith), isGreatest_cut_of_le_one hright hle,
    ?_, ?_, hlow, hhigh, ?_⟩
  · exact (TableKey.holds_iff hpos hd).mpr ⟨_, rfl, rfl⟩
  · exact (TableKey.holds_iff hpos hd).mpr ⟨_, rfl, rfl⟩
  · intro hskip
    have hzero := TableKey.weight_of_skipped hpos hd hskip
    rw [hzero]
    exact ⟨rfl, cut_zero⟩

/-- Three columns of the source, enlarged to seven. -/
theorem slots_three_seven :
    let k : TableKey := { parity := 1, w := 3, dstRoiW := 7 }
    ((Finset.range (k.mult * k.evenW)).filter fun j => k.Holds (.mask .left) j 1).card = 7 :=
  (slots_spec 5 3 7 (by decide)
    ((TableKey.intsFit_iff (by decide)).mpr (by decide +kernel))).2.1

/-- Two thirds and one third are stored as less. -/
theorem weights_cut :
    let k : TableKey := { parity := 0, w := 5, dstRoiW := 3 }
    ¬∃ left right, k.Holds (.weight .left) 0 left ∧ k.Holds (.weight .right) 0 right ∧
      left + right = 1 := by
  rintro k ⟨left, right, hleft, hright, hsum⟩
  obtain ⟨q, hq, rfl⟩ := (TableKey.holds_iff (by decide) (by decide)).mp hleft
  obtain ⟨q', hq', rfl⟩ := (TableKey.holds_iff (by decide) (by decide)).mp hright
  obtain rfl := Option.some.inj hq
  obtain rfl := Option.some.inj hq'
  revert hsum
  decide +kernel

end CambriconGst.Easybang
