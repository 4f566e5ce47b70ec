import CambriconGst.Easybang.ResizeTables
import Mathlib.Tactic.FieldSimp
import Mathlib.Tactic.Linarith
import Mathlib.Tactic.Positivity

/-!
# Where the masks and the weights are written

* `srcWIterInt_eq`, `mult_eq`: positions and `mult` without quotients of rationals
* `lt_mult_of_srcWIterInt_eq`: at most `mult` columns of the destination come from one of the source
* `maskLeftIndex_spec`: the slot of a column of the destination
* `tableColumn_inside`, `copyFilterWrites_inside`: nothing is written outside of what is reserved
-/

namespace CambriconGst.Easybang

open Lib

/-! ## Positions in whole numbers -/

theorem mult_of_lt {w dstRoiW : Nat} (hw : 0 < w) (h : w < dstRoiW) :
    mult w dstRoiW = (3 * dstRoiW + w - 1) / (2 * w) := by
  have hq : 3 / 2 * (dstRoiW : ℚ) / w + 1 / 2 = ((3 * dstRoiW + w : ℕ) : ℚ) / (2 * w : ℕ) := by
    have hne : (w : ℚ) ≠ 0 := by positivity
    push_cast
    field_simp
  have hceil : ⌈((3 * dstRoiW + w : ℕ) : ℚ) / (2 * w : ℕ)⌉
      = (((3 * dstRoiW + w - 1) / (2 * w) + 1 : ℕ) : ℤ) := by
    have hpos : (0 : ℚ) < (2 * w : ℕ) := by positivity
    have hdiv := Nat.div_add_mod (3 * dstRoiW + w - 1) (2 * w)
    have hmod := Nat.mod_lt (3 * dstRoiW + w - 1) (Nat.mul_pos Nat.two_pos hw)
    rw [Int.ceil_eq_iff, lt_div_iff₀ hpos, div_le_iff₀ hpos]
    set q := (3 * dstRoiW + w - 1) / (2 * w)
    constructor
    · have hlt : q * (2 * w) < 3 * dstRoiW + w := by
        rw [Nat.mul_comm]
        omega
      have hlt' : ((q * (2 * w) : ℕ) : ℚ) < (3 * dstRoiW + w : ℕ) := Nat.cast_lt.mpr hlt
      push_cast at hlt' ⊢
      linarith
    · have hle : 3 * dstRoiW + w ≤ (q + 1) * (2 * w) := by
        rw [Nat.add_mul, Nat.mul_comm q]
        omega
      exact_mod_cast hle
  rw [mult, if_pos h, hq, hceil, Nat.cast_add, Nat.cast_one, add_sub_cancel_right,
    Int.toNat_natCast]

theorem mult_of_le {w dstRoiW : Nat} (h : dstRoiW ≤ w) : mult w dstRoiW = 1 :=
  if_neg (not_lt.mpr h)

theorem mult_pos {w : Nat} (hw : 0 < w) (dstRoiW : Nat) : 0 < mult w dstRoiW := by
  by_cases h : w < dstRoiW
  · rw [mult_of_lt hw h]
    exact Nat.div_pos (by omega) (by omega)
  · rw [mult_of_le (not_lt.mp h)]
    exact Nat.one_pos

theorem asInt_of_lt {n : Nat} (h : n < 2 ^ 31) : asInt n = n := by
  have h32 : (2 : Nat) ^ 32 = 4294967296 := rfl
  unfold asInt
  rw [Int.bmod_def, h32]
  omega

theorem intSize_of_lt {n : Nat} (h : n < 2 ^ 31) : intSize n = n := by
  rw [intSize, asInt_of_lt h]
  omega

namespace TableKey

variable {k : TableKey} {d m : Nat}

theorem srcWIter_eq (k : TableKey) (hd : 0 < k.dstRoiW) :
    k.srcWIter d = min (max ((((2 * d + 1) * k.w : ℕ) - k.dstRoiW : ℤ) / (2 * k.dstRoiW : ℕ) : ℚ) 0)
      ((k.w : ℤ) - 1 : ℤ) := by
  have hne : (k.dstRoiW : ℚ) ≠ 0 := by positivity
  have hq : d * ((k.w : ℚ) / k.dstRoiW) + (1 / 2 * ((k.w : ℚ) / k.dstRoiW) - 1 / 2)
      = (((2 * d + 1) * k.w : ℕ) - k.dstRoiW : ℤ) / (2 * k.dstRoiW : ℕ) := by
    push_cast
    field_simp
    ring
  rw [srcWIter, hq]
  push_cast
  rfl

theorem srcWIterInt_eq (k : TableKey) (hw : 0 < k.w) (hd : 0 < k.dstRoiW) :
    k.srcWIterInt d = min (((2 * d + 1) * k.w - k.dstRoiW) / (2 * k.dstRoiW)) (k.w - 1) := by
  rw [srcWIterInt, k.srcWIter_eq hd, Int.floor_mono.map_min, Int.floor_mono.map_max,
    Int.floor_intCast, Rat.floor_intCast_div_natCast, Int.floor_zero]
  have hclamp : max ((((2 * d + 1) * k.w : ℕ) - k.dstRoiW : ℤ) / (2 * k.dstRoiW : ℕ)) 0
      = (((2 * d + 1) * k.w - k.dstRoiW) / (2 * k.dstRoiW) : ℕ) := by
    rcases Nat.le_total k.dstRoiW ((2 * d + 1) * k.w) with hle | hle
    · rw [← Nat.cast_sub hle, ← Int.natCast_div]
      exact max_eq_left (Int.natCast_nonneg _)
    · rw [Nat.sub_eq_zero_of_le hle, Nat.zero_div]
      refine max_eq_right (Int.ediv_nonpos_of_nonpos_of_neg ?_ ?_)
      · exact sub_nonpos.mpr (Nat.cast_le.mpr hle)
      · omega
  rw [hclamp]
  omega

theorem srcWIterInt_lt (hw : 0 < k.w) (hd : 0 < k.dstRoiW) : k.srcWIterInt d < k.w := by
  rw [k.srcWIterInt_eq hw hd]
  omega

/-- The last column is clamped to, the ones before it are rounded down to. -/
theorem srcWIterInt_eq_iff {c : Nat} (hw : 0 < k.w) (hd : 0 < k.dstRoiW) :
    k.srcWIterInt d = c ↔ c < k.w ∧ (c = 0 ∨ (2 * c + 1) * k.dstRoiW ≤ (2 * d + 1) * k.w) ∧
      (c + 1 = k.w ∨ (2 * d + 1) * k.w < (2 * c + 3) * k.dstRoiW) := by
  have hpos : 0 < 2 * k.dstRoiW := by omega
  have hle := Nat.le_div_iff_mul_le (x := c) (y := (2 * d + 1) * k.w - k.dstRoiW) hpos
  have hlt := Nat.div_lt_iff_lt_mul (x := (2 * d + 1) * k.w - k.dstRoiW) (y := c + 1) hpos
  have hc : (2 * c + 1) * k.dstRoiW = c * (2 * k.dstRoiW) + k.dstRoiW := by ring
  have hc' : (2 * c + 3) * k.dstRoiW = (c + 1) * (2 * k.dstRoiW) + k.dstRoiW := by ring
  rw [k.srcWIterInt_eq hw hd, hc, hc']
  have hzero : c = 0 → c * (2 * k.dstRoiW) = 0 := fun h => by rw [h, Nat.zero_mul]
  have hc_pos : c ≠ 0 → 0 < c * (2 * k.dstRoiW) := fun h => Nat.mul_pos (by omega) hpos
  have hnext : 0 < (c + 1) * (2 * k.dstRoiW) := Nat.mul_pos (Nat.succ_pos c) hpos
  omega

theorem srcWIterInt_mono (hw : 0 < k.w) (hd : 0 < k.dstRoiW) : Monotone k.srcWIterInt := by
  intro d d' hle
  rw [k.srcWIterInt_eq hw hd, k.srcWIterInt_eq hw hd]
  refine min_le_min_right _ (Nat.div_le_div_right (Nat.sub_le_sub_right ?_ _))
  exact Nat.mul_le_mul_right _ (by omega)

/--
The right column counts for nothing: the position is before the first column, on a column, or behind
the last one.
-/
theorem rightWeight_eq_zero_iff (hw : 0 < k.w) (hd : 0 < k.dstRoiW) :
    k.rightWeight d = 0 ↔ (2 * d + 1) * k.w ≤ k.dstRoiW ∨
      2 * k.dstRoiW ∣ (2 * d + 1) * k.w - k.dstRoiW ∨
      (2 * k.w - 1) * k.dstRoiW ≤ (2 * d + 1) * k.w := by
  have hpos : (0 : ℚ) < (2 * k.dstRoiW : ℕ) := Nat.cast_pos.mpr (by omega)
  have hlast : (2 * k.w - 1) * k.dstRoiW = (k.w - 1) * (2 * k.dstRoiW) + k.dstRoiW := by
    obtain ⟨w, hw⟩ : ∃ w, k.w = w + 1 := ⟨k.w - 1, by omega⟩
    rw [hw, Nat.add_sub_cancel, show 2 * (w + 1) - 1 = 2 * w + 1 from rfl]
    ring
  have hw1 : ((k.w : ℤ) - 1 : ℤ) = ((k.w - 1 : ℕ) : ℤ) := by omega
  unfold rightWeight
  rw [k.srcWIter_eq hd, k.srcWIterInt_eq hw hd, hlast, hw1]
  generalize (2 * d + 1) * k.w = x
  generalize k.w - 1 = w
  rcases Nat.le_total x k.dstRoiW with hx | hx
  · have hq : ((x - k.dstRoiW : ℤ) : ℚ) / (2 * k.dstRoiW : ℕ) ≤ 0 := by
      refine div_nonpos_of_nonpos_of_nonneg ?_ hpos.le
      exact Int.cast_nonpos.mpr (sub_nonpos.mpr (Nat.cast_le.mpr hx))
    refine iff_of_true ?_ (.inl hx)
    rw [max_eq_right hq, Nat.sub_eq_zero_of_le hx, Nat.zero_div, Nat.zero_min]
    simp
  · obtain ⟨n, rfl⟩ := Nat.exists_eq_add_of_le hx
    have hn : ((k.dstRoiW + n : ℕ) - k.dstRoiW : ℤ) = n := by omega
    rw [hn, Nat.add_sub_cancel_left, max_eq_left (div_nonneg (Int.cast_nonneg (by omega)) hpos.le)]
    rcases Nat.lt_or_ge n (w * (2 * k.dstRoiW)) with hlt | hge
    · have hq : ((n : ℤ) : ℚ) / (2 * k.dstRoiW : ℕ) ≤ (w : ℤ) := by
        rw [div_le_iff₀ hpos]
        exact_mod_cast hlt.le
      have hw : n / (2 * k.dstRoiW) ≤ w := ((Nat.div_lt_iff_lt_mul (by omega)).mpr hlt).le
      rw [min_eq_left hq, min_eq_left hw, sub_eq_zero, div_eq_iff hpos.ne', Nat.dvd_iff_div_mul_eq]
      have hcast : ((n : ℤ) : ℚ) = (n / (2 * k.dstRoiW) : ℕ) * (2 * k.dstRoiW : ℕ) ↔
          n / (2 * k.dstRoiW) * (2 * k.dstRoiW) = n := by
        rw [eq_comm, Int.cast_natCast, ← Nat.cast_mul, Nat.cast_inj]
      rw [hcast]
      have hzero : n = 0 → n / (2 * k.dstRoiW) * (2 * k.dstRoiW) = n := fun h => by simp [h]
      omega
    · have hq : ((w : ℤ) : ℚ) ≤ ((n : ℤ) : ℚ) / (2 * k.dstRoiW : ℕ) := by
        rw [le_div_iff₀ hpos]
        exact_mod_cast hge
      have hw : w ≤ n / (2 * k.dstRoiW) := (Nat.le_div_iff_mul_le (by omega)).mpr hge
      rw [min_eq_right hq, min_eq_right hw]
      exact iff_of_true (sub_eq_zero.mpr (Int.cast_natCast w)) (.inr (.inr (by omega)))

/-- **Fewer than `mult` columns of the destination follow one that comes from the same column.** -/
theorem lt_mult_of_srcWIterInt_eq (hw : 0 < k.w) (hm : d + m < k.dstRoiW)
    (heq : k.srcWIterInt (d + m) = k.srcWIterInt d) : m < k.mult := by
  have hd : 0 < k.dstRoiW := by omega
  obtain ⟨hc, hlow, -⟩ := (srcWIterInt_eq_iff hw hd).mp (rfl : k.srcWIterInt d = _)
  obtain ⟨-, -, hhigh⟩ := (srcWIterInt_eq_iff hw hd).mp heq
  have hexp : (2 * (d + m) + 1) * k.w = 2 * (m * k.w) + (2 * d + 1) * k.w := by ring
  generalize k.srcWIterInt d = c at hc hlow hhigh
  -- the distance between the two, in units of the source
  have hdist : 2 * (m * k.w) + k.w < 3 * k.dstRoiW ∨ m * k.w < k.dstRoiW ∨
      2 * (m * k.w) + k.w ≤ k.dstRoiW := by
    rcases hlow with rfl | hlow
    · refine .inl ?_
      rcases hhigh with hone | hhigh
      · rw [← hone]
        omega
      · nlinarith
    · rcases hhigh with hlast | hhigh
      · refine .inr (.inr ?_)
        have hend : (2 * (d + m) + 1) * k.w ≤ (2 * k.dstRoiW - 1) * k.w :=
          Nat.mul_le_mul_right _ (by omega)
        rw [← hlast] at hlow hend hexp ⊢
        have hD : (2 * k.dstRoiW - 1) * (c + 1) + (c + 1) = 2 * (k.dstRoiW * (c + 1)) := by
          rw [← Nat.succ_mul, Nat.succ_eq_add_one, Nat.sub_add_cancel (by omega), Nat.mul_assoc]
        have hc : (2 * c + 1) * k.dstRoiW + k.dstRoiW = 2 * (k.dstRoiW * (c + 1)) := by ring
        omega
      · refine .inr (.inl ?_)
        have hnext : (2 * c + 3) * k.dstRoiW = (2 * c + 1) * k.dstRoiW + 2 * k.dstRoiW := by ring
        omega
  unfold TableKey.mult
  by_cases h : k.w < k.dstRoiW
  · rw [mult_of_lt hw h]
    change m + 1 ≤ _
    refine (Nat.le_div_iff_mul_le (by omega)).mpr ?_
    have hsucc : (m + 1) * (2 * k.w) = 2 * (m * k.w) + 2 * k.w := by ring
    omega
  · rw [mult_of_le (not_lt.mp h)]
    by_contra hm'
    have hmul : 1 * k.w ≤ m * k.w := Nat.mul_le_mul_right _ (by omega)
    omega

theorem rightWeight_of_last (hw : 0 < k.w) (hd : 0 < k.dstRoiW)
    (hlast : k.srcWIterInt d + 1 = k.w) : k.rightWeight d = 0 := by
  obtain ⟨-, hlow, -⟩ := (srcWIterInt_eq_iff hw hd).mp (rfl : k.srcWIterInt d = _)
  have hodd : 2 * k.w - 1 = 2 * k.srcWIterInt d + 1 := by omega
  rw [rightWeight_eq_zero_iff hw hd, hodd]
  rcases hlow with hzero | hlow
  · rw [hzero, Nat.mul_zero, Nat.zero_add, Nat.one_mul]
    exact (Nat.le_total _ _).imp_right .inr
  · exact .inr (.inr hlow)

end TableKey

/-! ## Slots of the masks -/

/--
The slot is the first one of the column, or is as many further on as there are columns of the
destination before it that come from the same column.
-/
theorem Columns.maskLeftIndex_spec (c : Columns) (d : Nat) :
    ∃ r ≤ d, c.srcWIterInt (d - r) = c.srcWIterInt d ∧
      c.maskLeftIndex d = (c.srcWIterInt d + c.parity) * c.mult + r := by
  induction d with
  | zero => exact ⟨0, le_refl 0, rfl, rfl⟩
  | succ d ih =>
    unfold maskLeftIndex
    split
    · next heq =>
      obtain ⟨r, hr, hint, hindex⟩ := ih
      refine ⟨r + 1, by omega, ?_, by rw [heq, hindex, Nat.add_assoc]⟩
      rw [Nat.add_sub_add_right, hint, heq]
    · exact ⟨0, Nat.zero_le _, rfl, rfl⟩

namespace TableKey

variable {k : TableKey} {d : Nat}

theorem maskLeftIndex_succ (k : TableKey) (d : Nat) : k.maskLeftIndex (d + 1) =
    if k.srcWIterInt (d + 1) = k.srcWIterInt d then k.maskLeftIndex d + 1
    else (k.srcWIterInt (d + 1) + k.parity) * k.mult :=
  rfl

theorem maskLeftIndex_spec (k : TableKey) (d : Nat) :
    ∃ r ≤ d, k.srcWIterInt (d - r) = k.srcWIterInt d ∧
      k.maskLeftIndex d = (k.srcWIterInt d + k.parity) * k.mult + r :=
  k.columns.maskLeftIndex_spec d

theorem maskLeftIndex_lt (hw : 0 < k.w) (hd : d < k.dstRoiW) :
    k.maskLeftIndex d < (k.srcWIterInt d + k.parity + 1) * k.mult := by
  obtain ⟨r, hr, hint, hindex⟩ := k.maskLeftIndex_spec d
  have hlt : r < k.mult := by
    refine lt_mult_of_srcWIterInt_eq (d := d - r) hw (by omega) ?_
    rw [hint, Nat.sub_add_cancel hr]
  rw [hindex, Nat.succ_mul]
  omega

/-- The column that a slot belongs to. -/
theorem maskLeftIndex_div (hw : 0 < k.w) (hd : d < k.dstRoiW) :
    k.maskLeftIndex d / k.mult = k.srcWIterInt d + k.parity := by
  obtain ⟨r, -, -, hindex⟩ := k.maskLeftIndex_spec d
  refine Nat.div_eq_of_lt_le ?_ (maskLeftIndex_lt hw hd)
  rw [hindex]
  exact Nat.le_add_right _ _

theorem maskLeftIndex_lt_succ (hw : 0 < k.w) (hd : d + 1 < k.dstRoiW) :
    k.maskLeftIndex d < k.maskLeftIndex (d + 1) := by
  rw [maskLeftIndex_succ]
  split
  · exact Nat.lt_succ_self _
  · next hne =>
    have hmono : k.srcWIterInt d ≤ k.srcWIterInt (d + 1) :=
      srcWIterInt_mono hw (Nat.zero_lt_of_lt hd) (Nat.le_succ d)
    refine (maskLeftIndex_lt hw (Nat.lt_of_succ_lt hd)).trans_le ?_
    exact Nat.mul_le_mul_right _ (by omega)

theorem maskLeftIndex_strictMonoOn (hw : 0 < k.w) :
    ∀ {d d'}, d < d' → d' < k.dstRoiW → k.maskLeftIndex d < k.maskLeftIndex d' := by
  intro d d' hlt
  induction hlt with
  | refl => exact fun hd => maskLeftIndex_lt_succ hw hd
  | step _ ih => exact fun hd => (ih (Nat.lt_of_succ_lt hd)).trans (maskLeftIndex_lt_succ hw hd)

theorem w_le_evenW (k : TableKey) : k.w + k.parity ≤ k.evenW := by
  unfold evenW
  omega

theorem maskLeftIndex_lt_evenW (hw : 0 < k.w) (hd : d < k.dstRoiW) :
    k.maskLeftIndex d < k.mult * k.evenW := by
  have hint := srcWIterInt_lt (d := d) hw (Nat.zero_lt_of_lt hd)
  have heven := k.w_le_evenW
  refine (maskLeftIndex_lt hw hd).trans_le ?_
  rw [Nat.mul_comm]
  exact Nat.mul_le_mul_left _ (by omega)

end TableKey

/-! ## Nothing is written outside -/

theorem pixel_inside {table index start len : Nat} {q : ℚ} (hstart : start ≤ table)
    (hlen : table + (index + 1) * 4 * 2 ≤ start + len) :
    ∀ w ∈ pixel table index q, w.Inside start len := by
  intro w hw
  obtain ⟨c, hc, rfl⟩ := List.mem_map.mp hw
  have hc := List.mem_range.mp hc
  constructor <;> dsimp only <;> omega

namespace Columns

variable {c : Columns} {d : Nat}

/-- No slot goes beyond the tables. -/
def Inside (c : Columns) : Prop :=
  ∀ d < c.dstRoiW, (c.maskLeftIndex d + 1) * 4 * 2 ≤ c.bytes

/-- Nor beyond the mask. -/
def SlotsInside (c : Columns) : Prop :=
  ∀ d < c.dstRoiW, c.maskLeftIndex d < c.mult * c.evenW

instance (c : Columns) : Decidable c.SlotsInside := by
  unfold SlotsInside
  infer_instance

theorem SlotsInside.inside (h : c.SlotsInside) : c.Inside := by
  intro d hd
  have hleft := h d hd
  have hmask : c.maskBytes = c.mult * c.evenW * 4 * 2 := rfl
  unfold bytes
  omega

theorem maskEnd_le (c : Columns) : (c.w + c.parity) * c.mult ≤ c.mult * c.evenW := by
  rw [Nat.mul_comm]
  exact Nat.mul_le_mul_left _ c.w_le_evenW

/-- With all slots in the masks, the products of the type `int` fit when a mask and a weight do. -/
theorem intsFit_iff (hw : 0 < c.w) (hmult : 0 < c.mult) (hslot : c.SlotsInside) :
    c.IntsFit ↔ c.mult * c.evenW * 4 < 2 ^ 31 ∧ c.dstRoiW * 4 < 2 ^ 31 := by
  refine ⟨fun h => ⟨h.mask, h.weight⟩, fun ⟨hmask, hweight⟩ => ?_⟩
  have heven : 2 ≤ c.evenW := by
    unfold TableKey.evenW
    omega
  have hwidth := c.w_le_evenW
  have hend := c.maskEnd_le
  have hle : c.mult * 2 ≤ c.mult * c.evenW := Nat.mul_le_mul_left _ heven
  have hle' : 1 * c.evenW ≤ c.mult * c.evenW := Nat.mul_le_mul_right _ hmult
  constructor
  case curRoiW => omega
  case dstRoiW => omega
  case mult => omega
  case mask => exact hmask
  case weight => exact hweight
  case maskEnd => omega
  case maskLeft =>
    intro d hd
    have hlt := hslot d hd
    omega
  case maskRight =>
    intro d hd
    have hlt := hslot d hd
    unfold maskRightIndex
    omega
  case maskRightSet =>
    intro d _ hlt
    omega
  case copyFilter =>
    intro hlt
    unfold multLimit at hlt
    unfold copyFilterBytes ltNum
    omega

/-- The loop writes to the mask and to the weight that it means to. -/
theorem tableColumn_inside (hleft : c.maskLeftIndex d < c.mult * c.evenW) (hd : d < c.dstRoiW)
    (t : Tables) : ∀ w ∈ tableColumn c t d,
      w.Inside t.maskLeft c.maskBytes ∨ w.Inside t.maskRight c.maskBytes ∨
      w.Inside t.weightLeft c.weightBytes ∨ w.Inside t.weightRight c.weightBytes := by
  intro w hmem
  have hmask : c.maskBytes = c.mult * c.evenW * 4 * 2 := rfl
  have hweight : c.weightBytes = c.dstRoiW * 4 * 2 := rfl
  simp only [tableColumn, List.mem_append] at hmem
  rcases hmem with ((hmem | hmem) | hmem) | hmem
  · exact .inl (pixel_inside (le_refl _) (by omega) w hmem)
  · split at hmem
    · next hright =>
      have hle := c.maskEnd_le
      exact .inr (.inl (pixel_inside (le_refl _) (by omega) w hmem))
    · exact absurd hmem List.not_mem_nil
  · exact .inr (.inr (.inl (pixel_inside (le_refl _) (by omega) w hmem)))
  · exact .inr (.inr (.inr (pixel_inside (le_refl _) (by omega) w hmem)))

theorem tableWrites_inside (hin : c.Inside) (start : Nat) :
    ∀ w ∈ tableWrites c start, w.Inside start c.bytes := by
  intro w hmem
  obtain ⟨d, hd, hmem⟩ := List.mem_flatMap.mp hmem
  have hd := List.mem_range.mp hd
  have hleft := hin d hd
  have hbytes : c.bytes = c.maskBytes + c.maskBytes + c.weightBytes + c.weightBytes := rfl
  have hmask : c.maskBytes = c.mult * c.evenW * 4 * 2 := rfl
  have hweight : c.weightBytes = c.dstRoiW * 4 * 2 := rfl
  simp only [tableColumn, tablesAt, List.mem_append] at hmem
  rcases hmem with ((hmem | hmem) | hmem) | hmem
  · exact pixel_inside (le_refl _) (by omega) w hmem
  · split at hmem
    · next hright =>
      have hle := c.maskEnd_le
      exact pixel_inside (by omega) (by omega) w hmem
    · exact absurd hmem List.not_mem_nil
  · exact pixel_inside (by omega) (by omega) w hmem
  · exact pixel_inside (by omega) (by omega) w hmem

end Columns

theorem TableKey.slotsInside {k : TableKey} (hw : 0 < k.w) : k.columns.SlotsInside :=
  fun _ hd => maskLeftIndex_lt_evenW hw hd

theorem TableKey.intsFit_iff {k : TableKey} (hw : 0 < k.w) :
    k.IntsFit ↔ k.mult * k.evenW * 4 < 2 ^ 31 ∧ k.dstRoiW * 4 < 2 ^ 31 :=
  Columns.intsFit_iff hw (mult_pos hw _) (slotsInside hw)

theorem copyFilterWrites_inside {mult : Nat} (hm : 0 < mult) (start : Nat) :
    ∀ w ∈ copyFilterWrites mult start, w.Inside start (copyFilterBytes mult) := by
  intro w hmem
  obtain ⟨lt, hlt, hmem⟩ := List.mem_flatMap.mp hmem
  obtain ⟨idx, hidx, rfl⟩ := List.mem_map.mp hmem
  have hlt := List.mem_range.mp hlt
  have hidx := List.mem_range.mp hidx
  unfold ltNum at hlt hidx
  rw [Nat.mul_div_cancel_left _ (by decide)] at hidx
  -- the row of the filter, and the column in it
  have hrow : lt * mult + idx < 64 * mult := by
    have hle : (lt + 1) * mult ≤ 64 * mult := Nat.mul_le_mul_right _ hlt
    rw [Nat.succ_mul] at hle
    omega
  have hcolumn : (lt + idx * 64) / (mult * 4) < 16 :=
    (Nat.div_lt_iff_lt_mul (by omega)).mpr (by omega)
  simp only [ltNum, Nat.mul_div_cancel_left mult (show 0 < 64 by decide)]
  unfold copyFilterBytes ltNum
  constructor <;> dsimp only <;> omega

end CambriconGst.Easybang
