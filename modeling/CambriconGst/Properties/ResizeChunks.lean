import CambriconGst.Easybang.ResizeKernel
import Mathlib.Order.Monotone.Basic
import Mathlib.Tactic.FieldSimp
import Mathlib.Tactic.Linarith
import Mathlib.Tactic.Positivity

/-!
# The iterations over the width

* `Width.lt_dstIdxWEnd_iff`: the pixels that lie before a column of the source, exactly
* `Width.chunksTo_eq`: the iterations, each from one border to the next
-/

namespace CambriconGst.Easybang

namespace Width

variable {p : Width} {ends : Nat → Nat} {b d t : Nat}

theorem lt_dstIdxWEnd_iff (hw : 0 < p.srcRoiW) :
    d < p.dstIdxWEnd b ↔ d < p.dstRoiW ∧ (2 * d + 1) * p.srcRoiW < (2 * b + 1) * p.dstRoiW := by
  have hpos : (0 : ℚ) < p.srcRoiW := Nat.cast_pos.mpr hw
  have hq : b * ((p.dstRoiW : ℚ) / p.srcRoiW) + ((p.dstRoiW : ℚ) / p.srcRoiW * (1 / 2) - 1 / 2)
      = ((2 * b + 1) * p.dstRoiW / p.srcRoiW - 1) / 2 := by
    ring
  have hceil : d < ⌈((2 * b + 1) * (p.dstRoiW : ℚ) / p.srcRoiW - 1) / 2⌉.toNat ↔
      (2 * d + 1) * p.srcRoiW < (2 * b + 1) * p.dstRoiW := by
    rw [Int.lt_toNat, Int.lt_ceil, lt_div_iff₀ two_pos, lt_sub_iff_add_lt, lt_div_iff₀ hpos]
    rw [← Nat.cast_lt (α := ℚ)]
    push_cast
    rw [mul_comm (d : ℚ) 2]
  unfold dstIdxWEnd
  dsimp only
  rw [hq, lt_min_iff, hceil, and_comm]

theorem dstIdxWEnd_le : p.dstIdxWEnd b ≤ p.dstRoiW :=
  min_le_right _ _

theorem dstIdxWEnd_mono (hw : 0 < p.srcRoiW) : Monotone p.dstIdxWEnd := by
  intro b b' hle
  by_contra hlt
  have hmem := (lt_dstIdxWEnd_iff hw).mp (not_le.mp hlt)
  refine absurd ((lt_dstIdxWEnd_iff (b := b') hw).mpr ⟨hmem.1, hmem.2.trans_le ?_⟩) (lt_irrefl _)
  exact Nat.mul_le_mul_right _ (by omega)

/-- The last column that is loaded is not before the last of the source. -/
theorem dstIdxWEnd_evenW (hw : 0 < p.srcRoiW) (heven : p.srcRoiW ≤ p.evenW) :
    p.dstIdxWEnd p.evenW = p.dstRoiW := by
  refine le_antisymm dstIdxWEnd_le (not_lt.mp fun hlt => ?_)
  refine absurd ((lt_dstIdxWEnd_iff (b := p.evenW) hw).mpr ⟨hlt, ?_⟩) (lt_irrefl _)
  have hd : (2 * p.dstIdxWEnd p.evenW + 1) * p.srcRoiW < 2 * p.dstRoiW * p.srcRoiW :=
    Nat.mul_lt_mul_of_pos_right (by omega) hw
  have he : 2 * p.dstRoiW * p.srcRoiW ≤ (2 * p.evenW + 1) * p.dstRoiW := by
    rw [Nat.mul_right_comm]
    exact Nat.mul_le_mul_right _ (by omega)
  exact hd.trans_le he

/-! ## Borders -/

/-- The column of the source that the iteration `t` starts at. -/
def border (p : Width) (t : Nat) : Nat :=
  if t ≤ p.loadRepeat then t * p.maxLoadNum else p.evenW

/-- The pixel of the destination that the iteration `t` starts at. -/
def startTo (p : Width) (ends : Nat → Nat) (t : Nat) : Nat :=
  if t = 0 then 0 else ends (p.border t)

def chunkTo (p : Width) (ends : Nat → Nat) (t : Nat) : Chunk where
  column := t * p.maxLoadNum
  maskColumn := t * p.maxLoadNum
  loadNum := p.border (t + 1) - p.border t
  weight := p.startTo ends t
  storeNum := p.startTo ends (t + 1) - p.startTo ends t
  dstAddr := p.startTo ends t * 4

/-- With exact ends. -/
abbrev start (p : Width) : Nat → Nat :=
  p.startTo p.dstIdxWEnd

abbrev chunkAt (p : Width) : Nat → Chunk :=
  p.chunkTo p.dstIdxWEnd

theorem loadRepeat_mul_add (p : Width) : p.loadRepeat * p.maxLoadNum + p.loadRemainder = p.evenW := by
  have hdiv := Nat.div_add_mod p.evenW p.maxLoadNum
  unfold loadRepeat loadRemainder
  split
  · next h =>
    rw [h.2, Nat.mul_comm] at hdiv
    rw [← Nat.succ_mul, Nat.succ_eq_add_one, Nat.sub_add_cancel (Nat.pos_of_ne_zero h.1)]
    exact hdiv
  · rwa [Nat.mul_comm]

theorem border_succ (ht : t ≤ p.loadRepeat) :
    p.border (t + 1) = p.border t + if t < p.loadRepeat then p.maxLoadNum else p.loadRemainder := by
  unfold border
  rw [if_pos ht]
  split
  · next hlt => rw [if_pos (show t < p.loadRepeat from hlt), Nat.succ_mul]
  · next hlt =>
    obtain rfl : t = p.loadRepeat := by omega
    rw [if_neg (lt_irrefl _), p.loadRepeat_mul_add]

theorem border_last (p : Width) : p.border (p.loadRepeat + 1) = p.evenW :=
  if_neg (by omega)

theorem startTo_last (p : Width) (ends : Nat → Nat) :
    p.startTo ends (p.loadRepeat + 1) = ends p.evenW := by
  rw [startTo, if_neg (Nat.succ_ne_zero _), p.border_last]

theorem start_last (hw : 0 < p.srcRoiW) (heven : p.srcRoiW ≤ p.evenW) :
    p.start (p.loadRepeat + 1) = p.dstRoiW :=
  (p.startTo_last _).trans (dstIdxWEnd_evenW hw heven)

theorem border_mono (p : Width) : Monotone p.border := by
  refine monotone_nat_of_le_succ fun t => ?_
  by_cases ht : t ≤ p.loadRepeat
  · rw [border_succ ht]
    exact Nat.le_add_right _ _
  · unfold border
    rw [if_neg ht, if_neg (by omega)]

theorem startTo_mono (hends : Monotone ends) : Monotone (p.startTo ends) := by
  refine monotone_nat_of_le_succ fun t => ?_
  cases t with
  | zero => exact Nat.zero_le _
  | succ t => exact hends (p.border_mono (Nat.le_succ _))

theorem start_mono (hw : 0 < p.srcRoiW) : Monotone p.start :=
  startTo_mono (dstIdxWEnd_mono hw)

theorem loadRemainder_pos (heven : 0 < p.evenW) (hm : 0 < p.maxLoadNum) :
    0 < p.loadRemainder ∧ p.loadRemainder ≤ p.maxLoadNum := by
  have hlt := Nat.mod_lt p.evenW hm
  have hdiv := Nat.div_add_mod p.evenW p.maxLoadNum
  unfold loadRemainder
  split
  · exact ⟨hm, le_refl _⟩
  · next h =>
    refine ⟨Nat.pos_of_ne_zero fun hzero => h ⟨fun hq => ?_, hzero⟩, hlt.le⟩
    rw [hq, hzero] at hdiv
    omega

theorem border_succ_le (heven : 0 < p.evenW) (hm : 0 < p.maxLoadNum) (ht : t ≤ p.loadRepeat) :
    p.border (t + 1) ≤ p.border t + p.maxLoadNum := by
  have hrem := (loadRemainder_pos heven hm).2
  rw [border_succ ht]
  split <;> omega

/-- The borders inside are the multiples of what is loaded at most. -/
theorem exists_border_iff (heven : 0 < p.evenW) :
    (∃ t, 0 < t ∧ t ≤ p.loadRepeat ∧ p.border t = b) ↔ 0 < b ∧ b < p.evenW ∧ p.maxLoadNum ∣ b := by
  have hsum := p.loadRepeat_mul_add
  constructor
  · rintro ⟨t, ht, hle, rfl⟩
    have hm : 0 < p.maxLoadNum := by
      by_contra hzero
      have hrepeat : p.loadRepeat = 0 := by
        simp [loadRepeat, show p.maxLoadNum = 0 by omega]
      omega
    have hrem := loadRemainder_pos heven hm
    have hmul : t * p.maxLoadNum ≤ p.loadRepeat * p.maxLoadNum := Nat.mul_le_mul_right _ hle
    rw [border, if_pos hle]
    exact ⟨Nat.mul_pos ht hm, by omega, Nat.dvd_mul_left _ _⟩
  · rintro ⟨hb, hlt, t, rfl⟩
    have ht : 0 < t := Nat.pos_of_ne_zero fun h => by simp [h] at hb
    have hm : 0 < p.maxLoadNum := Nat.pos_of_ne_zero fun h => by simp [h] at hb
    have hrem := loadRemainder_pos heven hm
    have hle : t < p.loadRepeat + 1 := by
      refine Nat.lt_of_mul_lt_mul_left (a := p.maxLoadNum) ?_
      rw [Nat.mul_succ, Nat.mul_comm _ p.loadRepeat]
      omega
    exact ⟨t, ht, Nat.lt_succ_iff.mp hle, by rw [border, if_pos (Nat.lt_succ_iff.mp hle), Nat.mul_comm]⟩

/-! ## The loop -/

/-- After `t` iterations. -/
def stateAt (p : Width) (ends : Nat → Nat) (t : Nat) : WidthState where
  srcIdxW := p.border t
  dstIdxWStart := p.startTo ends t
  maskColumn := t * p.maxLoadNum
  weight := p.startTo ends t
  dstAddr := p.startTo ends t * 4
  chunks := (List.range t).map (p.chunkTo ends)

theorem step_stateAt (hends : Monotone ends) (ht : t ≤ p.loadRepeat) :
    p.step ends (p.stateAt ends t) t = p.stateAt ends (t + 1) := by
  have hborder := border_succ ht
  have hload : (if t < p.loadRepeat then p.maxLoadNum else p.loadRemainder)
      = p.border (t + 1) - p.border t := by omega
  have hstart : ends (p.border (t + 1)) = p.startTo ends (t + 1) := rfl
  have hmono := startTo_mono (p := p) hends (Nat.le_succ t)
  simp only [step, stateAt, ← hborder, hstart, List.range_succ, List.map_append, List.map_cons,
    List.map_nil, WidthState.mk.injEq, true_and, Nat.succ_mul]
  refine ⟨Nat.add_sub_of_le hmono, ?_, ?_⟩
  · rw [← Nat.add_mul, Nat.add_sub_of_le hmono]
  · rw [hload]
    rfl

/-- **The iterations go from border to border.** -/
theorem chunksTo_eq (hends : Monotone ends) :
    p.chunksTo ends = (List.range (p.loadRepeat + 1)).map (p.chunkTo ends) := by
  have hrun : ∀ t ≤ p.loadRepeat + 1,
      (List.range t).foldl (p.step ends) (p.stateAt ends 0) = p.stateAt ends t := by
    intro t
    induction t with
    | zero => exact fun _ => rfl
    | succ t ih =>
      intro ht
      rw [List.range_succ, List.foldl_append, ih (by omega)]
      exact step_stateAt hends (by omega)
  have hzero : p.stateAt ends 0 = ⟨0, 0, 0, 0, 0, []⟩ := by simp [stateAt, border, startTo]
  unfold chunksTo
  rw [← hzero, hrun _ (le_refl _)]
  rfl

theorem chunks_eq (hw : 0 < p.srcRoiW) :
    p.chunks = (List.range (p.loadRepeat + 1)).map p.chunkAt :=
  chunksTo_eq (dstIdxWEnd_mono hw)

end Width

end CambriconGst.Easybang
