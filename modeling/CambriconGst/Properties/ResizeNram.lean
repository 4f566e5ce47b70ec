import CambriconGst.Easybang.ResizeNram
import CambriconGst.Properties.ResizeTables

/-!
# Whether the buffers fit

* `mallocSize_mono`: more columns need more space
* `nramLayout_fin`: what the search counts is what the layout takes
* `nram_fits_iff`: the search does not try the smallest chunk, so the buffers fit when that does
-/

namespace CambriconGst.Easybang

open Lib

variable {fl : Rounding} {k : TableKey} {mult limit : Nat}

/-! ## Sizes -/

theorem padUp_mono {x x' : Nat} (h : x ≤ x') (y : Nat) : padUp x y ≤ padUp x' y := by
  have hdiv : x / y ≤ x' / y := Nat.div_le_div_right h
  refine Nat.mul_le_mul_right y ?_
  rcases hdiv.lt_or_eq with hlt | heq
  · split_ifs <;> omega
  · have hx := Nat.div_add_mod x y
    have hx' := Nat.div_add_mod x' y
    rw [← heq] at hx'
    split_ifs <;> omega

theorem dstNum_mono (fl : Rounding) (k : TableKey) : Monotone (dstNum fl k) := by
  intro n n' hle
  have hcast : (n : ℚ) ≤ n' := Nat.cast_le.mpr hle
  have hdst : 0 ≤ fl.round k.dstRoiW := fl.nonneg (Nat.cast_nonneg _)
  have hsrc : 0 ≤ fl.round k.w := fl.nonneg (Nat.cast_nonneg _)
  have hround := fl.mono (Nat.cast_nonneg n) hcast
  have hnonneg : 0 ≤ fl.round n := fl.nonneg (Nat.cast_nonneg n)
  have hproduct := fl.mono (mul_nonneg hnonneg hdst) (mul_le_mul_of_nonneg_right hround hdst)
  have hquotient := div_le_div_of_nonneg_right hproduct hsrc
  have hpos := div_nonneg (fl.nonneg (mul_nonneg hnonneg hdst)) hsrc
  exact Int.toNat_le_toNat (Int.ceil_mono (fl.mono hpos hquotient))

theorem mallocSize_mono (fl : Rounding) (k : TableKey) (mult : Nat) :
    Monotone (mallocSize fl k mult) := by
  intro l l' hle
  have hsrc := Nat.div_le_div_right (c := channel)
    (padUp_mono (Nat.mul_le_mul_right channel (Nat.mul_le_mul_right 2 hle)) halfPadSize)
  have hdst := Nat.div_le_div_right (c := channel) (padUp_mono (Nat.mul_le_mul_right channel
    (dstNum_mono fl k (Nat.mul_le_mul_right 2 hle))) halfPadSize)
  have hyuv := padUp_mono (Nat.mul_le_mul_left 2 (padUp_mono (Nat.mul_le_mul_right 2 hsrc) ci))
    uint8PadSize
  unfold mallocSize
  dsimp only
  split
  · gcongr
  · gcongr

/-- **The search counts what the layout takes.** -/
theorem nramLayout_fin (hmult : 1 ≤ mult) (limit : Nat) :
    (nramLayout fl k mult (limit * 2)).fin = constSize + mallocSize fl k mult limit := by
  rcases hmult.eq_or_lt with rfl | hmult
  · simp only [nramLayout, mallocSize, constSize, sizeofHalf, if_pos, lt_irrefl, if_false]
    ring
  · simp only [nramLayout, mallocSize, constSize, sizeofHalf, hmult, hmult.ne', if_true, if_false]
    ring

/-! ## The search -/

/-- The search has a result, an even chunk, and the buffers for it are inside. -/
def NramFits (fl : Rounding) (k : TableKey) (mult : Nat) : Prop :=
  ∃ fuel limit, nramFindLimit fl k mult fuel = some limit ∧ 2 ≤ limit ∧ limit % 2 = 0 ∧
    (nramLayout fl k mult limit).fin ≤ nramSize

theorem fitsNram_eq_true (h : fitsNram fl k mult limit = some true) :
    mallocSize fl k mult limit ≤ nramSize - constSize := by
  unfold fitsNram at h
  split at h
  · exact of_decide_eq_true (Option.some.inj h)
  · exact absurd h nofun

theorem fitsNram_of_lt (h : mallocSize fl k mult limit < 2 ^ 31) :
    fitsNram fl k mult limit = some (decide (mallocSize fl k mult limit ≤ nramSize - constSize)) :=
  if_pos h

theorem nramFits_of_run (hmult : 1 ≤ mult) {fuel : Nat}
    (hrun : runMachine (Bisect.step (fitsNram fl k mult)) fuel (Bisect.start (k.evenW / 2))
      = some limit) (hlimit : 1 ≤ limit) :
    NramFits fl k mult ↔ mallocSize fl k mult limit ≤ nramSize - constSize := by
  have hconst : constSize ≤ nramSize := by decide
  constructor
  · rintro ⟨fuel', limit', hrun', -, -, hfin⟩
    obtain ⟨l, hl, rfl⟩ := Option.map_eq_some_iff.mp hrun'
    obtain rfl := runMachine_unique hrun hl
    rw [nramLayout_fin hmult] at hfin
    omega
  · intro hle
    refine ⟨fuel, limit * 2, Option.map_eq_some_iff.mpr ⟨limit, hrun, rfl⟩, by omega, by omega, ?_⟩
    rw [nramLayout_fin hmult]
    omega

/--
**The buffers fit exactly when those of the smallest chunk do** (two columns, or all four), and the
sizes of the whole width, which are tried first, fit in an `int`.
-/
theorem nram_fits_iff (fl : Rounding) (k : TableKey) (mult : Nat) (hw : 1 ≤ k.w)
    (hmult : 1 ≤ mult) :
    NramFits fl k mult ↔
      mallocSize fl k mult (if k.evenW = 4 then 2 else 1) ≤ nramSize - constSize ∧
        (6 ≤ k.evenW → mallocSize fl k mult (k.evenW / 2) < 2 ^ 31) := by
  have hmono := mallocSize_mono fl k mult
  have heven : k.evenW % 2 = 0 := Nat.mul_mod_left _ 2
  have hwidth := k.w_le_evenW
  by_cases hsmall : k.evenW / 2 ≤ 2
  · have hrun : runMachine (Bisect.step (fitsNram fl k mult)) 1 (Bisect.start (k.evenW / 2))
        = some (k.evenW / 2) := Bisect.run_start_le hsmall 0
    rw [nramFits_of_run hmult hrun (by omega)]
    have hchunk : k.evenW / 2 = if k.evenW = 4 then 2 else 1 := by split <;> omega
    rw [← hchunk, and_iff_left fun h => absurd h (by omega)]
  have hlarge : 3 ≤ k.evenW / 2 := by omega
  rw [if_neg (by omega)]
  by_cases htop : mallocSize fl k mult (k.evenW / 2) < 2 ^ 31
  · rw [and_iff_left fun _ => htop]
    have hdefined {l : Nat} (hl : l ≤ k.evenW / 2) : mallocSize fl k mult l < 2 ^ 31 :=
      (hmono hl).trans_lt htop
    by_cases hpass : mallocSize fl k mult (k.evenW / 2) ≤ nramSize - constSize
    · have hrun := Bisect.run_start_top hlarge
        ((fitsNram_of_lt htop).trans (congrArg some (decide_eq_true hpass))) 0
      rw [nramFits_of_run hmult hrun (by omega)]
      exact iff_of_true hpass ((hmono (by omega)).trans hpass)
    · obtain ⟨l, hrun, hone, hlt, hlast⟩ := Bisect.run_start_below hlarge
        ((fitsNram_of_lt htop).trans (congrArg some (decide_eq_false hpass)))
        fun l _ hl => by rw [fitsNram_of_lt (hdefined hl.le)]; exact nofun
      rw [nramFits_of_run hmult hrun hone]
      rcases hlast with rfl | hlast
      · exact Iff.rfl
      · have hfits := fitsNram_eq_true hlast
        exact iff_of_true hfits ((hmono hone).trans hfits)
  · refine iff_of_false ?_ fun h => htop (h.2 (by omega))
    rintro ⟨fuel, limit, hrun, -⟩
    have hnone : runMachine (Bisect.step (fitsNram fl k mult)) fuel (Bisect.start (k.evenW / 2))
        = none := Bisect.run_start_stuck hlarge (if_neg htop) fuel
    rw [nramFindLimit, hnone] at hrun
    exact absurd hrun nofun

/-- Lines of 640 pixels, made half as wide. -/
theorem nram_fits_half : NramFits .single { parity := 0, w := 640, dstRoiW := 320 } 1 :=
  (nram_fits_iff _ _ 1 (by decide) (by decide)).mpr ⟨by decide +kernel, fun _ => by decide +kernel⟩

/-- One column enlarged to a thousand: a pair of columns is too much, and is what is left to try. -/
theorem one_column_too_wide :
    ¬∀ (fl : Rounding) (curRoiX w dstRoiW : Nat), 1 ≤ w → 1 ≤ dstRoiW →
      NramFits fl { parity := curRoiX % 2, w, dstRoiW } (Easybang.mult w dstRoiW) := by
  intro h
  have hmult : Easybang.mult 1 1000 = 1500 := mult_of_lt (by decide) (by decide)
  have hfits := h .single 0 1 1000 (by decide) (by decide)
  rw [hmult, nram_fits_iff _ _ _ (by decide) (by decide)] at hfits
  exact absurd hfits.1 (by decide +kernel)

end CambriconGst.Easybang
