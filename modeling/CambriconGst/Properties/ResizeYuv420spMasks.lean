import CambriconGst.Easybang.ResizeYuv420sp
import Mathlib.Data.List.Sort
import Mathlib.Tactic.Ring

/-!
# The columns that the masks select

* `Shrinks.column_lt_succ`, `Shrinks.column_lt`: neighbours in the destination are a column of the
  source apart, and the last one is a column of the source
* `Shrinks.masks_eq`: what the loop selects and stores
* `Shrinks.buffer_columns`: what is in the masks then, when the weights and the masks have room in
  their parts of the buffer
* `columns_selected`: the columns, the masks and the positions; the weights of a wide destination get
  into a mask, and so does a mask of a wide source, and the position behind the last column is too
  large when the source is much wider than the destination
-/

namespace CambriconGst.Easybang.ResizeYuv420sp

/-- `posX` before the column `j`. -/
def position (scaleX : Int) (j : Nat) : Int :=
  scaleX / 2 - 32768 + j * scaleX

/-- The column of the source that the column `j` of the destination is taken from. -/
def column (scaleX : Int) (j : Nat) : Int :=
  position scaleX j / 65536

theorem position_succ (scaleX : Int) (j : Nat) :
    position scaleX j + scaleX = position scaleX (j + 1) := by
  unfold position
  rw [Nat.cast_succ, Int.add_mul, Int.one_mul, Int.add_assoc]

/-- Lines that are made shorter, and that the fixed point has room for. -/
structure Shrinks (sCol dCol : Nat) : Prop where
  one_le : 1 ≤ dCol
  le : dCol ≤ sCol
  lt : sCol < 2 ^ 15

namespace Shrinks

variable {sCol dCol j : Nat}

theorem scaleX_eq (h : Shrinks sCol dCol) : scaleX sCol dCol = (sCol * 65536 / dCol : ℕ) := by
  have hlt := h.lt
  have hwrap : uint32 ((sCol : Int) * 2 ^ 16) = (sCol * 65536 : ℕ) := by
    unfold uint32
    omega
  rw [scaleX, hwrap, Int.natCast_div]

/-- One column of the destination is one column of the source or more. -/
theorem le_scaleX (h : Shrinks sCol dCol) : 65536 ≤ scaleX sCol dCol := by
  have hdiv : 65536 ≤ sCol * 65536 / dCol := by
    rw [Nat.le_div_iff_mul_le h.one_le, Nat.mul_comm]
    exact Nat.mul_le_mul_right _ h.le
  rw [h.scaleX_eq]
  exact_mod_cast hdiv

theorem mul_scaleX_le (h : Shrinks sCol dCol) : dCol * scaleX sCol dCol ≤ sCol * 65536 := by
  have hmul := Nat.mul_div_le (sCol * 65536) dCol
  rw [h.scaleX_eq]
  exact_mod_cast hmul

theorem position_nonneg (h : Shrinks sCol dCol) : 0 ≤ position (scaleX sCol dCol) j := by
  have hscale := h.le_scaleX
  have hmul : 0 ≤ (j : Int) * scaleX sCol dCol := Int.mul_nonneg (Int.natCast_nonneg j) (by omega)
  unfold position
  omega

theorem column_nonneg (h : Shrinks sCol dCol) : 0 ≤ column (scaleX sCol dCol) j :=
  Int.ediv_nonneg h.position_nonneg (by decide)

theorem column_lt_succ (h : Shrinks sCol dCol) :
    column (scaleX sCol dCol) j < column (scaleX sCol dCol) (j + 1) := by
  have hscale := h.le_scaleX
  unfold column
  rw [← position_succ]
  omega

/-- Until the column before, the positions are half a column from the end of the line or more. -/
theorem position_le (h : Shrinks sCol dCol) (hj : j < dCol) :
    position (scaleX sCol dCol) j ≤ sCol * 65536 - 65536 := by
  have hscale := h.le_scaleX
  have hmul := h.mul_scaleX_le
  have hrest : (j : Int) * scaleX sCol dCol + scaleX sCol dCol ≤ dCol * scaleX sCol dCol := by
    rw [← add_one_mul]
    exact Int.mul_le_mul_of_nonneg_right (by omega) (by omega)
  unfold position
  omega

theorem column_lt (h : Shrinks sCol dCol) (hj : j < dCol) : column (scaleX sCol dCol) j < sCol := by
  have hle := h.position_le hj
  unfold column
  omega

end Shrinks

/-! ## The loop -/

/-- What is stored for a column: its weights, and where it is selected. -/
def storeColumn (scaleX : Int) (dstDealNum : Nat) (buffer : Int → Cell) (j : Nat) : Int → Cell :=
  Function.update
    (Function.update
      (Function.update
        (Function.update buffer j (.wx0 (position scaleX j)))
        (j + dstDealNum) (.wx1 (position scaleX j)))
      (maskX0Start + column scaleX j) .one)
    (maskX1Start + (column scaleX j + 1)) .one

/-- The buffer before the loop. -/
def cleared (sCol : Nat) : Int → Cell :=
  writeZero maskX1Start (dealNum sCol) (writeZero maskX0Start (dealNum sCol) fun _ => .untouched)

/-- The buffer after `j` columns. -/
def stored (sCol dCol j : Nat) : Int → Cell :=
  (List.range j).foldl (storeColumn (scaleX sCol dCol) (dealNum dCol)) (cleared sCol)

/-- What the loop has after `j` columns. -/
structure Selected (sCol dCol j : Nat) (s : MaskState) : Prop where
  posX : s.posX = position (scaleX sCol dCol) j
  sxPrev : s.sxPrev < column (scaleX sCol dCol) j
  positions : s.positions = (List.range (j + 1)).map (position (scaleX sCol dCol))
  columns : s.columns = (List.range j).map (column (scaleX sCol dCol))
  buffer : s.buffer = stored sCol dCol j

namespace Shrinks

variable {sCol dCol j : Nat}

/-- A column is another one than the column before, so its slots are its own. -/
theorem selected_step (h : Shrinks sCol dCol) (hj : j < dCol) {s : MaskState}
    (hs : Selected sCol dCol j s) :
    Selected sCol dCol (j + 1) (maskStep (scaleX sCol dCol) (sCol - 1) (dealNum dCol) s j) := by
  have hnonneg := h.position_nonneg (j := j)
  have hcolumn : position (scaleX sCol dCol) j >>> (16 : Nat)
      * (if position (scaleX sCol dCol) j > 0 then 1 else 0) = column (scaleX sCol dCol) j := by
    unfold column
    split
    · rw [Int.mul_one]
      exact Int.shiftRight_eq_div_pow _ 16
    · omega
  have hclamp : (if column (scaleX sCol dCol) j < (sCol : Int) - 1 then column (scaleX sCol dCol) j
      else (sCol : Int) - 1) = column (scaleX sCol dCol) j := by
    have hlt := h.column_lt hj
    split <;> omega
  have hne : s.sxPrev ≠ column (scaleX sCol dCol) j := hs.sxPrev.ne
  simp only [maskStep, hs.posX, hcolumn, hclamp, if_pos hne, if_neg hne, position_succ]
  have hslot : (j : Int) - (j * 1 + s.jPrev * 0) = 0 := by omega
  refine ⟨rfl, h.column_lt_succ, ?_, ?_, ?_⟩ <;> dsimp only
  · rw [hs.positions, List.range_succ (n := j + 1), List.map_append]
    rfl
  · rw [hs.columns, List.range_succ, List.map_append]
    rfl
  · rw [hs.buffer, hslot, Int.add_zero, Int.add_zero, stored, stored, List.range_succ,
      List.foldl_append]
    rfl

theorem masks_eq (h : Shrinks sCol dCol) : Selected sCol dCol dCol (masks sCol dCol) := by
  have key : ∀ j ≤ dCol, Selected sCol dCol j
      ((List.range j).foldl (maskStep (scaleX sCol dCol) (sCol - 1) (dealNum dCol))
        { posX := scaleX sCol dCol / 2 - 32768, jPrev := 0, sxPrev := -1
          positions := [scaleX sCol dCol / 2 - 32768], columns := []
          buffer := cleared sCol }) := by
    intro j
    induction j with
    | zero =>
      intro _
      have hstart : position (scaleX sCol dCol) 0 = scaleX sCol dCol / 2 - 32768 := by
        simp [position]
      have hcolumn := h.column_nonneg (j := 0)
      refine ⟨hstart.symm, ?_, ?_, rfl, rfl⟩
      · dsimp only [List.range_zero, List.foldl_nil]
        omega
      · simp [hstart]
    | succ j ih =>
      intro hj
      rw [List.range_succ, List.foldl_append]
      exact h.selected_step hj (ih (Nat.le_of_succ_le hj))
  exact key dCol (le_refl dCol)

theorem column_strictMono (h : Shrinks sCol dCol) : StrictMono (column (scaleX sCol dCol)) :=
  strictMono_nat_of_lt_succ fun _ => h.column_lt_succ

theorem columns_pairwise (h : Shrinks sCol dCol) :
    ((List.range dCol).map (column (scaleX sCol dCol))).Pairwise (· < ·) := by
  rw [List.pairwise_map]
  exact List.pairwise_lt_range.imp fun hlt => h.column_strictMono hlt

end Shrinks

/-! ## The buffer -/

/-- The slots of a mask in which its 1 is, in their order: those of its part of the buffer. -/
def MaskState.slots (s : MaskState) (start : Nat) : List Int :=
  ((List.range (2 * maxSegment)).map Int.ofNat).filter fun i => s.buffer (start + i) = .one

/-- The columns of a line of `n` that `__bang_collect` keeps, in its order. -/
def MaskState.collect (s : MaskState) (start n : Nat) : List Int :=
  ((List.range n).map Int.ofNat).filter fun i => s.buffer (start + i) ≠ .zero

/-- The weights and the masks have room in their parts of the buffer. -/
def HasRoom (sCol dCol : Nat) : Prop :=
  dCol ≤ 8192 ∧ position (scaleX sCol dCol) (dCol - 1) < 16383 * 65536

theorem maxSegment_eq : maxSegment = 8192 :=
  rfl

theorem maskX0Start_eq : maskX0Start = 16384 :=
  rfl

theorem maskX1Start_eq : maskX1Start = 32768 :=
  rfl

theorem dealNum_le (col : Nat) : dealNum col ≤ maxSegment := by
  unfold dealNum
  dsimp only
  split <;> omega

theorem le_dealNum {col : Nat} (h : col ≤ maxSegment) : col ≤ dealNum col := by
  have hpad : col ≤ padUp col 64 := by
    unfold padUp
    split <;> omega
  unfold dealNum
  dsimp only
  split
  · exact h
  · exact hpad

theorem dealNum_of_lt {col : Nat} (h : maxSegment < col) : dealNum col = maxSegment := by
  have hpad : col ≤ padUp col 64 := by
    unfold padUp
    split <;> omega
  exact if_pos (h.trans_le hpad)

theorem storeColumn_apply (scaleX : Int) (dstDealNum : Nat) (buffer : Int → Cell) (j : Nat)
    (a : Int) : storeColumn scaleX dstDealNum buffer j a =
      if a = maskX1Start + (column scaleX j + 1) ∨ a = maskX0Start + column scaleX j then .one
      else if a = j + dstDealNum then .wx1 (position scaleX j)
      else if a = j then .wx0 (position scaleX j)
      else buffer a := by
  unfold storeColumn
  simp only [Function.update_apply]
  split
  · next h => rw [if_pos (.inl h)]
  · next h =>
    split
    · next h' => rw [if_pos (.inr h')]
    · next h' => rw [if_neg (not_or.mpr ⟨h, h'⟩)]

/-- What is kept of a line, for slots that increase. -/
theorem filter_range_eq {cs : List Int} (hs : cs.Pairwise (· < ·)) (hnonneg : ∀ c ∈ cs, 0 ≤ c)
    {p : Int → Bool} {n : Nat} (hp : ∀ i : Int, 0 ≤ i → i < n → (p i = true ↔ i ∈ cs)) :
    ((List.range n).map Int.ofNat).filter p = cs.filter (· < (n : Int)) := by
  refine List.Pairwise.eq_of_mem_iff (r := (· < ·)) ?_ (hs.filter _) fun c => ?_
  · refine List.Pairwise.filter _ (List.pairwise_map.mpr ?_)
    exact List.pairwise_lt_range.imp fun hlt => Int.ofNat_lt.mpr hlt
  · rw [List.mem_filter, List.mem_filter, List.mem_map, decide_eq_true_iff]
    constructor
    · rintro ⟨⟨k, hk, rfl⟩, hkeep⟩
      have hlt : ((k : Nat) : Int) < n := Int.ofNat_lt.mpr (List.mem_range.mp hk)
      exact ⟨(hp _ (Int.natCast_nonneg k) hlt).mp hkeep, hlt⟩
    · rintro ⟨hmem, hlt⟩
      have hc := hnonneg c hmem
      exact ⟨⟨c.toNat, List.mem_range.mpr (by omega), Int.toNat_of_nonneg hc⟩,
        (hp c hc hlt).mpr hmem⟩

/-- A mask of the buffer: where it begins, and the slot of each column. -/
structure HasSlots (sCol dCol start : Nat) (slot : Nat → Int) : Prop where
  mono : StrictMono slot
  nonneg : ∀ j, 0 ≤ slot j
  lt : ∀ j < dCol, slot j < 2 * maxSegment
  storeColumn : ∀ (buffer : Int → Cell), ∀ j < dCol, ∀ i : Int, 0 ≤ i → i < 2 * maxSegment →
    storeColumn (scaleX sCol dCol) (dealNum dCol) buffer j (start + i) =
      if i = slot j then .one else buffer (start + i)
  cleared : ∀ i : Int, 0 ≤ i → i < 2 * maxSegment →
    cleared sCol (start + i) = if i < dealNum sCol then .zero else .untouched

namespace HasSlots

variable {sCol dCol start : Nat} {slot : Nat → Int} {s : MaskState}

/-- What is in a slot after `j` columns. -/
theorem stored (h : HasSlots sCol dCol start slot) {j : Nat} (hj : j ≤ dCol) {i : Int} (hi : 0 ≤ i)
    (hlt : i < 2 * maxSegment) : stored sCol dCol j (start + i) =
      if i ∈ (List.range j).map slot then .one
      else if i < dealNum sCol then .zero else .untouched := by
  induction j with
  | zero => exact h.cleared i hi hlt
  | succ j ih =>
    rw [ResizeYuv420sp.stored, List.range_succ, List.foldl_append, List.map_append]
    refine (h.storeColumn _ j hj i hi hlt).trans ?_
    rw [← ResizeYuv420sp.stored, ih (Nat.le_of_succ_le hj)]
    by_cases hslot : i = slot j
    · simp [hslot]
    · simp [hslot]

theorem pairwise (h : HasSlots sCol dCol start slot) : ((List.range dCol).map slot).Pairwise (· < ·) := by
  rw [List.pairwise_map]
  exact List.pairwise_lt_range.imp fun hlt => h.mono hlt

theorem nonneg_of_mem (h : HasSlots sCol dCol start slot) : ∀ c ∈ (List.range dCol).map slot, 0 ≤ c := by
  intro c hc
  obtain ⟨j, -, rfl⟩ := List.mem_map.mp hc
  exact h.nonneg j

theorem slots_eq (h : HasSlots sCol dCol start slot) (hs : s.buffer = ResizeYuv420sp.stored sCol dCol dCol) :
    s.slots start = (List.range dCol).map slot := by
  refine (filter_range_eq h.pairwise h.nonneg_of_mem fun i hi hlt => ?_).trans ?_
  · rw [decide_eq_true_iff, hs, h.stored (le_refl _) hi (by exact_mod_cast hlt)]
    split
    · next hmem => exact iff_of_true rfl hmem
    · next hmem =>
      refine iff_of_false ?_ hmem
      split <;> exact nofun
  · refine List.filter_eq_self.mpr fun c hc => ?_
    obtain ⟨j, hj, rfl⟩ := List.mem_map.mp hc
    have hlt := h.lt j (List.mem_range.mp hj)
    exact decide_eq_true (by exact_mod_cast hlt)

theorem collect_eq (h : HasSlots sCol dCol start slot) (hs : s.buffer = ResizeYuv420sp.stored sCol dCol dCol)
    {n : Nat} (hn : n ≤ dealNum sCol) :
    s.collect start n = ((List.range dCol).map slot).filter (· < (n : Int)) := by
  have hle := dealNum_le sCol
  refine filter_range_eq h.pairwise h.nonneg_of_mem fun i hi hlt => ?_
  rw [decide_eq_true_iff, hs, h.stored (le_refl _) hi (by omega), if_pos (by omega : i < dealNum sCol)]
  split
  · next hmem => exact iff_of_true nofun hmem
  · next hmem => exact iff_of_false (fun hne => hne rfl) hmem

end HasSlots

namespace Shrinks

variable {sCol dCol j : Nat}

/-- The columns that are selected are in front of the end of a mask. -/
theorem column_lt_of_hasRoom (h : Shrinks sCol dCol) (hr : HasRoom sCol dCol) (hj : j < dCol) :
    column (scaleX sCol dCol) j < 16383 := by
  have hle : column (scaleX sCol dCol) j ≤ column (scaleX sCol dCol) (dCol - 1) :=
    h.column_strictMono.monotone (by omega)
  have hlast := hr.2
  unfold column at hle ⊢
  omega

theorem hasSlots_maskX0 (h : Shrinks sCol dCol) (hr : HasRoom sCol dCol) :
    HasSlots sCol dCol maskX0Start (column (scaleX sCol dCol)) where
  mono := h.column_strictMono
  nonneg _ := h.column_nonneg
  lt j hj := by
    have hlt := h.column_lt_of_hasRoom hr hj
    rw [maxSegment_eq]
    omega
  storeColumn buffer j hj i hi hlt := by
    have hdeal := dealNum_le dCol
    have hcolumn := h.column_nonneg (j := j)
    have hroom := hr.1
    rw [maxSegment_eq] at hlt hdeal
    rw [storeColumn_apply, maskX0Start_eq, maskX1Start_eq]
    by_cases hslot : i = column (scaleX sCol dCol) j
    · rw [if_pos (.inr (by omega)), if_pos hslot]
    · rw [if_neg (by omega), if_neg (by omega), if_neg (by omega), if_neg hslot]
  cleared i hi hlt := by
    have hdeal := dealNum_le sCol
    rw [maxSegment_eq] at hlt hdeal
    unfold cleared writeZero
    rw [maskX0Start_eq, maskX1Start_eq, if_neg (by omega)]
    by_cases hin : i < dealNum sCol
    · rw [if_pos (by omega), if_pos hin]
    · rw [if_neg (by omega), if_neg hin]

theorem hasSlots_maskX1 (h : Shrinks sCol dCol) (hr : HasRoom sCol dCol) :
    HasSlots sCol dCol maskX1Start fun j => column (scaleX sCol dCol) j + 1 where
  mono _ _ hlt := Int.add_lt_add_right (h.column_strictMono hlt) 1
  nonneg _ := Int.add_nonneg h.column_nonneg (by decide)
  lt j hj := by
    have hlt := h.column_lt_of_hasRoom hr hj
    rw [maxSegment_eq]
    omega
  storeColumn buffer j hj i hi hlt := by
    have hdeal := dealNum_le dCol
    have hcolumn := h.column_lt_of_hasRoom hr hj
    have hroom := hr.1
    rw [maxSegment_eq] at hlt hdeal
    rw [storeColumn_apply, maskX0Start_eq, maskX1Start_eq]
    by_cases hslot : i = column (scaleX sCol dCol) j + 1
    · rw [if_pos (.inl (by omega)), if_pos hslot]
    · rw [if_neg (by omega), if_neg (by omega), if_neg (by omega), if_neg hslot]
  cleared i hi hlt := by
    have hdeal := dealNum_le sCol
    rw [maxSegment_eq] at hlt hdeal
    unfold cleared writeZero
    rw [maskX0Start_eq, maskX1Start_eq]
    by_cases hin : i < dealNum sCol
    · rw [if_pos (by omega), if_pos hin]
    · rw [if_neg (by omega), if_neg (by omega), if_neg hin]

/-! ### Wide destinations -/

/-- The weights of a wide destination get into the first slot of `maskX0`. -/
theorem stored_maskX0Start (h : Shrinks sCol dCol) (hwide : 8192 < dCol) {n : Nat} (hn : 8192 < n) :
    stored sCol dCol n maskX0Start ≠ .one := by
  have hdeal : dealNum dCol = 8192 := dealNum_of_lt hwide
  induction n with
  | zero => exact absurd hn (Nat.not_lt_zero _)
  | succ n ih =>
    -- no column behind the first one is the column 0
    have hpos : 0 < column (scaleX sCol dCol) n :=
      h.column_nonneg.trans_lt (h.column_strictMono (show 0 < n by omega))
    have hstep : stored sCol dCol (n + 1) maskX0Start =
        storeColumn (scaleX sCol dCol) (dealNum dCol) (stored sCol dCol n) n maskX0Start := by
      rw [stored, List.range_succ, List.foldl_append]
      rfl
    rw [hstep, storeColumn_apply, hdeal, maskX0Start_eq, maskX1Start_eq, if_neg (by omega)]
    split
    · exact nofun
    · split
      · exact nofun
      · exact ih (by omega)

/-- When the columns are in front of the end of a mask, the first one of a wide destination is 0. -/
theorem column_zero_of_wide (h : Shrinks sCol dCol) (hwide : 8192 < dCol)
    (hlast : position (scaleX sCol dCol) (dCol - 1) < 16383 * 65536) :
    column (scaleX sCol dCol) 0 = 0 := by
  have hscale := h.le_scaleX
  have hmul : 8192 * scaleX sCol dCol ≤ ((dCol - 1 : Nat) : Int) * scaleX sCol dCol :=
    Int.mul_le_mul_of_nonneg_right (by omega) (by omega)
  unfold column
  unfold position at hlast ⊢
  omega

end Shrinks

/-! ## The tables -/

/-- A position that an `int` holds. -/
def Fits (p : Int) : Prop :=
  -2 ^ 31 ≤ p ∧ p < 2 ^ 31

/-- The positions, all that `posX` takes, fit in 32 bits exactly when the last one does. -/
theorem positions_fit_iff {sCol dCol : Nat} (h : Shrinks sCol dCol) :
    (∀ p ∈ (masks sCol dCol).positions, Fits p) ↔ position (scaleX sCol dCol) dCol < 2 ^ 31 := by
  rw [h.masks_eq.positions]
  constructor
  · intro hfit
    exact (hfit _ (List.mem_map.mpr ⟨dCol, List.mem_range.mpr (Nat.lt_succ_self _), rfl⟩)).2
  · intro hlast p hp
    obtain ⟨j, hj, rfl⟩ := List.mem_map.mp hp
    have hnonneg := h.position_nonneg (j := j)
    have hlt := h.lt
    rcases Nat.lt_succ_iff_lt_or_eq.mp (List.mem_range.mp hj) with hlt | rfl
    · have hposition := h.position_le hlt
      exact ⟨by omega, by omega⟩
    · exact ⟨by omega, hlast⟩

/-- What the masks are to be: their slots are the columns and those on the right of them. -/
structure MasksRight (sCol dCol : Nat) : Prop where
  left : (masks sCol dCol).slots maskX0Start = (masks sCol dCol).columns
  right : (masks sCol dCol).slots maskX1Start = (masks sCol dCol).columns.map (· + 1)
  /-- Of a line of the source as long as it is padded to. -/
  collect : ∀ n ≤ dealNum sCol,
    (masks sCol dCol).collect maskX0Start n =
      (masks sCol dCol).columns.filter (· < (n : Int)) ∧
    (masks sCol dCol).collect maskX1Start n =
      ((masks sCol dCol).columns.map (· + 1)).filter (· < (n : Int))

theorem masksRight_iff {sCol dCol : Nat} (h : Shrinks sCol dCol) :
    MasksRight sCol dCol ↔ HasRoom sCol dCol := by
  have ht := h.masks_eq
  have hmap : (masks sCol dCol).columns.map (· + 1) =
      (List.range dCol).map fun j => column (scaleX sCol dCol) j + 1 := by
    rw [ht.columns, List.map_map]
    rfl
  constructor
  · intro hm
    have hmem {j : Nat} (hj : j < dCol) : column (scaleX sCol dCol) j + 1 < 2 * maxSegment ∧
        (masks sCol dCol).buffer (maskX0Start + column (scaleX sCol dCol) j) = .one := by
      have hleft : column (scaleX sCol dCol) j ∈ (masks sCol dCol).slots maskX0Start := by
        rw [hm.left, ht.columns]
        exact List.mem_map.mpr ⟨j, List.mem_range.mpr hj, rfl⟩
      have hright : column (scaleX sCol dCol) j + 1 ∈ (masks sCol dCol).slots maskX1Start := by
        rw [hm.right, hmap]
        exact List.mem_map.mpr ⟨j, List.mem_range.mpr hj, rfl⟩
      obtain ⟨k, hk, hke⟩ := List.mem_map.mp (List.mem_filter.mp hright).1
      refine ⟨?_, of_decide_eq_true (List.mem_filter.mp hleft).2⟩
      rw [← hke]
      exact Int.ofNat_lt.mpr (List.mem_range.mp hk)
    have hpos := h.one_le
    have hlast : position (scaleX sCol dCol) (dCol - 1) < 16383 * 65536 := by
      have hlt := (hmem (show dCol - 1 < dCol by omega)).1
      rw [maxSegment_eq] at hlt
      unfold column at hlt
      omega
    refine ⟨Nat.le_of_not_lt fun hwide => ?_, hlast⟩
    have hone := (hmem hpos).2
    rw [h.column_zero_of_wide hwide hlast, Int.add_zero, ht.buffer] at hone
    exact h.stored_maskX0Start hwide hwide hone
  · intro hr
    have h0 := h.hasSlots_maskX0 hr
    have h1 := h.hasSlots_maskX1 hr
    refine ⟨?_, ?_, fun n hn => ⟨?_, ?_⟩⟩
    · rw [h0.slots_eq ht.buffer, ht.columns]
    · rw [h1.slots_eq ht.buffer, hmap]
    · rw [h0.collect_eq ht.buffer hn, ht.columns]
    · rw [h1.collect_eq ht.buffer hn, hmap]

/--
**The columns that are selected increase.** The slots that are set are those columns, one to the right
of the other, and collecting by a mask keeps their order, exactly when the weights and the masks have
room in their parts of the buffer; the positions fit in 32 bits exactly when the one behind the last
column does.
-/
theorem columns_selected (sCol dCol : Nat) (hd : 1 ≤ dCol) (hle : dCol ≤ sCol)
    (hs : sCol < 2 ^ 15) :
    ((masks sCol dCol).columns.Pairwise (· < ·) ∧ (masks sCol dCol).columns.length = dCol ∧
      ∀ c ∈ (masks sCol dCol).columns, 0 ≤ c ∧ c ≤ (sCol : Int) - 1) ∧
    ((MasksRight sCol dCol ∧ ∀ p ∈ (masks sCol dCol).positions, Fits p) ↔
      dCol ≤ 8192 ∧
      scaleX sCol dCol / 2 - 2 ^ 15 + (dCol - 1 : Nat) * scaleX sCol dCol < 16383 * 2 ^ 16 ∧
      scaleX sCol dCol / 2 - 2 ^ 15 + dCol * scaleX sCol dCol < 2 ^ 31) := by
  have h : Shrinks sCol dCol := ⟨hd, hle, hs⟩
  refine ⟨?_, ?_⟩
  · rw [h.masks_eq.columns]
    refine ⟨h.columns_pairwise, by rw [List.length_map, List.length_range], fun c hc => ?_⟩
    obtain ⟨j, hj, rfl⟩ := List.mem_map.mp hc
    have hlt := h.column_lt (List.mem_range.mp hj)
    exact ⟨h.column_nonneg, by omega⟩
  · rw [masksRight_iff h, positions_fit_iff h, ← and_assoc]
    rfl

/-- A thousand columns from a line as wide as a segment: all slots and positions are right. -/
theorem columns_selected_thousand :
    MasksRight 8191 1000 ∧ ∀ p ∈ (masks 8191 1000).positions, Fits p :=
  (columns_selected 8191 1000 (by decide) (by decide) (by decide)).2.mpr
    ⟨by decide, by decide, by decide⟩

/-- A single column of a wide source. -/
theorem position_overflows :
    ¬∀ sCol dCol : Nat, 1 ≤ dCol → dCol ≤ sCol → sCol < 2 ^ 15 →
      ∀ p ∈ (masks sCol dCol).positions, Fits p := by
  intro h
  have hlast := h 32767 1 (by decide) (by decide) (by decide) 3221094400 (by decide)
  exact absurd hlast.2 (by decide)

end CambriconGst.Easybang.ResizeYuv420sp
