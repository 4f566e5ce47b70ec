import CambriconGst.Lib.CoversOnce
import CambriconGst.Properties.ResizeChunks
import CambriconGst.Properties.ResizeTables
import Mathlib.Data.List.Sort

/-!
# A row of the destination, chunk by chunk

Whatever the positions of the columns are, and where the iterations end.

* `Columns.maskLeftIndex_eq`: the slot of a pixel
* `Slotted`: the pixels have slots of the masks of their own; `CountsAgree.slotted` is when
* `Slotted.collect_left`, `Slotted.collect_right`: the pixels that columns are selected for
* `Slotted.countsAgree_iff`: when each chunk selects as many left pixels as it stores
* `Slotted.rowsAgree_iff`: when the chunks give the row that the whole width gives
-/

namespace CambriconGst.Easybang

open Lib

namespace Columns

variable {c : Columns} {b d d' j t : Nat}

/-! ## Slots -/

/-- How many of the pixels before this one are taken from the same column. -/
def before (c : Columns) (d : Nat) : Nat :=
  Nat.count (fun e => c.srcWIterInt e = c.srcWIterInt d) d

/-- The pixels of a column have slots side by side. -/
theorem maskLeftIndex_run (c : Columns) (d : Nat) :
    ∃ r ≤ d, (∀ i ≤ r, c.srcWIterInt (d - i) = c.srcWIterInt d ∧
      c.maskLeftIndex (d - i) + i = (c.srcWIterInt d + c.parity) * c.mult + r) ∧
      (r < d → c.srcWIterInt (d - r - 1) ≠ c.srcWIterInt d) := by
  induction d with
  | zero => exact ⟨0, le_refl 0, fun i hi => by simp [Nat.le_zero.mp hi, maskLeftIndex], nofun⟩
  | succ d ih =>
    by_cases hsame : c.srcWIterInt (d + 1) = c.srcWIterInt d
    · obtain ⟨r, hr, hrun, hbefore⟩ := ih
      refine ⟨r + 1, by omega, fun i hi => ?_, fun hlt => ?_⟩
      · cases i with
        | zero =>
          have hlast := (hrun 0 (Nat.zero_le r)).2
          rw [Nat.sub_zero, Nat.add_zero] at hlast
          refine ⟨rfl, ?_⟩
          rw [Nat.sub_zero, Nat.add_zero, maskLeftIndex, if_pos hsame, hlast, hsame, Nat.add_assoc]
        | succ i =>
          obtain ⟨hint, hindex⟩ := hrun i (by omega)
          rw [Nat.add_sub_add_right, hsame]
          exact ⟨hint, by omega⟩
      · rw [Nat.add_sub_add_right, hsame]
        exact hbefore (by omega)
    · refine ⟨0, Nat.zero_le _, fun i hi => ?_, fun _ => ?_⟩
      · rw [Nat.le_zero.mp hi, Nat.sub_zero, maskLeftIndex, if_neg hsame]
        exact ⟨rfl, rfl⟩
      · rw [Nat.sub_zero, Nat.add_sub_cancel]
        exact fun heq => hsame heq.symm

/-- **The slot of a pixel: that of its column, and one more for each pixel before it.** -/
theorem maskLeftIndex_eq (hmono : Monotone c.srcWIterInt) (d : Nat) :
    c.maskLeftIndex d = (c.srcWIterInt d + c.parity) * c.mult + c.before d := by
  obtain ⟨r, hr, hrun, hbefore⟩ := c.maskLeftIndex_run d
  have hindex := (hrun 0 (Nat.zero_le r)).2
  rw [Nat.sub_zero, Nat.add_zero] at hindex
  have hcount : c.before d = r := by
    have hnone : Nat.count (fun e => c.srcWIterInt e = c.srcWIterInt d) (d - r) = 0 := by
      refine Nat.count_iff_forall_not.mpr fun e he heq => ?_
      have hlow := hmono (show e ≤ d - r - 1 by omega)
      have hhigh := hmono (show d - r - 1 ≤ d by omega)
      exact hbefore (by omega) (by omega)
    have hall : Nat.count (fun i => c.srcWIterInt (d - r + i) = c.srcWIterInt d) r = r := by
      refine Nat.count_iff_forall.mpr fun i hi => ?_
      have hint := (hrun (r - i) (Nat.sub_le r i)).1
      rwa [show d - (r - i) = d - r + i by omega] at hint
    have hsplit := Nat.count_add (p := fun e => c.srcWIterInt e = c.srcWIterInt d) (d - r) r
    rw [Nat.sub_add_cancel hr, hnone, hall, Nat.zero_add] at hsplit
    exact hsplit
  rw [hindex, hcount]

/-- Slots that are all different are in the order of the pixels. -/
theorem maskLeftIndex_strictMono (hmono : Monotone c.srcWIterInt) (hmult : 0 < c.mult)
    (hinj : ∀ d < c.dstRoiW, ∀ d' < c.dstRoiW, c.maskLeftIndex d = c.maskLeftIndex d' → d = d') :
    ∀ {d d'}, d < d' → d' < c.dstRoiW → c.maskLeftIndex d < c.maskLeftIndex d' := by
  have hstep {d : Nat} (hd : d + 1 < c.dstRoiW) : c.maskLeftIndex d < c.maskLeftIndex (d + 1) := by
    rw [maskLeftIndex]
    split_ifs with hsame
    · exact Nat.lt_succ_self _
    by_contra hle
    -- the slot would be that of an earlier pixel of the column before
    obtain ⟨r, hr, hrun, -⟩ := c.maskLeftIndex_run d
    have hindex := (hrun 0 (Nat.zero_le r)).2
    have hnext : (c.srcWIterInt d + c.parity) * c.mult + c.mult
        ≤ (c.srcWIterInt (d + 1) + c.parity) * c.mult := by
      have hlt : c.srcWIterInt d < c.srcWIterInt (d + 1) :=
        lt_of_le_of_ne (hmono (Nat.le_succ d)) (Ne.symm hsame)
      rw [← Nat.succ_mul]
      exact Nat.mul_le_mul_right _ (by omega)
    rw [Nat.sub_zero, Nat.add_zero] at hindex
    obtain ⟨i, hi⟩ := Nat.exists_eq_add_of_le (not_lt.mp hle)
    have hslot : c.maskLeftIndex (d + 1) = (c.srcWIterInt (d + 1) + c.parity) * c.mult := by
      rw [maskLeftIndex, if_neg hsame]
    have hearlier := (hrun i (by omega)).2
    have heq := hinj (d - i) (by omega) (d + 1) hd (by omega)
    omega
  intro d d' hlt
  induction hlt with
  | refl => exact fun hd => hstep hd
  | step _ ih => exact fun hd => (ih (Nat.lt_of_succ_lt hd)).trans (hstep hd)

/-- The column of the source that the slot of a pixel belongs to. -/
def slotColumn (c : Columns) (d : Nat) : Nat :=
  c.maskLeftIndex d / c.mult

/-- How many pixels have slots of columns before `b`. -/
def first (c : Columns) (b : Nat) : Nat :=
  Nat.count (fun d => c.slotColumn d < b) c.dstRoiW

theorem first_mono (c : Columns) : Monotone c.first :=
  fun _ _ hle => Nat.count_mono_left fun _ _ hlt => hlt.trans_le hle

theorem first_le (c : Columns) (b : Nat) : c.first b ≤ c.dstRoiW :=
  Nat.count_le _

@[simp]
theorem first_zero (c : Columns) : c.first 0 = 0 := by
  simp [first]

/-- How many pixels have slots of the column before `b`. -/
def last (c : Columns) (b : Nat) : Nat :=
  Nat.count (fun d => c.slotColumn d + 1 = b) c.dstRoiW

theorem first_eq_add_last (c : Columns) (b : Nat) : c.first b = c.first (b - 1) + c.last b := by
  unfold first last
  generalize c.dstRoiW = n
  induction n with
  | zero => simp
  | succ n ih =>
    simp only [Nat.count_succ]
    split_ifs <;> omega

/-! ## What is collected -/

theorem mem_collect {m : Mask} {ch : Chunk} {slot : Nat} :
    slot ∈ c.collect m ch ↔
      (c.mult * ch.maskColumn ≤ slot ∧ slot < c.mult * (ch.maskColumn + ch.loadNum)) ∧
      c.group m slot := by
  rw [collect, List.mem_filter, List.mem_range'_1, ← Nat.mul_add]

theorem group_left_iff {slot : Nat} :
    c.group .left slot ↔ ∃ d < c.dstRoiW, c.maskLeftIndex d = slot := by
  simp [group]

theorem group_right_iff {slot : Nat} :
    c.group .right slot ↔ ∃ d < c.dstRoiW, c.maskLeftIndex d + c.mult = slot ∧
      c.maskLeftIndex d + c.mult < c.mult * (c.w + c.parity) := by
  simp only [group, List.any_eq_true, List.mem_range]
  refine exists_congr fun d => and_congr_right fun _ => ?_
  rw [decide_eq_true_iff, maskRightIndex, Nat.mul_comm c.mult]

/-- Every pixel has slots of the masks of its own, in the order of the pixels. -/
structure Slotted (c : Columns) : Prop where
  mult_pos : 0 < c.mult
  lt : ∀ {d d'}, d < d' → d' < c.dstRoiW → c.maskLeftIndex d < c.maskLeftIndex d'
  inside : ∀ d < c.dstRoiW, c.slotColumn d < c.evenW

namespace Slotted

variable (h : c.Slotted)
include h

theorem slotColumn_mono (hle : d ≤ d') (hd' : d' < c.dstRoiW) : c.slotColumn d ≤ c.slotColumn d' := by
  rcases hle.lt_or_eq with hlt | rfl
  · exact Nat.div_le_div_right (h.lt hlt hd').le
  · exact le_refl _

theorem lt_first_iff : d < c.first b ↔ d < c.dstRoiW ∧ c.slotColumn d < b :=
  lt_count_iff fun _ _ hlt hd hcol => (h.slotColumn_mono hlt.le hd).trans_lt hcol

theorem first_le_iff (hd : d < c.dstRoiW) : c.first b ≤ d ↔ b ≤ c.slotColumn d := by
  have hlt := h.lt_first_iff (b := b) (d := d)
  omega

theorem first_evenW : c.first c.evenW = c.dstRoiW :=
  Nat.count_iff_forall.mpr h.inside

theorem maskLeftIndex_lt_iff : c.maskLeftIndex d < c.mult * b ↔ c.slotColumn d < b := by
  rw [slotColumn, Nat.div_lt_iff_lt_mul h.mult_pos, Nat.mul_comm]

/-- The groups that are set belong to pixels that lie side by side. -/
theorem collect_eq {m : Mask} {ch : Chunk} {lo hi a : Nat} (hhi : hi ≤ c.dstRoiW)
    (hmem : ∀ slot, slot ∈ c.collect m ch ↔ ∃ d, (lo ≤ d ∧ d < hi) ∧ c.maskLeftIndex d + a = slot) :
    c.collect m ch = (List.range' lo (hi - lo)).map fun d => c.maskLeftIndex d + a := by
  refine List.Pairwise.eq_of_mem_iff (r := (· < ·)) ?_ ?_ fun slot => ?_
  · exact (List.pairwise_lt_range' 1).filter _
  · rw [List.pairwise_map]
    refine (List.pairwise_lt_range' 1).imp_of_mem fun _ hd' hlt => ?_
    have hd' := List.mem_range'_1.mp hd'
    exact Nat.add_lt_add_right (h.lt hlt (by omega)) _
  · rw [hmem, List.mem_map]
    refine exists_congr fun d => and_congr_left' ?_
    rw [List.mem_range'_1]
    omega

theorem collect_left (ch : Chunk) :
    c.collect .left ch = (List.range' (c.first ch.maskColumn)
      (c.first (ch.maskColumn + ch.loadNum) - c.first ch.maskColumn)).map
        fun d => c.maskLeftIndex d + 0 := by
  refine h.collect_eq (c.first_le _) fun slot => ?_
  rw [mem_collect, group_left_iff]
  constructor
  · rintro ⟨⟨hlo, hhi⟩, d, hd, rfl⟩
    refine ⟨d, ⟨?_, ?_⟩, rfl⟩
    · rwa [h.first_le_iff hd, ← not_lt, ← h.maskLeftIndex_lt_iff, not_lt]
    · rwa [h.lt_first_iff, ← h.maskLeftIndex_lt_iff, and_iff_right hd]
  · rintro ⟨d, ⟨hlo, hhi⟩, rfl⟩
    have hd := (h.lt_first_iff.mp hhi).1
    refine ⟨⟨?_, ?_⟩, d, hd, rfl⟩
    · rwa [Nat.add_zero, ← not_lt, h.maskLeftIndex_lt_iff, not_lt, ← h.first_le_iff hd]
    · exact h.maskLeftIndex_lt_iff.mpr (h.lt_first_iff.mp hhi).2

theorem collect_right (ch : Chunk) :
    c.collect .right ch = (List.range' (c.first (ch.maskColumn - 1))
      (c.first (min (ch.maskColumn + ch.loadNum) (c.w + c.parity) - 1) -
        c.first (ch.maskColumn - 1))).map fun d => c.maskLeftIndex d + c.mult := by
  refine h.collect_eq (c.first_le _) fun slot => ?_
  -- the slot to the right belongs to the next column
  have hnext {b d : Nat} : c.maskLeftIndex d + c.mult < c.mult * b ↔ c.slotColumn d < b - 1 := by
    rw [← h.maskLeftIndex_lt_iff, Nat.mul_sub_one]
    omega
  rw [mem_collect, group_right_iff]
  constructor
  · rintro ⟨⟨hlo, hhi⟩, d, hd, rfl, hin⟩
    rw [hnext] at hhi hin
    rw [← not_lt, hnext] at hlo
    refine ⟨d, ⟨?_, ?_⟩, rfl⟩
    · rwa [h.first_le_iff hd, ← not_lt]
    · rw [h.lt_first_iff]
      omega
  · rintro ⟨d, ⟨hlo, hhi⟩, rfl⟩
    rw [h.lt_first_iff] at hhi
    obtain ⟨hd, hhi⟩ := hhi
    rw [h.first_le_iff hd] at hlo
    refine ⟨⟨?_, ?_⟩, d, hd, rfl, ?_⟩
    · rw [← not_lt, hnext]
      omega
    · rw [hnext]
      omega
    · rw [hnext]
      omega

end Slotted

/-! ## Chunks -/

section Chunks

variable {ends : Nat → Nat} {maxLoadNum : Nat}

/-- Each iteration selects as many left pixels as it stores. -/
def CountsAgree (c : Columns) (ends : Nat → Nat) (maxLoadNum : Nat) : Prop :=
  ∀ ch ∈ (c.width maxLoadNum).chunksTo ends, (c.collect .left ch).length = ch.storeNum

instance (c : Columns) (ends : Nat → Nat) (maxLoadNum : Nat) :
    Decidable (c.CountsAgree ends maxLoadNum) := by
  unfold CountsAgree
  infer_instance

/--
The row that is stored, from any two lines of the source and whatever the buffers held, is that of
the whole width and has all its pixels. A right pixel with the weight zero is of no account, and
nothing else is asked of the arithmetic.
-/
def RowsAgree (c : Columns) (ends : Nat → Nat) (maxLoadNum : Nat) : Prop :=
  ∀ (α β : Type) (blend : α → ℚ → α → ℚ → β), (∀ l w r r', blend l w r 0 = blend l w r' 0) →
    ∀ (src : Nat → α) (stale stale' : Chunk → Mask → Nat → α),
      c.row ends blend src stale maxLoadNum = c.row ends blend src stale' c.evenW ∧
        (c.row ends blend src stale maxLoadNum).length = c.dstRoiW

theorem chunkTo_end (ends : Nat → Nat) (ht : t ≤ (c.width maxLoadNum).loadRepeat) :
    ((c.width maxLoadNum).chunkTo ends t).maskColumn = (c.width maxLoadNum).border t ∧
      ((c.width maxLoadNum).chunkTo ends t).maskColumn + ((c.width maxLoadNum).chunkTo ends t).loadNum
        = (c.width maxLoadNum).border (t + 1) := by
  have hmono := (c.width maxLoadNum).border_mono (Nat.le_succ t)
  have hborder : ((c.width maxLoadNum).chunkTo ends t).maskColumn = (c.width maxLoadNum).border t :=
    (if_pos ht).symm
  exact ⟨hborder, by rw [hborder]; exact Nat.add_sub_of_le hmono⟩

/-- All chunks together collect what is set in the mask. -/
theorem flatMap_collect (m : Mask) :
    ((List.range ((c.width maxLoadNum).loadRepeat + 1)).map
        ((c.width maxLoadNum).chunkTo ends)).flatMap (c.collect m)
      = (List.range (c.mult * c.evenW)).filter (c.group m) := by
  have hrun : ∀ n ≤ (c.width maxLoadNum).loadRepeat + 1,
      ((List.range n).map ((c.width maxLoadNum).chunkTo ends)).flatMap (c.collect m)
        = (List.range (c.mult * (c.width maxLoadNum).border n)).filter (c.group m) := by
    intro n
    induction n with
    | zero => exact fun _ => by simp [Width.border]
    | succ n ih =>
      intro hn
      obtain ⟨hstart, hend⟩ := chunkTo_end ends (Nat.lt_succ_iff.mp hn)
      rw [List.range_succ, List.map_append, List.flatMap_append, ih (by omega), List.map_singleton,
        List.flatMap_singleton, collect, ← hend, ← hstart, ← List.filter_append, Nat.mul_add,
        List.range_add, ← List.range'_eq_map_range]
  rw [hrun _ (le_refl _), Width.border_last]
  rfl

/-- With as many pixels as there are, no two of them share a slot. -/
theorem CountsAgree.slotted (hends : Monotone ends) (hmono : Monotone c.srcWIterInt)
    (hmult : 0 < c.mult) (hcount : c.CountsAgree ends maxLoadNum)
    (hall : ends c.evenW = c.dstRoiW) : c.Slotted := by
  let slots := (Finset.range (c.mult * c.evenW)).filter fun slot => c.group .left slot
  have hcard : slots.card = c.dstRoiW := by
    have hlength : (((c.width maxLoadNum).chunksTo ends).flatMap (c.collect .left)).length
        = c.dstRoiW := by
      have hstore : ((c.width maxLoadNum).chunksTo ends).map (fun ch => (c.collect .left ch).length)
          = ((c.width maxLoadNum).chunksTo ends).map fun ch => (List.range ch.storeNum).length :=
        List.map_congr_left fun ch hch => (hcount ch hch).trans List.length_range.symm
      rw [List.length_flatMap, hstore, ← List.length_flatMap, Width.chunksTo_eq hends,
        List.flatMap_map]
      have hsum := length_flatMap_segments (Width.startTo_mono (p := c.width maxLoadNum) hends) rfl
        (fun _ j => j) ((c.width maxLoadNum).loadRepeat + 1)
      simp only [List.map_id'] at hsum
      exact hsum.trans (((c.width maxLoadNum).startTo_last ends).trans hall)
    rw [Width.chunksTo_eq hends, flatMap_collect] at hlength
    have hlist : slots.card = ((List.range (c.mult * c.evenW)).filter fun slot =>
      decide (c.group .left slot = true)).length := rfl
    simp only [Bool.decide_eq_true] at hlist
    exact hlist.trans hlength
  have hsub : slots ⊆ (Finset.range c.dstRoiW).image c.maskLeftIndex := by
    intro slot hslot
    obtain ⟨d, hd, hindex⟩ := group_left_iff.mp (Finset.mem_filter.mp hslot).2
    exact Finset.mem_image.mpr ⟨d, Finset.mem_range.mpr hd, hindex⟩
  have himage : ((Finset.range c.dstRoiW).image c.maskLeftIndex).card ≤ c.dstRoiW :=
    Finset.card_image_le.trans_eq (Finset.card_range _)
  have heq := Finset.eq_of_subset_of_card_le hsub (himage.trans_eq hcard.symm)
  have hinj : Set.InjOn c.maskLeftIndex (Finset.range c.dstRoiW) := by
    rw [← Finset.card_image_iff, ← heq, hcard, Finset.card_range]
  constructor
  case mult_pos => exact hmult
  case lt =>
    refine maskLeftIndex_strictMono hmono hmult fun d hd d' hd' hsame => ?_
    exact hinj (Finset.mem_coe.mpr (Finset.mem_range.mpr hd))
      (Finset.mem_coe.mpr (Finset.mem_range.mpr hd')) hsame
  case inside =>
    intro d hd
    have hmem := Finset.mem_image_of_mem c.maskLeftIndex (Finset.mem_range.mpr hd)
    rw [← heq] at hmem
    have hlt := Finset.mem_range.mp (Finset.mem_filter.mp hmem).1
    rwa [slotColumn, Nat.div_lt_iff_lt_mul hmult, Nat.mul_comm]

theorem length_row {α β : Type} (hends : Monotone ends) (blend : α → ℚ → α → ℚ → β)
    (src : Nat → α) (stale : Chunk → Mask → Nat → α) :
    (c.row ends blend src stale maxLoadNum).length = ends c.evenW := by
  have hsum := length_flatMap_segments (Width.startTo_mono (p := c.width maxLoadNum) hends) rfl
    (fun t => c.pixelOf blend src (stale ((c.width maxLoadNum).chunkTo ends t))
      ((c.width maxLoadNum).chunkTo ends t)) ((c.width maxLoadNum).loadRepeat + 1)
  rw [row, Width.chunksTo_eq hends, List.flatMap_map]
  exact hsum.trans ((c.width maxLoadNum).startTo_last ends)

/-- The column that the right value at the place `j` of a chunk comes from. -/
def rightColumn (c : Columns) (ch : Chunk) (j : Nat) : Option Nat :=
  if c.first (ch.maskColumn - 1) + j <
      c.first (min (ch.maskColumn + ch.loadNum) (c.w + c.parity) - 1) then
    some (c.slotColumn (c.first (ch.maskColumn - 1) + j) + 1)
  else none

/-- The chunk that is the whole width. -/
def wholeChunk (c : Columns) (ends : Nat → Nat) : Chunk :=
  (c.width c.evenW).chunkTo ends 0

theorem evenW_pos (hw : 0 < c.w) : 0 < c.evenW := by
  have heven := c.w_le_evenW
  omega

theorem loadRepeat_evenW (hpos : 0 < c.evenW) : (c.width c.evenW).loadRepeat = 0 := by
  simp [Width.loadRepeat, width, Nat.div_self hpos]

theorem border_whole (hpos : 0 < c.evenW) : (c.width c.evenW).border 1 = c.evenW := by
  have hlast := (c.width c.evenW).border_last
  rwa [loadRepeat_evenW hpos] at hlast

theorem startTo_whole (hpos : 0 < c.evenW) : (c.width c.evenW).startTo ends 1 = ends c.evenW := by
  have hlast := (c.width c.evenW).startTo_last ends
  rwa [loadRepeat_evenW hpos] at hlast

namespace Slotted

variable {α β : Type} (h : c.Slotted)
include h

/-! ## What is selected -/

theorem selected_left (ch : Chunk) (hcol : ch.column = ch.maskColumn)
    (hj : c.first ch.maskColumn + j < c.first (ch.maskColumn + ch.loadNum)) (src : Nat → α)
    (stale : Mask → Nat → α) :
    c.selected src stale ch .left j = src (c.slotColumn (c.first ch.maskColumn + j)) := by
  have hd := (h.lt_first_iff.mp hj).1
  have hle := (h.first_le_iff hd).mp (Nat.le_add_right (c.first ch.maskColumn) j)
  unfold selected
  rw [h.collect_left, List.getElem?_map, List.getElem?_range' (by omega), Option.map_some]
  dsimp only
  rw [Nat.one_mul, Nat.add_zero, hcol, ← slotColumn, Nat.add_sub_of_le hle]

theorem selected_right {ch : Chunk} (hcol : ch.column = ch.maskColumn) (src : Nat → α)
    (stale : Mask → Nat → α) :
    c.selected src stale ch .right j = (c.rightColumn ch j).elim (stale .right j) src := by
  unfold selected rightColumn
  rw [h.collect_right, List.getElem?_map]
  split_ifs with hj
  · have hd := (h.lt_first_iff.mp hj).1
    have hle := (h.first_le_iff hd).mp (Nat.le_add_right (c.first (ch.maskColumn - 1)) j)
    rw [List.getElem?_range' (by omega), Option.map_some]
    dsimp only [Option.elim_some]
    rw [Nat.one_mul, Nat.add_div_right _ h.mult_pos, ← slotColumn, hcol]
    congr 1
    omega
  · rw [List.getElem?_eq_none (by rw [List.length_range']; omega)]
    rfl

/-! ## Counts and rows -/

theorem countsAgree_iff (hends : Monotone ends) :
    c.CountsAgree ends maxLoadNum ↔ ∀ t ≤ (c.width maxLoadNum).loadRepeat + 1,
      c.first ((c.width maxLoadNum).border t) = (c.width maxLoadNum).startTo ends t := by
  have hlength {t : Nat} (ht : t ≤ (c.width maxLoadNum).loadRepeat) :
      (c.collect .left ((c.width maxLoadNum).chunkTo ends t)).length
        = c.first ((c.width maxLoadNum).border (t + 1)) -
          c.first ((c.width maxLoadNum).border t) := by
    obtain ⟨hstart, hend⟩ := chunkTo_end ends ht
    rw [h.collect_left, List.length_map, List.length_range', hend, hstart]
  have hzero : c.first ((c.width maxLoadNum).border 0) = (c.width maxLoadNum).startTo ends 0 := by
    simp [Width.border, Width.startTo]
  unfold CountsAgree
  rw [Width.chunksTo_eq hends]
  constructor
  · intro hcount t
    induction t with
    | zero => exact fun _ => hzero
    | succ t ih =>
      intro ht
      have hlen := hcount _ (List.mem_map_of_mem (List.mem_range.mpr ht))
      rw [hlength (by omega), ih (by omega)] at hlen
      have hnum : ((c.width maxLoadNum).chunkTo ends t).storeNum
          = (c.width maxLoadNum).startTo ends (t + 1) - (c.width maxLoadNum).startTo ends t := rfl
      have hfirst := c.first_mono ((c.width maxLoadNum).border_mono (Nat.le_succ t))
      have hstart := Width.startTo_mono (p := c.width maxLoadNum) hends (Nat.le_succ t)
      rw [ih (by omega)] at hfirst
      simp only [Nat.succ_eq_add_one] at hfirst hstart
      omega
  · intro hfirst ch hch
    obtain ⟨t, ht, rfl⟩ := List.mem_map.mp hch
    have ht := List.mem_range.mp ht
    rw [hlength (by omega), hfirst t (by omega), hfirst (t + 1) (by omega)]
    rfl

theorem pixelOf_chunkTo (ht : t ≤ (c.width maxLoadNum).loadRepeat)
    (hstart : c.first ((c.width maxLoadNum).border t) = (c.width maxLoadNum).startTo ends t)
    (hend : c.first ((c.width maxLoadNum).border (t + 1))
      = (c.width maxLoadNum).startTo ends (t + 1))
    (hj : j < (c.width maxLoadNum).startTo ends (t + 1) - (c.width maxLoadNum).startTo ends t)
    (blend : α → ℚ → α → ℚ → β) (src : Nat → α) (stale : Mask → Nat → α) :
    c.pixelOf blend src stale ((c.width maxLoadNum).chunkTo ends t) j
      = blend (src (c.slotColumn ((c.width maxLoadNum).startTo ends t + j)))
          (c.weight .left ((c.width maxLoadNum).startTo ends t + j))
          ((c.rightColumn ((c.width maxLoadNum).chunkTo ends t) j).elim (stale .right j) src)
          (c.weight .right ((c.width maxLoadNum).startTo ends t + j)) := by
  obtain ⟨hcol, hcolEnd⟩ := chunkTo_end (c := c) ends ht
  have hleft := h.selected_left ((c.width maxLoadNum).chunkTo ends t) (j := j) rfl
    (by rw [hcolEnd, hcol, hstart, hend]; omega) src stale
  rw [hcol, hstart] at hleft
  rw [pixelOf, hleft, h.selected_right rfl]
  rfl

theorem rightColumn_whole (hw : 0 < c.w) (hd : d < c.dstRoiW) :
    c.rightColumn (c.wholeChunk ends) d
      = if c.slotColumn d + 1 < c.w + c.parity then some (c.slotColumn d + 1) else none := by
  have hpos := evenW_pos hw
  obtain ⟨hcol, hcolEnd⟩ := chunkTo_end (c := c) ends
    (show 0 ≤ (c.width c.evenW).loadRepeat from Nat.zero_le _)
  have hzero : (c.wholeChunk ends).maskColumn = 0 := Nat.zero_mul _
  have hend : (c.wholeChunk ends).maskColumn + (c.wholeChunk ends).loadNum = c.evenW :=
    hcolEnd.trans (border_whole hpos)
  unfold rightColumn
  rw [hend, hzero, Nat.zero_sub, c.first_zero, Nat.zero_add, Nat.min_eq_right c.w_le_evenW]
  refine if_congr ?_ rfl rfl
  rw [h.lt_first_iff, and_iff_right hd]
  omega

theorem pixelOf_whole (hw : 0 < c.w) (hall : ends c.evenW = c.dstRoiW) (hd : d < c.dstRoiW)
    (blend : α → ℚ → α → ℚ → β) (src : Nat → α) (stale : Mask → Nat → α) :
    c.pixelOf blend src stale (c.wholeChunk ends) d
      = blend (src (c.slotColumn d)) (c.weight .left d)
          ((c.rightColumn (c.wholeChunk ends) d).elim (stale .right d) src) (c.weight .right d) := by
  have hpos := evenW_pos hw
  have hstart : c.first ((c.width c.evenW).border 0) = (c.width c.evenW).startTo ends 0 := by
    simp [Width.border, Width.startTo]
  have hend : c.first ((c.width c.evenW).border 1) = (c.width c.evenW).startTo ends 1 := by
    rw [border_whole hpos, h.first_evenW, startTo_whole hpos, hall]
  have hpixel := h.pixelOf_chunkTo (j := d) (Nat.zero_le _) hstart hend
    (by rw [startTo_whole hpos, hall]; exact hd) blend src stale
  rwa [show (c.width c.evenW).startTo ends 0 = 0 from rfl, Nat.zero_add] at hpixel

end Slotted

/-- What is there is a value, and the same one, when it depends on the source only. -/
theorem exists_of_elim_eq {o o' : Option Nat}
    (h : ∀ (src : Nat → Nat) (stale stale' : Nat), o.elim stale src = o'.elim stale' src) :
    ∃ b, o = some b ∧ o' = some b := by
  cases o with
  | none => exact absurd (h (fun _ => 0) 1 2) (by cases o' <;> simp)
  | some b =>
    cases o' with
    | none => exact absurd (h (fun _ => 0) 0 1) (by simp)
    | some b' => exact ⟨b, rfl, congrArg some (h id 0 0).symm⟩

theorem row_eq {α β : Type} (hends : Monotone ends) (blend : α → ℚ → α → ℚ → β) (src : Nat → α)
    (stale : Chunk → Mask → Nat → α) :
    c.row ends blend src stale maxLoadNum
      = (List.range ((c.width maxLoadNum).loadRepeat + 1)).flatMap fun t =>
        (List.range ((c.width maxLoadNum).startTo ends (t + 1) -
          (c.width maxLoadNum).startTo ends t)).map
          (c.pixelOf blend src (stale ((c.width maxLoadNum).chunkTo ends t))
            ((c.width maxLoadNum).chunkTo ends t)) := by
  rw [row, Width.chunksTo_eq hends, List.flatMap_map]
  rfl

theorem wholeRow_eq {α β : Type} (hw : 0 < c.w) (hends : Monotone ends)
    (blend : α → ℚ → α → ℚ → β) (src : Nat → α) (stale : Chunk → Mask → Nat → α) :
    c.row ends blend src stale c.evenW = (List.range (ends c.evenW)).map
      (c.pixelOf blend src (stale (c.wholeChunk ends)) (c.wholeChunk ends)) := by
  rw [row_eq hends, loadRepeat_evenW (evenW_pos hw), List.range_one, List.flatMap_singleton,
    startTo_whole (evenW_pos hw)]
  rfl

/-- When the counts agree, the rows agree as long as the right values that count do. -/
theorem Slotted.rowsAgree_iff (h : c.Slotted) (hw : 0 < c.w) (hends : Monotone ends)
    (hall : ends c.evenW = c.dstRoiW) (hcount : c.CountsAgree ends maxLoadNum) :
    c.RowsAgree ends maxLoadNum ↔ ∀ t < (c.width maxLoadNum).loadRepeat + 1,
      ∀ j < (c.width maxLoadNum).startTo ends (t + 1) - (c.width maxLoadNum).startTo ends t,
        c.weight .right ((c.width maxLoadNum).startTo ends t + j) = 0 ∨
          ∃ b, c.rightColumn ((c.width maxLoadNum).chunkTo ends t) j = some b ∧
            c.rightColumn (c.wholeChunk ends) ((c.width maxLoadNum).startTo ends t + j)
              = some b := by
  rw [h.countsAgree_iff hends] at hcount
  have hmono := Width.startTo_mono (p := c.width maxLoadNum) hends
  have hlast : (c.width maxLoadNum).startTo ends ((c.width maxLoadNum).loadRepeat + 1) = c.dstRoiW :=
    ((c.width maxLoadNum).startTo_last ends).trans hall
  have hin {t j : Nat} (ht : t < (c.width maxLoadNum).loadRepeat + 1)
      (hj : j < (c.width maxLoadNum).startTo ends (t + 1) - (c.width maxLoadNum).startTo ends t) :
      (c.width maxLoadNum).startTo ends t + j < c.dstRoiW := by
    have hle := hmono ht
    rw [hlast] at hle
    simp only [Nat.succ_eq_add_one] at hle
    omega
  have hrow {α β : Type} (blend : α → ℚ → α → ℚ → β) (src : Nat → α)
      (stale stale' : Chunk → Mask → Nat → α) :
      c.row ends blend src stale maxLoadNum = c.row ends blend src stale' c.evenW ↔
        ∀ t < (c.width maxLoadNum).loadRepeat + 1,
          ∀ j < (c.width maxLoadNum).startTo ends (t + 1) - (c.width maxLoadNum).startTo ends t,
            let d := (c.width maxLoadNum).startTo ends t + j
            blend (src (c.slotColumn d)) (c.weight .left d)
                ((c.rightColumn ((c.width maxLoadNum).chunkTo ends t) j).elim
                  (stale ((c.width maxLoadNum).chunkTo ends t) .right j) src) (c.weight .right d)
              = blend (src (c.slotColumn d)) (c.weight .left d)
                  ((c.rightColumn (c.wholeChunk ends) d).elim (stale' (c.wholeChunk ends) .right d)
                    src) (c.weight .right d) := by
    rw [row_eq hends, wholeRow_eq hw hends, hall, ← hlast]
    refine (flatMap_segments_eq_iff hmono rfl).trans ?_
    refine forall_congr' fun t => forall_congr' fun ht => forall_congr' fun j =>
      forall_congr' fun hj => ?_
    rw [h.pixelOf_chunkTo (Nat.lt_succ_iff.mp ht) (hcount t ht.le) (hcount (t + 1) ht) hj,
      h.pixelOf_whole hw hall (hin ht hj)]
  constructor
  · intro hrows t ht j hj
    rw [or_iff_not_imp_left]
    intro hne
    refine exists_of_elim_eq fun src stale stale' => ?_
    -- a blend that shows the right value
    have heq := (hrow (fun _ _ r w => if w = 0 then 0 else r) src (fun _ _ _ => stale)
      fun _ _ _ => stale').mp (hrows Nat Nat _ (fun _ _ _ _ => by simp) src _ _).1 t ht j hj
    simpa only [if_neg hne] using heq
  · intro hright α β blend hblend src stale stale'
    refine ⟨(hrow blend src stale stale').mpr fun t ht j hj => ?_,
      (length_row hends blend src stale).trans hall⟩
    rcases hright t ht j hj with hzero | ⟨b, hb, hb'⟩
    · simp only [hzero]
      exact hblend _ _ _ _
    · simp only [hb, hb', Option.elim_some]

end Chunks

end Columns

end CambriconGst.Easybang
