import CambriconGst.Easybang.ResizeKernel
import CambriconGst.Properties.ResizeLayout
import CambriconGst.Properties.ResizeRounded

/-!
# The copy filter, on the host and in the kernel

The host makes a filter when `mult` is less than the limit, the kernel uses one when `mult` is up to
the limit and more than one.

* `copyFilter_agrees_iff`: when the kernel has the filter that it uses
* `filter_missing`: a column that is copied 64 times
-/

namespace CambriconGst.Easybang

open Lib

/--
The kernel, with the `mult` and the pointer that it finds in the workspace: when it uses a filter,
the one for this `mult` is there; when there is none, it uses none.
-/
def CopyFilterAgrees (ws : Workspace) (n i : Nat) : Prop :=
  ∃ m, ws.loadSlot n i .mult = .datum (.int m) ∧
    (loadsCopyFilter m ∨ expansion m = .copyFilter →
      ∃ p, ws.loadSlot n i .copyFilter = .datum (.ptr p) ∧
        ∀ o k, o + k ≤ copyFilterBytes m →
          load ws.writes (p + o) k = load (copyFilterWrites m 0) o k) ∧
    (ws.loadSlot n i .copyFilter = .zero → ¬loadsCopyFilter m ∧ expansion m ≠ .copyFilter)

theorem loadsCopyFilter_iff {m : Nat} : loadsCopyFilter m ↔ 1 < m ∧ m ≤ multLimit :=
  decide_eq_true_iff

theorem expansion_eq_copyFilter_iff {m : Nat} : expansion m = .copyFilter ↔ loadsCopyFilter m := by
  rw [loadsCopyFilter_iff, expansion]
  split_ifs with hused hmemcpy
  · exact iff_of_true rfl hused
  · exact iff_of_false (by decide) hused
  · exact iff_of_false (by decide) hused

theorem Prepared.copyFilterAgrees_iff {columns : TableKey → Columns} {n i : Nat} {ws : Workspace}
    {entries : List ListEntry} {entry : ListEntry} (h : Prepared columns n ws entries)
    (hlen : entries.length = n) (hi : entries[i]? = some entry) :
    CopyFilterAgrees ws n i ↔ entry.mult ≠ multLimit := by
  obtain ⟨e, he, rfl⟩ := h.exists_element hi
  have hmem := List.mem_of_getElem? he
  have hmult : ws.loadSlot n i .mult = .datum (.int e.mult) := h.load_slot hlen he .mult
  have hslot := h.load_slot hlen he .copyFilter
  have hsome := (h.wellFormed e hmem).copyFilter
  unfold Element.stored at hslot
  cases hp : e.copyFilter with
  | none =>
    have hge : multLimit ≤ e.mult := not_lt.mp fun hlt => by simp [hp, hlt] at hsome
    have hone : 1 < multLimit := by decide
    rw [hp] at hslot
    constructor
    · rintro ⟨m, hm, -, hnone⟩ heq
      obtain rfl : e.mult = m := by simpa using hmult.symm.trans hm
      exact (hnone hslot).1 (loadsCopyFilter_iff.mpr ⟨heq ▸ hone, heq.le⟩)
    · intro hne
      have hnot : ¬loadsCopyFilter e.mult := fun hl => by
        have hle := (loadsCopyFilter_iff.mp hl).2
        omega
      refine ⟨e.mult, hmult, fun huse => ?_, fun _ => ⟨hnot, ?_⟩⟩
      · rw [expansion_eq_copyFilter_iff, or_self] at huse
        exact absurd huse hnot
      · rwa [Ne, expansion_eq_copyFilter_iff]
  | some p =>
    have hlt : e.mult < multLimit := hsome.mp (by rw [hp]; rfl)
    rw [hp] at hslot
    refine iff_of_true ?_ hlt.ne
    refine ⟨e.mult, hmult, fun _ => ⟨p, hslot, fun o k ho => ?_⟩, fun hnone => ?_⟩
    · exact h.load_block hmem (b := (.copyFilter e.mult, p)) (by simp [Element.blocks, hp]) ho
    · exact absurd (hslot.symm.trans hnone) (by simp)

/-! ## In terms of the sizes -/

theorem mult_eq_multLimit_iff {w dstRoiW : Nat} (hw : 0 < w) :
    mult w dstRoiW = multLimit ↔ 127 * w < 3 * dstRoiW ∧ 3 * dstRoiW ≤ 129 * w := by
  unfold multLimit
  by_cases h : w < dstRoiW
  · rw [mult_of_lt hw h, Nat.div_eq_iff (by omega)]
    omega
  · rw [mult_of_le (not_lt.mp h)]
    omega

namespace Rounded

theorem prepareMaskAndWeights_prepared (keep : Bool) (dst : Dst) (rois : List Roi) :
    Prepared columns rois.length (prepareMaskAndWeights keep dst rois)
      (rois.map (listEntry keep dst)) :=
  prepareEntries_prepared columns (listEntry keep dst)
    (fun roi => ⟨mult_pos roi.w_pos _, columns_inside roi.w_pos⟩) rois

/--
**No `int` overflows, and host and kernel agree on the copy filter, exactly when none does and the
destination is not between 127 and 129 thirds of the source in width.**
-/
theorem copyFilter_agrees_iff (keep : Bool) (dst : Dst) (rois : List Roi) (i : Fin rois.length) :
    let w := (rois.get i).w
    let dstRoiW := dstRoiW keep dst (rois.get i)
    IntsFit keep dst rois ∧
        CopyFilterAgrees (prepareMaskAndWeights keep dst rois) rois.length i ↔
      IntsFit keep dst rois ∧ ¬(127 * w < 3 * dstRoiW ∧ 3 * dstRoiW ≤ 129 * w) := by
  intro w dstRoiW
  refine and_congr_right fun hfit => ?_
  have h := prepareMaskAndWeights_prepared keep dst rois
  have hi : (rois.map (listEntry keep dst))[(i : Nat)]?
      = some (listEntry keep dst (rois.get i)) := by simp
  have hw : 0 < w := (rois.get i).w_pos
  have hkey := hfit.tables _ (List.mem_of_getElem? hi)
  have hw' : w < 2 ^ 31 := by
    have hlt := hkey.curRoiW
    change (rois.get i).x % 2 + w + 1 < 2 ^ 31 at hlt
    omega
  have hmult : (listEntry keep dst (rois.get i)).mult = Easybang.mult w dstRoiW :=
    mult_eq hw hw' hkey.dstRoiW
  rw [h.copyFilterAgrees_iff (List.length_map _) hi, hmult, Ne, mult_eq_multLimit_iff hw]

/-- The products that the host computes for masks and weights are enough to look at. -/
theorem intsFit_of_slotsInside {keep : Bool} {dst : Dst} {rois : List Roi}
    (hlen : 4 * rois.length ≤ 2 ^ 31)
    (h : ∀ roi ∈ rois, (columns (listEntry keep dst roi).tableKey).SlotsInside ∧
      2 * (listEntry keep dst roi).mult * roi.evenW * 4 < 2 ^ 31 ∧
      2 * (listEntry keep dst roi).dstRoiW * 4 < 2 ^ 31) : IntsFit keep dst rois := by
  have hlength : (rois.map (listEntry keep dst)).length = rois.length := List.length_map _
  constructor
  case roiRect =>
    intro batchIter hlt
    omega
  case maskSize =>
    intro e he
    obtain ⟨roi, hroi, rfl⟩ := List.mem_map.mp he
    exact (h roi hroi).2.1
  case weightSize =>
    intro e he
    obtain ⟨roi, hroi, rfl⟩ := List.mem_map.mp he
    exact (h roi hroi).2.2
  case tables =>
    intro e he
    obtain ⟨roi, hroi, rfl⟩ := List.mem_map.mp he
    obtain ⟨hin, hmask, hweight⟩ := h roi hroi
    refine (Columns.intsFit_iff roi.w_pos (mult_pos roi.w_pos _) hin).mpr ⟨?_, ?_⟩
    · change (listEntry keep dst roi).mult * roi.evenW * 4 < 2 ^ 31
      rw [Nat.mul_assoc 2] at hmask
      omega
    · change (listEntry keep dst roi).dstRoiW * 4 < 2 ^ 31
      omega

/-- A column that is drawn out to 43. -/
theorem filter_missing :
    IntsFit false ⟨1, 43, by decide, by decide⟩ [⟨0, 0, 1, 1, by decide, by decide⟩] ∧
      ¬CopyFilterAgrees (prepareMaskAndWeights false ⟨1, 43, by decide, by decide⟩
        [⟨0, 0, 1, 1, by decide, by decide⟩]) 1 0 := by
  have h := prepareMaskAndWeights_prepared false ⟨1, 43, by decide, by decide⟩
    [⟨0, 0, 1, 1, by decide, by decide⟩]
  refine ⟨intsFit_of_slotsInside (by decide) (by decide +kernel), ?_⟩
  intro hagrees
  exact (h.copyFilterAgrees_iff rfl rfl).mp hagrees (by decide +kernel)

end Rounded

end CambriconGst.Easybang
