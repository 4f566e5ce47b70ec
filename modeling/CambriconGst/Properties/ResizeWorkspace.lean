import CambriconGst.Properties.ResizeLayout
import CambriconGst.Properties.ResizeSlots

/-!
# The size of the workspace

`getResizedConvertWorkspaceSize` counts the tables of an element unless an earlier one has the same
`x`, width and width of the destination; `prepareMaskAndWeights` looks at the parity of `x` only, so
that it reserves no more than was counted. Both count in the type `int`.

* `intsFit_iff`: when no product overflows
* `Workspace.cur_le_size`: the loops side by side
* `workspace_suffices`: what is reserved, and what is written
* `workspaceRight_iff`: batches that overflow nothing
-/

namespace CambriconGst.Easybang

open Lib

/-! ## The products -/

/-- The `mult` of an entry is that of its widths. -/
structure ListEntry.Computed (e : ListEntry) : Prop where
  w_pos : 0 < e.srcRoiW
  mult_eq : e.mult = e.tableKey.mult

section Ints

variable {keep : Bool} {dst : Dst} {rois : List Roi} {e : ListEntry}

theorem listEntry_computed (he : e ∈ rois.map (listEntry keep dst)) : e.Computed := by
  obtain ⟨roi, -, rfl⟩ := List.mem_map.mp he
  exact ⟨roi.w_pos, rfl⟩

theorem ListEntry.Computed.bytes_eq (h : e.Computed) : e.tableKey.bytes
    = 2 * e.mult * e.tableKey.evenW * 4 * 2 + 2 * e.dstRoiW * 4 * 2 := by
  rw [h.mult_eq]
  change _ = _ + 2 * e.tableKey.dstRoiW * 4 * 2
  unfold TableKey.bytes Columns.bytes Columns.maskBytes TableKey.weightBytes
  ring

theorem intsFit_iff : IntsFit keep dst rois ↔ 4 * rois.length ≤ 2 ^ 31 ∧
    ∀ roi ∈ rois, 8 * (mult roi.w (dstRoiW keep dst roi) * roi.evenW) < 2 ^ 31 ∧
      8 * dstRoiW keep dst roi < 2 ^ 31 := by
  have hlength : (rois.map (listEntry keep dst)).length = rois.length := List.length_map _
  constructor
  · intro h
    refine ⟨?_, fun roi hroi => ⟨?_, ?_⟩⟩
    · by_contra hlong
      have hlast := h.roiRect (rois.length - 1) (by omega)
      omega
    · have hmask : 2 * mult roi.w (dstRoiW keep dst roi) * roi.evenW * 4 < 2 ^ 31 :=
        h.maskSize _ (List.mem_map_of_mem hroi)
      rw [Nat.mul_assoc 2] at hmask
      omega
    · have hweight : 2 * dstRoiW keep dst roi * 4 < 2 ^ 31 :=
        h.weightSize _ (List.mem_map_of_mem hroi)
      omega
  · rintro ⟨hlen, hrois⟩
    constructor
    case roiRect =>
      intro batchIter hlt
      omega
    case maskSize =>
      intro e he
      obtain ⟨roi, hroi, rfl⟩ := List.mem_map.mp he
      have hmask := (hrois roi hroi).1
      change 2 * mult roi.w (dstRoiW keep dst roi) * roi.evenW * 4 < 2 ^ 31
      rw [Nat.mul_assoc 2]
      omega
    case weightSize =>
      intro e he
      obtain ⟨roi, hroi, rfl⟩ := List.mem_map.mp he
      have hweight := (hrois roi hroi).2
      change 2 * dstRoiW keep dst roi * 4 < 2 ^ 31
      omega
    case tables =>
      intro e he
      obtain ⟨roi, hroi, rfl⟩ := List.mem_map.mp he
      obtain ⟨hmask, hweight⟩ := hrois roi hroi
      refine (TableKey.intsFit_iff roi.w_pos).mpr ⟨?_, ?_⟩
      · change mult roi.w (dstRoiW keep dst roi) * roi.evenW * 4 < 2 ^ 31
        omega
      · change dstRoiW keep dst roi * 4 < 2 ^ 31
        omega

end Ints

/-! ## The two loops -/

namespace Workspace

variable {n : Nat} {ws : Workspace}

@[simp]
theorem put_cur {i : Nat} (slot : Slot) (d : Datum) : (ws.put n i slot d).cur = ws.cur :=
  rfl

@[simp]
theorem put_elements {i : Nat} (slot : Slot) (d : Datum) :
    (ws.put n i slot d).elements = ws.elements :=
  rfl

@[simp]
theorem putCopyFilter_cur {i : Nat} (filter : Option Nat) :
    (ws.putCopyFilter n i filter).cur = ws.cur := by
  cases filter <;> rfl

/-- Tables that were not counted are not reserved. -/
theorem maskAndWeights_cur_le (ws : Workspace) (e : ListEntry) :
    (ws.maskAndWeights TableKey.columns e.tableKey).2.cur ≤ ws.cur +
      if (ws.elements.map Element.toListEntry).any fun p =>
        e.srcRoiX = p.srcRoiX ∧ e.srcRoiW = p.srcRoiW ∧ e.dstRoiW = p.dstRoiW
      then 0 else e.tableKey.bytes := by
  unfold maskAndWeights
  split
  · exact Nat.le_add_right _ _
  · next hnone =>
    rw [if_neg]
    intro hany
    rw [List.any_map, List.any_eq_true] at hany
    obtain ⟨p, hp, heq⟩ := hany
    simp only [Function.comp_apply, decide_eq_true_eq] at heq
    refine List.find?_eq_none.mp hnone p hp (decide_eq_true ?_)
    exact ⟨congrArg (· % 2) heq.1, heq.2⟩

theorem copyFilter_cur_le (ws : Workspace) (m : Nat) :
    (ws.copyFilter m).2.cur ≤ ws.cur +
      if m < multLimit then
        if (ws.elements.map Element.toListEntry).any fun p => m = p.mult then 0
        else copyFilterBytes m
      else 0 := by
  unfold copyFilter
  split
  · split
    · exact Nat.le_add_right _ _
    · next hnone =>
      rw [if_neg]
      intro hany
      rw [List.any_map, List.any_eq_true] at hany
      obtain ⟨p, hp, heq⟩ := hany
      exact List.find?_eq_none.mp hnone p hp heq
  · exact Nat.le_add_right _ _

theorem maskAndWeights_elements (columns : TableKey → Columns) (ws : Workspace) (k : TableKey) :
    (ws.maskAndWeights columns k).2.elements = ws.elements := by
  unfold maskAndWeights
  split <;> rfl

/-- What is counted for an element, without a wrap-around. -/
def counted (prev : List ListEntry) (e : ListEntry) : Nat :=
  (if prev.any fun p => e.srcRoiX = p.srcRoiX ∧ e.srcRoiW = p.srcRoiW ∧ e.dstRoiW = p.dstRoiW
    then 0 else e.tableKey.bytes) +
  if e.mult < multLimit then
    if prev.any fun p => e.mult = p.mult then 0 else copyFilterBytes e.mult
  else 0

/-- Less is counted for an element than the type `size_t` could ever be short of. -/
theorem counted_lt {entries : List ListEntry} (hfit : EntriesFit TableKey.columns entries)
    {e : ListEntry} (he : e ∈ entries) (hcomputed : e.Computed) (prev : List ListEntry) :
    counted prev e < 2 ^ 34 := by
  have hmask := hfit.maskSize e he
  have hweight := hfit.weightSize e he
  have hbytes := hcomputed.bytes_eq
  have htables : (if prev.any fun p => e.srcRoiX = p.srcRoiX ∧ e.srcRoiW = p.srcRoiW ∧
      e.dstRoiW = p.dstRoiW then 0 else e.tableKey.bytes) ≤ e.tableKey.bytes := by
    split <;> omega
  have hfilter : (if e.mult < multLimit then
      if prev.any fun p => e.mult = p.mult then 0 else copyFilterBytes e.mult else 0) < 2 ^ 31 := by
    split
    · next hlt =>
      have hcopy := (hfit.tables e he).copyFilter
      rw [show (TableKey.columns e.tableKey).mult = e.mult from hcomputed.mult_eq.symm] at hcopy
      split
      · decide
      · exact hcopy hlt
    · decide
  unfold counted
  omega

/-- One element: what is reserved is at most what is counted. -/
theorem prepareElement_cur_le (e : ListEntry) :
    (ws.prepareElement TableKey.columns n e).cur ≤
      ws.cur + counted (ws.elements.map Element.toListEntry) e := by
  unfold prepareElement counted
  dsimp only
  rw [putCopyFilter_cur]
  refine (copyFilter_cur_le _ _).trans ?_
  simp only [put_cur, put_elements, maskAndWeights_elements]
  rw [← Nat.add_assoc]
  exact Nat.add_le_add_right (maskAndWeights_cur_le _ _) _

/-- One element: what is counted in the types of the code. -/
theorem sizeStep_tempSize {entries : List ListEntry} (hfit : EntriesFit TableKey.columns entries)
    {e : ListEntry} (he : e ∈ entries) (hcomputed : e.Computed) {s : SizeState}
    (hs : s.tempSize + 2 ^ 34 ≤ 2 ^ 64) :
    (sizeStep s e).tempSize = s.tempSize + counted s.prev e := by
  have hlt := counted_lt hfit he hcomputed s.prev
  unfold sizeStep
  dsimp only
  rw [intSize_of_lt (hfit.maskSize e he), intSize_of_lt (hfit.weightSize e he),
    ← hcomputed.bytes_eq, Nat.add_assoc]
  exact Nat.mod_eq_of_lt (Nat.lt_of_lt_of_le (Nat.add_lt_add_left hlt _) hs)

theorem cur_le_size {batch : List ListEntry} (hfit : EntriesFit TableKey.columns batch)
    (hcomputed : ∀ e ∈ batch, e.Computed) (more : List ListEntry) :
    ∀ {ws : Workspace} {s : SizeState} {entries : List ListEntry},
      Prepared TableKey.columns n ws entries → s.prev = entries → more ⊆ batch →
      ws.cur ≤ s.tempSize → entries.length + more.length ≤ n →
      s.tempSize + more.length * 2 ^ 34 ≤ 2 ^ 64 →
      (more.foldl (prepareElement TableKey.columns n) ws).cur ≤ (more.foldl sizeStep s).tempSize := by
  induction more with
  | nil => exact fun _ _ _ hcur _ _ => hcur
  | cons e more ih =>
    intro ws s entries h hprev hsub hcur hlen hroom
    rw [List.length_cons] at hlen hroom
    have he : e ∈ batch := hsub List.mem_cons_self
    have hce := hcomputed e he
    have hsize := sizeStep_tempSize hfit he hce (s := s) (by omega)
    have hlt := counted_lt hfit he hce s.prev
    have hstep := @prepareElement_cur_le n ws e
    have hmult : 0 < e.mult := hce.mult_eq ▸ mult_pos hce.w_pos _
    rw [h.entries_eq, ← hprev] at hstep
    refine ih (h.step hmult (TableKey.slotsInside hce.w_pos).inside (by omega))
      (congrArg (· ++ [_]) hprev) (List.subset_of_cons_subset hsub) ?_ (by simp; omega) (by omega)
    omega

end Workspace

/-! ## What is reserved -/

inductive RegionKey where
  | maskLeft (k : TableKey)
  | maskRight (k : TableKey)
  | weightLeft (k : TableKey)
  | weightRight (k : TableKey)
  | copyFilter (mult : Nat)
deriving DecidableEq, Repr

/-- A part of the workspace that is reserved under a key. -/
structure Region where
  key : RegionKey
  start : Nat
  bytes : Nat
deriving DecidableEq, Repr

def Region.Disjoint (r r' : Region) : Prop :=
  r.start + r.bytes ≤ r'.start ∨ r'.start + r'.bytes ≤ r.start

/-- The regions of a block. -/
def BlockKey.regions (start : Nat) : BlockKey → List Region
  | tables k =>
    let t := k.columns.tablesAt start
    [⟨.maskLeft k, t.maskLeft, k.maskBytes⟩, ⟨.maskRight k, t.maskRight, k.maskBytes⟩,
      ⟨.weightLeft k, t.weightLeft, k.weightBytes⟩, ⟨.weightRight k, t.weightRight, k.weightBytes⟩]
  | copyFilter mult => [⟨.copyFilter mult, start, copyFilterBytes mult⟩]

/-- The regions that the pointers of an element lead to. -/
def Element.regions (e : Element) : List Region :=
  [⟨.maskLeft e.tableKey, e.tables.maskLeft, e.tableKey.maskBytes⟩,
    ⟨.maskRight e.tableKey, e.tables.maskRight, e.tableKey.maskBytes⟩,
    ⟨.weightLeft e.tableKey, e.tables.weightLeft, e.tableKey.weightBytes⟩,
    ⟨.weightRight e.tableKey, e.tables.weightRight, e.tableKey.weightBytes⟩] ++
    e.copyFilter.toList.map fun p => ⟨.copyFilter e.mult, p, copyFilterBytes e.mult⟩

theorem Element.eq_tableKey_of_mem_blocks (e : Element) {b : BlockKey × Nat} {k : TableKey}
    (hb : b ∈ e.blocks) (hk : b.1 = .tables k) : k = e.tableKey := by
  rcases List.mem_cons.mp hb with rfl | hb
  · exact (BlockKey.tables.inj hk).symm
  · obtain ⟨p, -, rfl⟩ := List.mem_map.mp hb
    nomatch hk

theorem Element.eq_mult_of_mem_blocks (e : Element) {b : BlockKey × Nat} {m : Nat}
    (hb : b ∈ e.blocks) (hm : b.1 = .copyFilter m) : m = e.mult := by
  rcases List.mem_cons.mp hb with rfl | hb
  · nomatch hm
  · obtain ⟨p, -, rfl⟩ := List.mem_map.mp hb
    exact (BlockKey.copyFilter.inj hm).symm

theorem Element.WellFormed.mem_regions {e : Element} (h : e.WellFormed TableKey.columns)
    {r : Region} :
    r ∈ e.regions ↔ ∃ b ∈ e.blocks, r ∈ b.1.regions b.2 := by
  have htables : (BlockKey.tables e.tableKey).regions e.tables.maskLeft =
      [⟨.maskLeft e.tableKey, e.tables.maskLeft, e.tableKey.maskBytes⟩,
        ⟨.maskRight e.tableKey, e.tables.maskRight, e.tableKey.maskBytes⟩,
        ⟨.weightLeft e.tableKey, e.tables.weightLeft, e.tableKey.weightBytes⟩,
        ⟨.weightRight e.tableKey, e.tables.weightRight, e.tableKey.weightBytes⟩] := by
    rw [BlockKey.regions, ← h.tables]
  simp only [Element.regions, Element.blocks, List.mem_append, ← htables, List.exists_mem_cons_iff,
    List.mem_map, exists_exists_and_eq_and]
  exact or_congr_right (exists_congr fun p => and_congr_right fun _ => by
    rw [BlockKey.regions, List.mem_singleton, eq_comm])

namespace BlockKey

variable {b : BlockKey} {start : Nat} {r r' : Region}

theorem inside_of_mem_regions (h : r ∈ b.regions start) :
    start ≤ r.start ∧ r.start + r.bytes ≤ start + b.bytes TableKey.columns := by
  cases b with
  | tables k =>
    simp only [regions, Columns.tablesAt, TableKey.maskBytes, List.mem_cons, List.not_mem_nil, or_false] at h
    simp only [bytes, Columns.bytes]
    rcases h with rfl | rfl | rfl | rfl <;> dsimp only <;> omega
  | copyFilter mult =>
    rw [List.mem_singleton.mp h]
    exact ⟨le_refl _, le_refl _⟩

theorem disjoint_of_mem_regions (h : r ∈ b.regions start) (h' : r' ∈ b.regions start)
    (hne : r.key ≠ r'.key) : r.Disjoint r' := by
  cases b with
  | tables k =>
    simp only [regions, Columns.tablesAt, TableKey.maskBytes, List.mem_cons, List.not_mem_nil, or_false] at h h'
    unfold Region.Disjoint
    rcases h with rfl | rfl | rfl | rfl <;> rcases h' with rfl | rfl | rfl | rfl <;>
      first | exact absurd rfl hne | (dsimp only; omega)
  | copyFilter mult =>
    rw [List.mem_singleton.mp h, List.mem_singleton.mp h'] at hne
    exact absurd rfl hne

theorem exists_region_of_mem_writes (hw : ∀ k, b = .tables k → 0 < k.w)
    (hm : ∀ mult, b = .copyFilter mult → 0 < mult) {w : Write Datum}
    (h : w ∈ b.writes TableKey.columns start) :
    ∃ r ∈ b.regions start, w.Inside r.start r.bytes := by
  cases b with
  | tables k =>
    obtain ⟨d, hd, hmem⟩ := List.mem_flatMap.mp h
    have hd := List.mem_range.mp hd
    have hin := Columns.tableColumn_inside (TableKey.slotsInside (hw k rfl) d hd) hd _ w hmem
    simpa only [regions, List.exists_mem_cons_iff, List.not_mem_nil, false_and, exists_false,
      or_false] using hin
  | copyFilter mult =>
    exact ⟨_, List.mem_singleton_self _, copyFilterWrites_inside (hm mult rfl) start w h⟩

end BlockKey

/-- The entries of the lists come from regions of interest. -/
theorem Prepared.exists_roi {n : Nat} {ws : Workspace} {keep : Bool} {dst : Dst} {rois : List Roi}
    (h : Prepared TableKey.columns n ws (rois.map (listEntry keep dst))) {e : Element} (he : e ∈ ws.elements) :
    ∃ roi ∈ rois, e.toListEntry = listEntry keep dst roi := by
  have hmem : e.toListEntry ∈ ws.elements.map Element.toListEntry := List.mem_map_of_mem he
  rw [h.entries_eq] at hmem
  obtain ⟨roi, hroi, heq⟩ := List.mem_map.mp hmem
  exact ⟨roi, hroi, heq.symm⟩

/--
The workspace has room for all that is written, and what is reserved under different keys is apart
from each other and from the front.
-/
structure RoomFor (batchNum size : Nat) (ws : Workspace) : Prop where
  written : ∀ w ∈ ws.writes, w.offset + w.size ≤ size ∧ (w.offset + w.size ≤ headerBytes batchNum ∨
    ∃ r ∈ ws.elements.flatMap Element.regions, w.Inside r.start r.bytes)
  reserved : ∀ r ∈ ws.elements.flatMap Element.regions,
    headerBytes batchNum ≤ r.start ∧ r.start + r.bytes ≤ size
  disjoint : ∀ r ∈ ws.elements.flatMap Element.regions,
    ∀ r' ∈ ws.elements.flatMap Element.regions, r.key ≠ r'.key → r.Disjoint r'

theorem workspace_suffices {keep : Bool} {dst : Dst} {rois : List Roi}
    (hfit : IntsFit keep dst rois) :
    RoomFor rois.length (getResizedConvertWorkspaceSize keep dst rois)
      (prepareMaskAndWeights keep dst rois) := by
  obtain ⟨ws, hws⟩ : ∃ ws, ws = prepareMaskAndWeights keep dst rois := ⟨_, rfl⟩
  obtain ⟨size, hs⟩ : ∃ size, size = getResizedConvertWorkspaceSize keep dst rois := ⟨_, rfl⟩
  obtain ⟨regions, hreg⟩ : ∃ regions, regions = ws.elements.flatMap Element.regions := ⟨_, rfl⟩
  have h : Prepared TableKey.columns rois.length ws _ :=
    hws ▸ prepareMaskAndWeights_prepared keep dst rois
  -- the loop of the size function and that of the tables, side by side
  have hsize : ws.cur ≤ size := by
    have hlen := (intsFit_iff.mp hfit).1
    rw [hws, hs]
    have hlength : (rois.map (listEntry keep dst)).length = rois.length := List.length_map _
    unfold prepareMaskAndWeights prepareEntries
    rw [hlength]
    refine Workspace.cur_le_size hfit (fun _ => listEntry_computed) _ (.start _) rfl
      (List.Subset.refl _) (le_refl _) (by simp) ?_
    unfold headerBytes
    dsimp only
    omega
  have hregions {r : Region} :
      r ∈ regions ↔ ∃ b ∈ ws.elements.flatMap Element.blocks, r ∈ b.1.regions b.2 := by
    simp only [hreg, List.mem_flatMap]
    constructor
    · rintro ⟨e, he, hr⟩
      obtain ⟨b, hb, hr⟩ := (h.wellFormed e he).mem_regions.mp hr
      exact ⟨b, ⟨e, he, hb⟩, hr⟩
    · rintro ⟨b, ⟨e, he, hb⟩, hr⟩
      exact ⟨e, he, (h.wellFormed e he).mem_regions.mpr ⟨b, hb, hr⟩⟩
  rw [← hws, ← hs]
  constructor <;> rw [← hreg]
  · intro w hw
    refine ⟨(h.laid.below w hw).trans hsize, ?_⟩
    refine (h.laid.covered w hw).imp_right fun ⟨b, hb, hw⟩ => ?_
    obtain ⟨e, he, hbe⟩ := List.mem_flatMap.mp hb
    obtain ⟨roi, -, hroi⟩ := h.exists_roi he
    have hmult : 0 < e.mult := by
      rw [hroi]
      exact mult_pos roi.w_pos _
    have hwidth : 0 < e.tableKey.w := by
      rw [hroi]
      exact roi.w_pos
    have hregion : ∃ r ∈ b.1.regions b.2, w.Inside r.start r.bytes := by
      refine BlockKey.exists_region_of_mem_writes (fun k hk => ?_) (fun m hm => ?_) hw
      · rwa [e.eq_tableKey_of_mem_blocks hbe hk]
      · rwa [e.eq_mult_of_mem_blocks hbe hm]
    exact hregion.imp fun r ⟨hr, hin⟩ => ⟨hregions.mpr ⟨b, hb, hr⟩, hin⟩
  · intro r hr
    obtain ⟨b, hb, hr⟩ := hregions.mp hr
    have hblock := h.laid.inside b hb
    have hin := BlockKey.inside_of_mem_regions hr
    omega
  · intro r hr r' hr' hne
    obtain ⟨b, hb, hr⟩ := hregions.mp hr
    obtain ⟨b', hb', hr'⟩ := hregions.mp hr'
    by_cases heq : b = b'
    · subst heq
      exact BlockKey.disjoint_of_mem_regions hr hr' hne
    · have hblocks := h.laid.disjoint b hb b' hb' heq
      have hin := BlockKey.inside_of_mem_regions hr
      have hin' := BlockKey.inside_of_mem_regions hr'
      unfold Region.Disjoint
      omega

/-! ## Exactly when -/

/-- What the two functions do is defined, and the one has room for the other. -/
def WorkspaceRight (keep : Bool) (dst : Dst) (rois : List Roi) : Prop :=
  IntsFit keep dst rois ∧
    RoomFor rois.length (getResizedConvertWorkspaceSize keep dst rois)
      (prepareMaskAndWeights keep dst rois)

/--
**The size that is returned is enough for the batches whose rectangles are indexed, and whose masks
and weights are sized, without an overflow.**
-/
theorem workspaceRight_iff (keep : Bool) (dst : Dst) (rois : List Roi) :
    WorkspaceRight keep dst rois ↔ 4 * rois.length ≤ 2 ^ 31 ∧
      ∀ roi ∈ rois, 8 * (mult roi.w (dstRoiW keep dst roi) * roi.evenW) < 2 ^ 31 ∧
        8 * dstRoiW keep dst roi < 2 ^ 31 := by
  rw [← intsFit_iff]
  exact ⟨And.left, fun h => ⟨h, workspace_suffices h⟩⟩

/-- Behind the front something is written for every element that has columns. -/
theorem exists_write_behind (keep : Bool) (dst : Dst) (rois : List Roi) (i : Fin rois.length)
    (hcol : 0 < dstRoiW keep dst (rois.get i)) :
    ∃ w ∈ (prepareMaskAndWeights keep dst rois).writes,
      headerBytes rois.length < w.offset + w.size := by
  have h := prepareMaskAndWeights_prepared keep dst rois
  have hi : (rois.map (listEntry keep dst))[(i : Nat)]?
      = some (listEntry keep dst (rois.get i)) := by simp
  obtain ⟨e, he, hentry⟩ := h.exists_element hi
  have hmem := List.mem_of_getElem? he
  have hblock : (.tables e.tableKey, e.tables.maskLeft) ∈ e.blocks := List.mem_cons_self
  have hstart := (h.laid.inside _ (List.mem_flatMap.mpr ⟨e, hmem, hblock⟩)).1
  have hkey : e.tableKey = (listEntry keep dst (rois.get i)).tableKey :=
    congrArg ListEntry.tableKey hentry
  have hw : 0 < e.tableKey.w := hkey ▸ (rois.get i).w_pos
  have hd : 0 < e.tableKey.dstRoiW := hkey ▸ hcol
  -- the left slot of the first column
  have hin := TableKey.slotsInside hw
  have hj := hin 0 hd
  have hch : 0 < 4 := by decide
  have hload := h.load_block hmem hblock (Table.offset_add_le (t := .mask .left) hj hch)
  have hvalue : (Table.mask .left).value e.tableKey.columns (e.tableKey.maskLeftIndex 0) = some 1 :=
    Table.value_mask_eq_some_iff.mpr ⟨Columns.group_left_iff.mpr ⟨0, hd, rfl⟩, rfl⟩
  have hwrites : (BlockKey.tables e.tableKey).writes TableKey.columns 0
      = tableWrites e.tableKey.columns 0 := rfl
  rw [hwrites, Table.load_eq hin hj hch, hvalue] at hload
  by_contra hnone
  push Not at hnone
  rw [load_eq_zero fun w hw' hover => ?_] at hload
  · cases hload
  · have hle := hnone w hw'
    have hlt := hover.2
    dsimp only at hstart
    omega

/-- One pixel, enlarged to a row of 2^29: there is room for the front only. -/
theorem workspace_overflows :
    let dst : Dst := { row := 1, col := 2 ^ 29, row_pos := by decide, col_pos := by decide }
    let roi : Roi := { x := 0, y := 0, w := 1, h := 1, w_pos := by decide, h_pos := by decide }
    getResizedConvertWorkspaceSize false dst [roi] = 44 ∧
      (∃ w ∈ (prepareMaskAndWeights false dst [roi]).writes, 44 < w.offset + w.size) ∧
      ¬WorkspaceRight false dst [roi] := by
  intro dst roi
  have hmult : mult 1 (2 ^ 29) = 805306368 := mult_of_lt (by decide) (by decide)
  have hsize : getResizedConvertWorkspaceSize false dst [roi] = 44 := by
    have hentry : listEntry false dst roi
        = { srcRoiX := 0, srcRoiW := 1, dstRoiW := 2 ^ 29, mult := 805306368 } := by
      rw [← hmult]
      rfl
    simp only [getResizedConvertWorkspaceSize, List.map_cons, List.map_nil, List.foldl_cons,
      List.foldl_nil, sizeStep, hentry]
    decide
  have hwrite := exists_write_behind false dst [roi] ⟨0, by decide⟩ (by decide)
  refine ⟨hsize, hwrite, fun h => ?_⟩
  obtain ⟨w, hw, hlt⟩ := hwrite
  have hle := (h.2.written w hw).1
  rw [hsize] at hle
  exact absurd hlt (not_lt.mpr hle)

end CambriconGst.Easybang
