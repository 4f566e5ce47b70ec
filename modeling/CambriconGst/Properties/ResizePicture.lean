import CambriconGst.Properties.ResizeBorders
import CambriconGst.Properties.ResizeCopyFilter
import CambriconGst.Properties.ResizeCoverage
import CambriconGst.Properties.ResizeLoads
import CambriconGst.Properties.ResizeMasks
import CambriconGst.Properties.ResizePixels

/-!
# The picture that resize and convert stores

* `yuv2rgba_loadLines`: the colours of the two lines that are loaded
* `Args.pixel`: a byte of the destination, from four pixels of the source
* `Args.lineBytes_eq`: a byte of a line
* `Args.picture_stored`: the destination after all stores, in whatever order
-/

namespace CambriconGst.Easybang

open Lib

/-- The colour of a pixel of a picture. -/
def Source.colour (s : Source) (m : ColorMode) (half : Halves) (row col c : Nat) : ℚ :=
  let uv := row / 2 * s.col + col / 2 * 2
  m.channelOf half (s.plane .y (row * s.col + col : Nat)).toNat
    (s.plane .uv (uv + if m.reverseChannel then 1 else 0 : Nat)).toNat
    (s.plane .uv (uv + if m.reverseChannel then 0 else 1 : Nat)).toNat c

/-- The colour of a pixel of one of the two lines that are loaded. -/
theorem yuv2rgba_loadLines {source : Source} {roi : SrcRoi} {q : ℚ} {c : Chunk} {second : Bool}
    {row x ch : Nat} (hwidth : roi.col = source.col) (m : ColorMode) (half : Halves)
    (hstore : 0 < c.storeNum) (hload : c.loadNum % 2 = 0) (hcol : c.column % 2 = 0)
    (hx : x < c.loadNum) (hch : ch < 4) (hrow : roi.yH q second = row) (stale : Nat → UInt8) :
    yuv2rgba m half (yuv2lineNumPad c.loadNum)
        (fun i => (loadLines source roi q c stale i).toNat) (4 * (lineAt c second + x) + ch) =
      source.colour m half row (roi.evenX + (c.column + x)) ch := by
  have hline := lineAt_even c second
  have heven : roi.evenX % 2 = 0 := Nat.mul_mod_left _ _
  have hrowOffset (y : Int) : roi.rowOffset y = y * source.col + roi.evenX := by
    rw [← hwidth]
    rfl
  -- two columns share their U and their V
  have huv (r : Nat) : ColorMode.uvAt (yuv2lineNumPad c.loadNum) (lineAt c second + x) + r =
      yuv2lineNumPad c.loadNum + lineAt c second + (x / 2 * 2 + r) := by
    unfold ColorMode.uvAt
    omega
  have hplaneUv {r : Nat} (hr : r < 2) : loadLines source roi q c stale
        (ColorMode.uvAt (yuv2lineNumPad c.loadNum) (lineAt c second + x) + r) =
      source.plane .uv (row / 2 * source.col + (roi.evenX + (c.column + x)) / 2 * 2 + r : Nat) := by
    have hcols : (roi.evenX + (c.column + x)) / 2 * 2 = roi.evenX + c.column + x / 2 * 2 := by
      omega
    have htdiv : (row : Int).tdiv 2 = (row / 2 : Nat) := rfl
    rw [huv, loadLines_uv hstore (by omega), hrow, hrowOffset, hcols, htdiv]
    congr 1
    push_cast
    ring
  refine yuv2rgba_eq m half (ci_dvd_yuv2lineNumPad _) hch ?_ ?_ ?_
  · rw [loadLines_y hstore hx, hrow, hrowOffset]
    congr 3
    push_cast
    ring
  · rw [hplaneUv (by split <;> decide)]
  · rw [hplaneUv (by split <;> decide)]

/-- The two rows are not above the picture. -/
theorem SrcRoi.yH_nonneg {roi : SrcRoi} (hh : 0 < roi.h) (q : ℚ) (second : Bool) :
    0 ≤ roi.yH q second := by
  obtain ⟨hlow, -⟩ := roi.srcPosHInt_bounds q
  unfold yH y1H y2H
  split <;> omega

namespace Args

variable {a : Args} {coreId batch hIter j ch t : Nat} {roi : Roi}

/--
The tables of a batch element are those that the kernel works with: the widths are the same, the copy
filter is there, and the chunks are even and aligned.
-/
structure Agrees (a : Args) (batch : Nat) (roi : Roi) : Prop where
  width : Rounded.dstRoiW a.keepAspectRatio a.dst roi = (a.dstRoi roi).w
  copyFilter : ¬(127 * roi.w < 3 * Rounded.dstRoiW a.keepAspectRatio a.dst roi ∧
    3 * Rounded.dstRoiW a.keepAspectRatio a.dst roi ≤ 129 * roi.w)
  even : a.maxLoadNum batch % 2 = 0
  pos : 0 < a.maxLoadNum batch
  aligned : (a.columns roi).Aligned (Rounded.dstPosW a.dev (a.width batch roi)) (a.maxLoadNum batch)

theorem Agrees.width_eq (h : a.Agrees batch roi) :
    a.width batch roi = (a.columns roi).width (a.maxLoadNum batch) := by
  have hw := h.width
  unfold Task.width Columns.width
  rw [← hw]
  rfl

theorem columns_mult_pos (a : Args) (roi : Roi) : 0 < (a.columns roi).mult :=
  Rounded.mult_pos roi.w_pos _

/-- The tables that the pointers of a batch element in the workspace lead to are made of its columns. -/
theorem table_found (hroi : a.rois[batch]? = some roi) (hagrees : a.Agrees batch roi) (t : Table) :
    ∃ p, a.workspace.loadSlot a.rois.length batch t.slot = .datum (.ptr p) ∧
      ∀ j < t.length (a.columns roi), ∀ ch < 4, load a.workspace.writes (p + (j * 4 + ch) * 2) 2
        = ((t.value (a.columns roi) j).map fun q => .datum (toHalf q)).getD .zero := by
  have hprepared := Rounded.prepareMaskAndWeights_prepared a.keepAspectRatio a.dst a.rois
  have hentry : (a.rois.map (Rounded.listEntry a.keepAspectRatio a.dst))[batch]?
      = some (Rounded.listEntry a.keepAspectRatio a.dst roi) := by
    rw [List.getElem?_map, hroi]
    rfl
  exact hprepared.table_found (List.length_map _) hentry
    (hagrees.aligned.slotsInside (columns_mult_pos a roi) (Rounded.srcWIterInt_mono roi.w_pos)) t

theorem border_even {p : Width} (hm : p.maxLoadNum % 2 = 0) (heven : p.evenW % 2 = 0) (t : Nat) :
    p.border t % 2 = 0 := by
  unfold Width.border
  split
  · rw [Nat.mul_mod, hm, Nat.mul_zero, Nat.zero_mod]
  · exact heven

/-! ## The source in the buffers -/

/-- The copy filter is there when the kernel uses it. -/
theorem copyFilter_loaded (hfit : Rounded.IntsFit a.keepAspectRatio a.dst a.rois)
    (hroi : a.rois[batch]? = some roi) (hagrees : a.Agrees batch roi)
    (hused : loadsCopyFilter (a.columns roi).mult) :
    ∀ o < copyFilterBytes (a.columns roi).mult,
      load a.workspace.writes (a.workspace.copyFilterAddr a.rois.length batch + o) 1 =
        load (copyFilterWrites (a.columns roi).mult 0) o 1 := by
  obtain ⟨hlen, hget⟩ := List.getElem?_eq_some_iff.mp hroi
  have hfound := (Rounded.copyFilter_found (i := ⟨batch, hlen⟩) hfit
    (by rw [List.get_eq_getElem, hget]; exact hagrees.copyFilter)).2
  rw [List.get_eq_getElem, hget] at hfound
  exact hfound hused

/-- What a slot of the expanded source holds of a line. -/
theorem srcRgba_slot {c : Chunk} {second : Bool} {row s : Nat}
    (hfit : Rounded.IntsFit a.keepAspectRatio a.dst a.rois) (hroi : a.rois[batch]? = some roi)
    (hagrees : a.Agrees batch roi) (hstore : 0 < c.storeNum) (hload : c.loadNum % 2 = 0)
    (hcol : c.column % 2 = 0) (hs : s < (a.columns roi).mult * c.loadNum) (hch : ch < 4)
    (hrow : (a.srcRoi batch roi).yH (a.linePosH coreId roi hIter) second = row) :
    a.srcRgba coreId batch roi c hIter
        ((if second then yuvNumPad c.loadNum * channel * (a.columns roi).mult else 0) +
          (4 * s + ch)) =
      (a.source batch).colour a.mode a.unit.toHalves row
        ((a.srcRoi batch roi).evenX + (c.column + s / (a.columns roi).mult)) ch := by
  unfold srcRgba
  rw [expand_line (a.columns_mult_pos roi) (copyFilter_loaded hfit hroi hagrees)
    (yuv2rgba_isHalf _ _ _ _) hs hch]
  exact yuv2rgba_loadLines rfl _ _ hstore hload hcol (Nat.div_lt_of_lt_mul hs) hch hrow _

/-! ## A byte of a line -/

/-- A channel of a pixel of a row of the source, blended with the next one. -/
def rowPixel (a : Args) (batch : Nat) (roi : Roi) (row : Int) (x ch : Nat) : ℚ × ℚ :=
  let c := a.columns roi
  let colour (col : Nat) := (a.source batch).colour a.mode a.unit.toHalves row.toNat
    ((a.srcRoi batch roi).evenX + col) ch
  a.unit.weigh (colour (c.placeColumn x)) (c.weight .left x) (colour (c.placeColumn x + 1))
    (c.weight .right x)

/-- The byte of a channel of a pixel, from the two rows around a position. -/
def pixel (a : Args) (batch : Nat) (roi : Roi) (srcPosH : ℚ) (x ch : Nat) : UInt8 :=
  let r := a.srcRoi batch roi
  a.unit.byte (a.unit.blendLines (a.unit.hWeight1 a.dev r srcPosH)
    (a.rowPixel batch roi (r.y1H srcPosH) x ch) (a.rowPixel batch roi (r.y2H srcPosH) x ch))

/-- Where an iteration starts. -/
def startAt (a : Args) (batch : Nat) (roi : Roi) : Nat → Nat :=
  (a.width batch roi).startTo (a.dstIdxWEnd batch roi)

/-- An iteration. -/
def chunkAt (a : Args) (batch : Nat) (roi : Roi) : Nat → Chunk :=
  (a.width batch roi).chunkTo (a.dstIdxWEnd batch roi)

/-- A byte that a core stores for an iteration. -/
theorem lineBytes_eq (hfit : Rounded.IntsFit a.keepAspectRatio a.dst a.rois)
    (hroi : a.rois[batch]? = some roi) (hagrees : a.Agrees batch roi)
    (ht : t ≤ (a.width batch roi).loadRepeat) (hj : j < (a.chunkAt batch roi t).storeNum)
    (hch : ch < 4) :
    a.lineBytes coreId batch roi (a.chunkAt batch roi t) hIter (4 * j + ch) =
      a.pixel batch roi (a.linePosH coreId roi hIter) (a.startAt batch roi t + j) ch := by
  have hmult := a.columns_mult_pos roi
  have hcol : (a.chunkAt batch roi t).column % 2 = 0 := by
    change t * a.maxLoadNum batch % 2 = 0
    rw [Nat.mul_mod, hagrees.even, Nat.mul_zero, Nat.zero_mod]
  have hload : (a.chunkAt batch roi t).loadNum % 2 = 0 := by
    have heven : (a.width batch roi).evenW % 2 = 0 := Nat.mul_mod_left _ _
    have hborder := border_even (p := a.width batch roi) hagrees.even heven
    have hnext := hborder (t + 1)
    have hthis := hborder t
    change ((a.width batch roi).border (t + 1) - (a.width batch roi).border t) % 2 = 0
    omega
  let row (second : Bool) : Int := (a.srcRoi batch roi).yH (a.linePosH coreId roi hIter) second
  let line (second : Bool) (col : Nat) : ℚ :=
    (a.source batch).colour a.mode a.unit.toHalves (row second).toNat
      ((a.srcRoi batch roi).evenX + col) ch
  have hrow (second : Bool) : row second = ((row second).toNat : ℤ) :=
    (Int.toNat_of_nonneg (SrcRoi.yH_nonneg roi.h_pos _ second)).symm
  have hsrc : ∀ second, ∀ s < (a.columns roi).mult * (a.chunkAt batch roi t).loadNum,
      a.srcRgba coreId batch roi (a.chunkAt batch roi t) hIter
          ((if second then
            yuvNumPad (a.chunkAt batch roi t).loadNum * channel * (a.columns roi).mult else 0) +
            (4 * s + ch))
        = line second ((a.chunkAt batch roi t).column + s / (a.columns roi).mult) :=
    fun second s hs => srcRgba_slot hfit hroi hagrees (Nat.zero_lt_of_lt hj) hload hcol hs hch
      (hrow second)
  obtain ⟨stale, hinterp⟩ := Columns.interp_eq hmult hj hch a.unit
    (a.buffers coreId batch (a.chunkAt batch roi t) hIter)
    (a.unit.hWeight1 a.dev (a.srcRoi batch roi) (a.linePosH coreId roi hIter)) hsrc
  have hpixel (second : Bool) : (a.columns roi).pixelOf a.unit.weigh (line second) (stale second)
      (a.chunkAt batch roi t) j
        = a.rowPixel batch roi (row second) (a.startAt batch roi t + j) ch := by
    have haligned := hagrees.aligned
    unfold chunkAt at hj ⊢
    unfold startAt
    unfold dstIdxWEnd at hj ⊢
    rw [hagrees.width_eq] at hj ht haligned ⊢
    exact haligned.pixelOf_eq roi.w_pos hmult hagrees.pos (Rounded.srcWIterInt_mono roi.w_pos)
      (Rounded.dstIdxWEnd_mono a.dev _) (fun _ => rfl) ht hj
      (fun _ _ r r' => by simp [HalfUnit.weigh]) _ _
  unfold lineBytes
  rw [hinterp, hpixel false, hpixel true]
  rfl

/-! ## After all stores -/

/-- The address of a channel of a pixel of a destination region. -/
def address (a : Args) (batch : Nat) (roi : Roi) (x y ch : Nat) : Nat :=
  ((batch * a.dst.row + ((a.dstRoi roi).top + y)) * a.dst.col + ((a.dstRoi roi).left + x)) * 4 + ch

theorem address_eq (a : Args) (batch : Nat) (roi : Roi) (x y ch : Nat) :
    a.address batch roi x y ch = a.rowAddr batch roi y + (x * 4 + ch) := by
  unfold address Task.rowAddr
  ring

theorem address_inRow {x y : Nat} (hx : x < (a.dstRoi roi).w) (hch : ch < 4) :
    a.InRow batch roi y (a.address batch roi x y ch) := by
  rw [address_eq]
  unfold Task.InRow
  omega

theorem dstIdxWEnd_mono (a : Args) (batch : Nat) (roi : Roi) : Monotone (a.dstIdxWEnd batch roi) :=
  Rounded.dstIdxWEnd_mono a.dev _

/-- The row of a line of a core. -/
def lineRow (a : Args) (coreId : Nat) (roi : Roi) (hIter : Nat) : Nat :=
  dstRoiHOffset (a.dstRoi roi).h a.coreDim coreId + hIter

/-- The bytes that a core stores for a batch element. -/
theorem mem_batchBytes {w : Nat × UInt8} : w ∈ a.batchBytes coreId batch roi ↔
    ∃ t ≤ (a.width batch roi).loadRepeat,
      ∃ hIter < dstRoiHDeal (a.dstRoi roi).h a.coreDim coreId,
        ∃ j < (a.chunkAt batch roi t).storeNum, ∃ ch < 4,
          w = (a.address batch roi (a.startAt batch roi t + j) (a.lineRow coreId roi hIter) ch,
            a.lineBytes coreId batch roi (a.chunkAt batch roi t) hIter (4 * j + ch)) := by
  have haddress (t hIter j ch : Nat) :
      batch * a.dst.row * a.dst.col * 4 + a.padOffset roi +
        dstRoiHOffset (a.dstRoi roi).h a.coreDim coreId * a.dst.col * 4 +
        (a.chunkAt batch roi t).dstAddr + hIter * a.dst.col * 4 + (4 * j + ch) =
      a.address batch roi (a.startAt batch roi t + j) (a.lineRow coreId roi hIter) ch := by
    have hstart : (a.chunkAt batch roi t).dstAddr = a.startAt batch roi t * 4 := rfl
    rw [a.padOffset_eq, hstart]
    unfold address lineRow
    ring
  unfold batchBytes chunks
  dsimp only
  rw [Width.chunksTo_eq (a.dstIdxWEnd_mono batch roi)]
  simp only [List.mem_flatMap, List.mem_map, List.mem_range, exists_exists_and_eq_and]
  constructor
  · rintro ⟨t, ht, hIter, hh, i, hi, rfl⟩
    have hsplit : 4 * (i / 4) + i % 4 = i := Nat.div_add_mod i 4
    refine ⟨t, Nat.lt_succ_iff.mp ht, hIter, hh, i / 4, Nat.div_lt_of_lt_mul (by rwa [Nat.mul_comm]),
      i % 4, Nat.mod_lt _ (by decide), ?_⟩
    rw [← haddress, hsplit]
    rfl
  · rintro ⟨t, ht, hIter, hh, j, hj, ch, hch, rfl⟩
    refine ⟨t, Nat.lt_succ_of_le ht, hIter, hh, 4 * j + ch, ?_, ?_⟩
    · change j < ((a.width batch roi).chunkTo (a.dstIdxWEnd batch roi) t).storeNum at hj
      omega
    · rw [← haddress]
      rfl

/-- The bytes that all cores store. -/
theorem mem_bytes {w : Nat × UInt8} : w ∈ a.bytes ↔
    ∃ taskIdY < a.taskDimY, ∃ coreId < a.coreDim, ∃ batch roi,
      (share a.rois.length a.taskDimY taskIdY ≤ batch ∧
        batch < share a.rois.length a.taskDimY (taskIdY + 1)) ∧
      a.rois[batch]? = some roi ∧ w ∈ a.batchBytes coreId batch roi := by
  have hshare (taskIdY : Nat) := share_mono a.rois.length a.taskDimY (Nat.le_succ taskIdY)
  unfold bytes coreBytes
  simp only [List.mem_flatMap, List.mem_range, Task.startBatch_eq, Task.endBatch_eq, List.mem_range'_1]
  constructor
  · rintro ⟨taskIdY, htask, coreId, hcore, batch, hbatch, hw⟩
    cases hroi : a.rois[batch]? with
    | none => simp [hroi] at hw
    | some roi =>
      rw [hroi] at hw
      rw [Nat.add_sub_of_le (hshare taskIdY)] at hbatch
      exact ⟨taskIdY, htask, coreId, hcore, batch, roi, hbatch, hroi, hw⟩
  · rintro ⟨taskIdY, htask, coreId, hcore, batch, roi, hbatch, hroi, hw⟩
    refine ⟨taskIdY, htask, coreId, hcore, batch, ?_, ?_⟩
    · rwa [Nat.add_sub_of_le (hshare taskIdY)]
    · rw [hroi]
      exact hw

theorem startAt_mono (a : Args) (batch : Nat) (roi : Roi) : Monotone (a.startAt batch roi) :=
  Width.startTo_mono (a.dstIdxWEnd_mono batch roi)

theorem Agrees.startAt_last (h : a.Agrees batch roi) :
    a.startAt batch roi ((a.width batch roi).loadRepeat + 1) = (a.dstRoi roi).w := by
  have hlast : a.dstIdxWEnd batch roi (a.columns roi).evenW = (a.columns roi).dstRoiW := by
    refine h.aligned.ends_evenW fun b => ?_
    unfold dstIdxWEnd
    rw [h.width_eq]
    rfl
  rw [startAt, Width.startTo_last]
  exact hlast.trans h.width

/-- The row of a line is in the region. -/
theorem lineRow_lt (hcore : coreId < a.coreDim)
    (hh : hIter < dstRoiHDeal (a.dstRoi roi).h a.coreDim coreId) :
    a.lineRow coreId roi hIter < (a.dstRoi roi).h := by
  have hdeal := Task.dstRoiHDeal_eq (a.dstRoi roi).h a.coreDim coreId
  have hlast := share_mono (a.dstRoi roi).h a.coreDim hcore
  rw [share_self _ (Nat.zero_lt_of_lt hcore)] at hlast
  simp only [Nat.succ_eq_add_one] at hlast
  rw [lineRow, Task.dstRoiHOffset_eq]
  omega

/-- Each row is a line of one core. -/
theorem lineRow_inj {coreId' hIter' : Nat}
    (hh : hIter < dstRoiHDeal (a.dstRoi roi).h a.coreDim coreId)
    (hh' : hIter' < dstRoiHDeal (a.dstRoi roi).h a.coreDim coreId')
    (heq : a.lineRow coreId roi hIter = a.lineRow coreId' roi hIter') :
    coreId = coreId' ∧ hIter = hIter' := by
  have hdeal := Task.dstRoiHDeal_eq (a.dstRoi roi).h a.coreDim coreId
  have hdeal' := Task.dstRoiHDeal_eq (a.dstRoi roi).h a.coreDim coreId'
  simp only [lineRow, Task.dstRoiHOffset_eq] at heq
  have hrow : share (a.dstRoi roi).h a.coreDim coreId' ≤
      share (a.dstRoi roi).h a.coreDim coreId + hIter ∧
      share (a.dstRoi roi).h a.coreDim coreId + hIter <
        share (a.dstRoi roi).h a.coreDim (coreId' + 1) := by omega
  obtain rfl := segment_unique (share_mono (a.dstRoi roi).h a.coreDim)
    ⟨Nat.le_add_right _ hIter, by omega⟩ hrow
  exact ⟨rfl, by omega⟩

theorem exists_lineRow {y : Nat} (hcores : 0 < a.coreDim) (hy : y < (a.dstRoi roi).h) :
    ∃ coreId < a.coreDim, ∃ hIter < dstRoiHDeal (a.dstRoi roi).h a.coreDim coreId,
      a.lineRow coreId roi hIter = y := by
  have hrow : y < share (a.dstRoi roi).h a.coreDim a.coreDim := by rwa [share_self _ hcores]
  obtain ⟨coreId, hcore, hrow⟩ := exists_segment ((share_zero _ _).trans_le (Nat.zero_le _)) hrow
  have hdeal := Task.dstRoiHDeal_eq (a.dstRoi roi).h a.coreDim coreId
  refine ⟨coreId, hcore, y - share (a.dstRoi roi).h a.coreDim coreId, by omega, ?_⟩
  rw [lineRow, Task.dstRoiHOffset_eq, Nat.add_sub_of_le hrow.1]

/-- A byte that is stored, and where. -/
theorem exists_pixel_of_mem_bytes (hfit : Rounded.IntsFit a.keepAspectRatio a.dst a.rois)
    (hagrees : ∀ batch roi, a.rois[batch]? = some roi → a.Agrees batch roi) {w : Nat × UInt8}
    (hw : w ∈ a.bytes) :
    ∃ batch roi coreId hIter x ch, a.rois[batch]? = some roi ∧ coreId < a.coreDim ∧
      hIter < dstRoiHDeal (a.dstRoi roi).h a.coreDim coreId ∧ x < (a.dstRoi roi).w ∧ ch < 4 ∧
      w = (a.address batch roi x (a.lineRow coreId roi hIter) ch,
        a.pixel batch roi (a.linePosH coreId roi hIter) x ch) := by
  obtain ⟨taskIdY, -, coreId, hcore, batch, roi, -, hroi, hw⟩ := mem_bytes.mp hw
  obtain ⟨t, ht, hIter, hh, j, hj, ch, hch, rfl⟩ := mem_batchBytes.mp hw
  have hroiAgrees := hagrees batch roi hroi
  refine ⟨batch, roi, coreId, hIter, a.startAt batch roi t + j, ch, hroi, hcore, hh, ?_, hch, ?_⟩
  · have hmono := a.startAt_mono batch roi (Nat.succ_le_succ ht)
    have hlast := hroiAgrees.startAt_last
    have hnum : j < a.startAt batch roi (t + 1) - a.startAt batch roi t := hj
    simp only [Nat.succ_eq_add_one] at hmono
    omega
  · rw [lineBytes_eq hfit hroi hroiAgrees ht hj hch]

/-- Each byte of a region is stored. -/
theorem pixel_mem_bytes (hclusters : 0 < a.taskDimY)
    (hfit : Rounded.IntsFit a.keepAspectRatio a.dst a.rois) (hroi : a.rois[batch]? = some roi)
    (hagrees : a.Agrees batch roi) {x : Nat} (hcore : coreId < a.coreDim)
    (hh : hIter < dstRoiHDeal (a.dstRoi roi).h a.coreDim coreId) (hx : x < (a.dstRoi roi).w)
    (hch : ch < 4) : (a.address batch roi x (a.lineRow coreId roi hIter) ch,
      a.pixel batch roi (a.linePosH coreId roi hIter) x ch) ∈ a.bytes := by
  have hbatch : batch < share a.rois.length a.taskDimY a.taskDimY := by
    rw [share_self _ hclusters]
    exact (List.getElem?_eq_some_iff.mp hroi).1
  obtain ⟨taskIdY, htask, hbatch⟩ := exists_segment ((share_zero _ _).trans_le (Nat.zero_le _)) hbatch
  obtain ⟨t, ht, hcols⟩ := exists_segment (Nat.zero_le _) (hagrees.startAt_last ▸ hx)
  have ht' := Nat.lt_succ_iff.mp ht
  have hj : x - a.startAt batch roi t < (a.chunkAt batch roi t).storeNum := by
    change _ < a.startAt batch roi (t + 1) - a.startAt batch roi t
    omega
  have hvalue : a.lineBytes coreId batch roi (a.chunkAt batch roi t) hIter _ = _ :=
    lineBytes_eq hfit hroi hagrees ht' hj hch
  rw [Nat.add_sub_of_le hcols.1] at hvalue
  refine mem_bytes.mpr ⟨taskIdY, htask, coreId, hcore, batch, roi, hbatch, hroi,
    mem_batchBytes.mpr ⟨t, ht', hIter, hh, x - a.startAt batch roi t, hj, ch, hch, ?_⟩⟩
  rw [hvalue, Nat.add_sub_of_le hcols.1]

/-- Halves that are cut off. -/
def cutUnit : HalfUnit where
  toHalves := Rounded.cutHalves
  round := Rounded.cutHalves.const
  average values := Rounded.cutHalves.const (values.sum / 4)
  half2ucharDn q := UInt8.ofInt ⌊q⌋

theorem sampleRoiW_pos : 0 < 6 := by decide

theorem sampleDst_pos : 0 < 3 := by decide

/-- The right part of a picture. -/
def samplePart : Roi := ⟨2, 1, 6, 2, sampleRoiW_pos, Nat.two_pos⟩

/-- Two pictures that are made half as wide and higher, by two clusters of two cores. -/
def sampleArgs : Args where
  taskDimY := 2
  coreDim := 2
  keepAspectRatio := false
  padMethod := 0
  dst := ⟨3, 3, sampleDst_pos, sampleDst_pos⟩
  rois := [⟨0, 0, 6, 2, sampleRoiW_pos, Nat.two_pos⟩, samplePart]
  maxLoadNum := fun _ => 2
  mode := ⟨false, .rgba⟩
  unit := cutUnit
  dev := ⟨.single, .double⟩
  source := fun batch => { col := 8, plane := fun _ i => UInt8.ofNat (batch + i.toNat * 20) }
  buffers := fun _ _ _ _ => ⟨fun _ => 0, fun _ => 0, fun _ => true, fun _ => 0, fun _ => 7⟩

theorem sampleArgs_agrees (batch : Nat) (roi : Roi) (hroi : sampleArgs.rois[batch]? = some roi) :
    sampleArgs.Agrees batch roi := by
  have hmem : roi ∈ sampleArgs.rois := List.mem_of_getElem? hroi
  have hwidth : ∀ r ∈ sampleArgs.rois,
      Rounded.dstRoiW false sampleArgs.dst r = (sampleArgs.dstRoi r).w := by
    decide +kernel
  have hfilter : ∀ r ∈ sampleArgs.rois, ¬(127 * r.w < 3 * Rounded.dstRoiW false sampleArgs.dst r ∧
      3 * Rounded.dstRoiW false sampleArgs.dst r ≤ 129 * r.w) := by
    decide +kernel
  have haligned : ∀ r ∈ sampleArgs.rois, (sampleArgs.columns r).Aligned
      (Rounded.dstPosW ⟨.single, .double⟩ (sampleArgs.width 0 r)) 2 := by
    decide +kernel
  constructor
  case width => exact hwidth roi hmem
  case copyFilter => exact hfilter roi hmem
  case even => exact Nat.mod_self 2
  case pos => exact Nat.two_pos
  case aligned => exact haligned roi hmem

end Args

end CambriconGst.Easybang
