import CambriconGst.Lib.CoversOnce
import CambriconGst.Properties.ResizeChunks
import CambriconGst.Properties.ResizeGeometry

/-!
# What the kernel stores to

Batch elements are divided among the clusters, rows among the cores of a cluster, columns among the
iterations over the width.

* `kernelDstRoi_fits`: the destination region lies in the destination
* `Task.stores_cover`: each byte of a destination region is stored once, and no other byte is
-/

namespace CambriconGst.Easybang

open Lib

/-! ## The destination region -/

namespace DstRoi

def top (g : DstRoi) : Nat :=
  if g.padMode then 0 else g.padHalf1

def left (g : DstRoi) : Nat :=
  if g.padMode then g.padHalf1 else 0

end DstRoi

theorem kernelDstRoi_h_le {dst : Dst} {roi : Roi} (hge : dst.aspectRatio ≤ roi.aspectRatio) :
    (float2intRd (dst.col / roi.aspectRatio)).toNat ≤ dst.row := by
  have hq : dst.col / roi.aspectRatio = ((dst.col * roi.h : ℕ) : ℚ) / (roi.w : ℕ) := by
    unfold Roi.aspectRatio
    push_cast
    rw [div_div_eq_mul_div]
  have hle : dst.col * roi.h ≤ roi.w * dst.row :=
    not_lt.mp fun hlt => absurd (aspectRatio_lt_iff.mpr hlt) (not_lt.mpr hge)
  rw [hq, float2intRd_div]
  exact Nat.div_le_of_le_mul hle

theorem kernelDstRoi_fits (keep : Bool) (padMethod : Int) (dst : Dst) (roi : Roi) :
    (kernelDstRoi keep padMethod dst roi).top + (kernelDstRoi keep padMethod dst roi).h ≤ dst.row ∧
      (kernelDstRoi keep padMethod dst roi).left + (kernelDstRoi keep padMethod dst roi).w
        ≤ dst.col := by
  have hhalf (n : Nat) : (if padMethod = 0 then n / 2 else 0) ≤ n := by
    split <;> omega
  unfold kernelDstRoi DstRoi.top DstRoi.left
  split
  · split
    · next hge =>
      have hh := kernelDstRoi_h_le hge
      have hpad := hhalf (dst.row - (float2intRd (dst.col / roi.aspectRatio)).toNat)
      simp only [Bool.false_eq_true, if_false]
      omega
    · next hlt =>
      have hlt := aspectRatio_lt_iff.mp (not_le.mp hlt)
      have hw : dst.row * roi.w / roi.h ≤ dst.col := by
        refine Nat.div_le_of_le_mul ?_
        rw [Nat.mul_comm, Nat.mul_comm roi.h]
        exact hlt.le
      have hpad := hhalf (dst.col - dst.row * roi.w / roi.h)
      simp only [if_true, dst_row_mul_aspectRatio, float2intRd_div]
      omega
  · simp

/-- A byte of a store. -/
def Store.Covers (s : Store) (a : Nat) : Prop :=
  s.offset ≤ a ∧ a < s.offset + s.size

instance (s : Store) (a : Nat) : Decidable (s.Covers a) := by
  unfold Store.Covers
  infer_instance

namespace Task

variable {t : Task} {batch batch' y y' a coreId taskIdY : Nat} {roi roi' : Roi}

/-- A byte of a pixel of the destination region of some batch element. -/
def InDstRoi (t : Task) (a : Nat) : Prop :=
  ∃ batch roi y x c, t.rois[batch]? = some roi ∧ y < (t.dstRoi roi).h ∧ x < (t.dstRoi roi).w ∧ c < 4 ∧
    a = ((batch * t.dst.row + ((t.dstRoi roi).top + y)) * t.dst.col + ((t.dstRoi roi).left + x)) * 4 + c

/-- Where a row of a destination region starts. -/
def rowAddr (t : Task) (batch : Nat) (roi : Roi) (y : Nat) : Nat :=
  ((batch * t.dst.row + ((t.dstRoi roi).top + y)) * t.dst.col + (t.dstRoi roi).left) * 4

/-- A byte of a row of the destination region of a batch element. -/
def InRow (t : Task) (batch : Nat) (roi : Roi) (y a : Nat) : Prop :=
  t.rowAddr batch roi y ≤ a ∧ a < t.rowAddr batch roi y + (t.dstRoi roi).w * 4

theorem inDstRoi_iff :
    t.InDstRoi a ↔ ∃ batch roi y, t.rois[batch]? = some roi ∧ y < (t.dstRoi roi).h ∧
      t.InRow batch roi y a := by
  unfold InDstRoi InRow rowAddr
  constructor
  · rintro ⟨batch, roi, y, x, c, hroi, hy, hx, hc, rfl⟩
    exact ⟨batch, roi, y, hroi, hy, by omega, by omega⟩
  · rintro ⟨batch, roi, y, hroi, hy, hle, hlt⟩
    refine ⟨batch, roi, y, (a - t.rowAddr batch roi y) / 4, (a - t.rowAddr batch roi y) % 4, hroi, hy,
      ?_, Nat.mod_lt _ (by decide), ?_⟩ <;> unfold rowAddr
    · omega
    · rw [← Nat.add_assoc, Nat.add_mul]
      omega

/-- The row of the destination that a byte is in. -/
theorem InRow.div_eq (h : t.InRow batch roi y a) :
    a / (t.dst.col * 4) = batch * t.dst.row + ((t.dstRoi roi).top + y) := by
  have hfits := (kernelDstRoi_fits t.keepAspectRatio t.padMethod t.dst roi).2
  unfold InRow rowAddr at h
  generalize batch * t.dst.row + ((t.dstRoi roi).top + y) = r at h ⊢
  have hr : r * t.dst.col * 4 = r * (t.dst.col * 4) := Nat.mul_assoc _ _ _
  have hr' : (r + 1) * (t.dst.col * 4) = r * (t.dst.col * 4) + t.dst.col * 4 := Nat.succ_mul _ _
  refine Nat.div_eq_of_lt_le ?_ ?_
  · omega
  · unfold dstRoi at h
    omega

/-- A byte is in one row only. -/
theorem InRow.unique (h : t.InRow batch roi y a) (h' : t.InRow batch' roi' y' a)
    (hroi : t.rois[batch]? = some roi) (hroi' : t.rois[batch']? = some roi')
    (hy : y < (t.dstRoi roi).h) (hy' : y' < (t.dstRoi roi').h) : batch = batch' ∧ y = y' := by
  have hfits := (kernelDstRoi_fits t.keepAspectRatio t.padMethod t.dst roi).1
  have hfits' := (kernelDstRoi_fits t.keepAspectRatio t.padMethod t.dst roi').1
  have heq := h.div_eq.symm.trans h'.div_eq
  have hbatch {b z : Nat} (hz : z < t.dst.row) : (b * t.dst.row + z) / t.dst.row = b := by
    rw [Nat.mul_comm, Nat.mul_add_div t.dst.row_pos, Nat.div_eq_of_lt hz, Nat.add_zero]
  have hb := congrArg (· / t.dst.row) heq
  unfold dstRoi at hy hy' heq hb
  rw [hbatch (by omega), hbatch (by omega)] at hb
  subst hb
  obtain rfl := Option.some.inj (hroi.symm.trans hroi')
  exact ⟨rfl, by omega⟩

theorem padOffset_eq (t : Task) (roi : Roi) :
    t.padOffset roi = ((t.dstRoi roi).top * t.dst.col + (t.dstRoi roi).left) * 4 := by
  have hoff : t.keepAspectRatio = false → (t.dstRoi roi).padHalf1 = 0 := fun hk => by
    simp [dstRoi, kernelDstRoi, hk]
  unfold padOffset DstRoi.top DstRoi.left
  cases hk : t.keepAspectRatio with
  | false => simp [hoff hk]
  | true =>
    cases (t.dstRoi roi).padMode with
    | false => simp [Nat.mul_right_comm]
    | true => simp

/-! ## Shares of rows and of batch elements -/

theorem dstRoiHOffset_eq (h coreDim coreId : Nat) :
    dstRoiHOffset h coreDim coreId = share h coreDim coreId := by
  unfold dstRoiHOffset share
  rw [Nat.mul_comm]
  split <;> omega

theorem dstRoiHDeal_eq (h coreDim coreId : Nat) :
    share h coreDim coreId + dstRoiHDeal h coreDim coreId = share h coreDim (coreId + 1) :=
  (share_succ h coreDim coreId).symm

theorem startBatch_eq (n taskDimY taskIdY : Nat) :
    startBatch n taskDimY taskIdY = share n taskDimY taskIdY := by
  unfold startBatch share
  split <;> omega

theorem endBatch_eq (n taskDimY taskIdY : Nat) :
    endBatch n taskDimY taskIdY = share n taskDimY (taskIdY + 1) := by
  rw [endBatch, startBatch_eq, share_succ, Nat.add_assoc]

/-! ## The stores -/

/-- The rows of a batch element that a core has. -/
def InCoreRow (t : Task) (coreId : Nat) (roi : Roi) (y : Nat) : Prop :=
  share (t.dstRoi roi).h t.coreDim coreId ≤ y ∧ y < share (t.dstRoi roi).h t.coreDim (coreId + 1)

/-- Where the iteration `i` starts in a row. -/
def segmentAddr (t : Task) (batch : Nat) (roi : Roi) (y i : Nat) : Nat :=
  t.rowAddr batch roi y + (t.width batch roi).start i * 4

theorem segmentAddr_mono (t : Task) (batch : Nat) (roi : Roi) (y : Nat) :
    Monotone (t.segmentAddr batch roi y) := fun _ _ hle =>
  Nat.add_le_add_left (Nat.mul_le_mul_right _ (Width.start_mono roi.w_pos hle)) _

theorem w_le_evenW (roi : Roi) : roi.w ≤ roi.evenW := by
  unfold Roi.evenW
  omega

theorem segmentAddr_last (t : Task) (batch : Nat) (roi : Roi) (y : Nat) :
    t.segmentAddr batch roi y ((t.width batch roi).loadRepeat + 1)
      = t.rowAddr batch roi y + (t.dstRoi roi).w * 4 := by
  unfold segmentAddr
  rw [Width.start_last roi.w_pos (w_le_evenW roi)]
  rfl

theorem inRow_of_segment {i : Nat} (hi : i < (t.width batch roi).loadRepeat + 1)
    (h : t.segmentAddr batch roi y i ≤ a ∧ a < t.segmentAddr batch roi y (i + 1)) :
    t.InRow batch roi y a := by
  refine ⟨Nat.le_trans (Nat.le_add_right _ _) h.1, ?_⟩
  rw [← segmentAddr_last]
  exact h.2.trans_le (t.segmentAddr_mono batch roi y hi)

/-- A byte that the iteration `i` of a core stores for a batch element. -/
def InSegment (t : Task) (coreId batch : Nat) (roi : Roi) (i a : Nat) : Prop :=
  ∃ y, t.InCoreRow coreId roi y ∧ t.segmentAddr batch roi y i ≤ a ∧
    a < t.segmentAddr batch roi y (i + 1)

theorem InRow.row_unique (h : t.InRow batch roi y a) (h' : t.InRow batch roi y' a) : y = y' := by
  have heq := h.div_eq.symm.trans h'.div_eq
  omega

/-- The address of a store. -/
theorem store_offset (t : Task) (coreId batch : Nat) (roi : Roi) (i hIter : Nat) :
    batch * t.dst.row * t.dst.col * 4 + t.padOffset roi +
        dstRoiHOffset (t.dstRoi roi).h t.coreDim coreId * t.dst.col * 4 +
        ((t.width batch roi).chunkAt i).dstAddr + hIter * t.dst.col * 4
      = t.segmentAddr batch roi (share (t.dstRoi roi).h t.coreDim coreId + hIter) i := by
  rw [padOffset_eq, dstRoiHOffset_eq]
  unfold segmentAddr rowAddr Width.chunkAt Width.chunkTo
  ring

/-- What an iteration stores. -/
theorem chunk_cover (t : Task) (coreId batch : Nat) (roi : Roi) (i : Nat)
    (hi : i < (t.width batch roi).loadRepeat + 1) :
    CoversOnce Store.Covers
      (if ((t.width batch roi).chunkAt i).storeNum > 0 then
        (List.range (dstRoiHDeal (t.dstRoi roi).h t.coreDim coreId)).map fun hIter =>
          { offset := batch * t.dst.row * t.dst.col * 4 + t.padOffset roi +
              dstRoiHOffset (t.dstRoi roi).h t.coreDim coreId * t.dst.col * 4 +
              ((t.width batch roi).chunkAt i).dstAddr + hIter * t.dst.col * 4
            size := ((t.width batch roi).chunkAt i).storeNum * 4 }
      else []) (t.InSegment coreId batch roi i) := by
  have hmono := Width.start_mono (p := t.width batch roi) roi.w_pos (Nat.le_succ i)
  have hnum : ((t.width batch roi).chunkAt i).storeNum
      = (t.width batch roi).start (i + 1) - (t.width batch roi).start i := rfl
  split
  · next hpos =>
    have hsize (y : Nat) : t.segmentAddr batch roi y i + ((t.width batch roi).chunkAt i).storeNum * 4
        = t.segmentAddr batch roi y (i + 1) := by
      unfold segmentAddr
      omega
    have hdeal := dstRoiHDeal_eq (t.dstRoi roi).h t.coreDim coreId
    simp only [store_offset]
    rw [List.map_eq_flatMap]
    refine (CoversOnce.range_flatMap (fun hIter _ => .singleton _) ?_).congr fun a => ?_
    · intro hIter hIter' a hlt hlt' h h'
      have hrow {y : Nat} (hcov : t.segmentAddr batch roi y i ≤ a ∧
          a < t.segmentAddr batch roi y i + ((t.width batch roi).chunkAt i).storeNum * 4) :
          t.InRow batch roi y a := inRow_of_segment hi (by rwa [hsize] at hcov)
      exact Nat.add_left_cancel ((hrow h).row_unique (hrow h'))
    · unfold Store.Covers
      simp only [hsize]
      constructor
      · rintro ⟨y, ⟨hle, hlt⟩, hseg⟩
        refine ⟨y - share (t.dstRoi roi).h t.coreDim coreId, by omega, ?_⟩
        rwa [Nat.add_sub_of_le hle]
      · rintro ⟨hIter, hlt, hseg⟩
        exact ⟨_, ⟨Nat.le_add_right _ hIter, by omega⟩, hseg⟩
  · next hzero =>
    refine CoversOnce.nil.congr fun a => iff_of_false ?_ id
    rintro ⟨y, -, hle, hlt⟩
    unfold segmentAddr at hle hlt
    omega

/-- What a core stores for a batch element. -/
theorem batchStores_cover (t : Task) (coreId batch : Nat) (roi : Roi) :
    CoversOnce Store.Covers (t.batchStores coreId batch roi) fun a =>
      ∃ y, t.InCoreRow coreId roi y ∧ t.InRow batch roi y a := by
  unfold batchStores
  dsimp only
  rw [Width.chunks_eq (p := t.width batch roi) roi.w_pos, List.flatMap_map]
  refine (CoversOnce.range_flatMap (t.chunk_cover coreId batch roi) fun i j a hi hj h h' => ?_).congr
    fun a => ?_
  · obtain ⟨y, -, hseg⟩ := h
    obtain ⟨y', -, hseg'⟩ := h'
    obtain rfl := (inRow_of_segment hi hseg).row_unique (inRow_of_segment hj hseg')
    exact segment_unique (t.segmentAddr_mono batch roi y) hseg hseg'
  · have hunion (y : Nat) := exists_segment_iff (t.segmentAddr_mono batch roi y)
      (k := (t.width batch roi).loadRepeat + 1) (x := a)
    constructor
    · rintro ⟨y, hy, hrow⟩
      rw [InRow, ← segmentAddr_last] at hrow
      obtain ⟨i, hi, hseg⟩ := (hunion y).mpr hrow
      exact ⟨i, hi, y, hy, hseg⟩
    · rintro ⟨i, hi, y, hy, hseg⟩
      exact ⟨y, hy, inRow_of_segment hi hseg⟩

/-- A byte of the rows that a core has of the batch elements of its cluster. -/
def InCore (t : Task) (taskIdY coreId a : Nat) : Prop :=
  ∃ batch roi y, (share t.rois.length t.taskDimY taskIdY ≤ batch ∧
    batch < share t.rois.length t.taskDimY (taskIdY + 1)) ∧ t.rois[batch]? = some roi ∧
    t.InCoreRow coreId roi y ∧ t.InRow batch roi y a

theorem InCoreRow.lt (h : t.InCoreRow coreId roi y) (hcore : coreId < t.coreDim) :
    y < (t.dstRoi roi).h := by
  have hlast := share_self (t.dstRoi roi).h (Nat.zero_lt_of_lt hcore)
  exact h.2.trans_le ((share_mono _ _ hcore).trans_eq hlast)

/-- What a core stores. -/
theorem coreStores_cover (t : Task) (taskIdY : Nat) (hcore : coreId < t.coreDim) :
    CoversOnce Store.Covers (t.coreStores taskIdY coreId) (t.InCore taskIdY coreId) := by
  unfold coreStores
  dsimp only
  rw [startBatch_eq, endBatch_eq]
  have hmono := share_mono t.rois.length t.taskDimY (Nat.le_succ taskIdY)
  let InBatch (batch a : Nat) : Prop :=
    ∃ roi, t.rois[batch]? = some roi ∧ ∃ y, t.InCoreRow coreId roi y ∧ t.InRow batch roi y a
  refine (CoversOnce.flatMap (fun batch _ =>
    (?_ : CoversOnce Store.Covers _ (InBatch batch))) ?_).congr fun a => ?_
  · cases hroi : t.rois[batch]? with
    | none => exact CoversOnce.nil.congr fun a => by simp [InBatch, hroi]
    | some roi => exact (t.batchStores_cover coreId batch roi).congr fun a => by simp [InBatch, hroi]
  · refine (List.pairwise_lt_range' 1).imp fun hlt a => ?_
    rintro ⟨roi, hroi, y, hy, hrow⟩ ⟨roi', hroi', y', hy', hrow'⟩
    exact hlt.ne (hrow.unique hrow' hroi hroi' (hy.lt hcore) (hy'.lt hcore)).1
  · simp only [InCore, List.mem_range'_1, Nat.add_sub_of_le hmono]
    constructor
    · rintro ⟨batch, roi, y, hb, hroi, hy⟩
      exact ⟨batch, hb, roi, hroi, y, hy⟩
    · rintro ⟨batch, hb, roi, hroi, y, hy⟩
      exact ⟨batch, roi, y, hb, hroi, hy⟩

/--
**The stores of all cores of all clusters cover each byte of the destination regions once, and no
byte outside of them.**
-/
theorem stores_cover (t : Task) (hclusters : 0 < t.taskDimY) (hcores : 0 < t.coreDim) :
    CoversOnce Store.Covers t.stores t.InDstRoi := by
  have hcluster (taskIdY : Nat) : CoversOnce Store.Covers
      ((List.range t.coreDim).flatMap (t.coreStores taskIdY))
      fun a => ∃ coreId < t.coreDim, t.InCore taskIdY coreId a := by
    refine CoversOnce.range_flatMap (fun _ hcore => t.coreStores_cover taskIdY hcore) ?_
    rintro i j a hi hj ⟨batch, roi, y, -, hroi, hy, hrow⟩ ⟨batch', roi', y', -, hroi', hy', hrow'⟩
    obtain ⟨rfl, rfl⟩ := hrow.unique hrow' hroi hroi' (hy.lt hi) (hy'.lt hj)
    obtain rfl := Option.some.inj (hroi.symm.trans hroi')
    exact segment_unique (share_mono _ _) hy hy'
  refine (CoversOnce.range_flatMap (fun taskIdY _ => hcluster taskIdY) ?_).congr fun a => ?_
  · rintro i j a hi hj ⟨c, hc, batch, roi, y, hb, hroi, hy, hrow⟩
      ⟨c', hc', batch', roi', y', hb', hroi', hy', hrow'⟩
    obtain ⟨rfl, rfl⟩ := hrow.unique hrow' hroi hroi' (hy.lt hc) (hy'.lt hc')
    exact segment_unique (share_mono _ _) hb hb'
  · rw [inDstRoi_iff]
    constructor
    · rintro ⟨batch, roi, y, hroi, hy, hrow⟩
      have hb : batch < share t.rois.length t.taskDimY t.taskDimY := by
        rw [share_self _ hclusters]
        exact (List.getElem?_eq_some_iff.mp hroi).1
      have hy' : y < share (t.dstRoi roi).h t.coreDim t.coreDim := by rwa [share_self _ hcores]
      obtain ⟨taskIdY, htask, hb⟩ := exists_segment ((share_zero _ _).trans_le (Nat.zero_le _)) hb
      obtain ⟨coreId, hcore, hy⟩ := exists_segment ((share_zero _ _).trans_le (Nat.zero_le _)) hy'
      exact ⟨taskIdY, htask, coreId, hcore, batch, roi, y, hb, hroi, hy, hrow⟩
    · rintro ⟨taskIdY, -, coreId, hcore, batch, roi, y, -, hroi, hy, hrow⟩
      exact ⟨batch, roi, y, hroi, hy.lt hcore, hrow⟩

/-- Regions wider than the destination, like it and narrower, for two clusters of three cores. -/
def sample : Task where
  taskDimY := 2
  coreDim := 3
  keepAspectRatio := true
  padMethod := 0
  dst := ⟨2, 2, Nat.two_pos, Nat.two_pos⟩
  rois := [⟨1, 0, 2, 1, Nat.two_pos, Nat.one_pos⟩, ⟨0, 0, 1, 1, Nat.one_pos, Nat.one_pos⟩,
    ⟨3, 2, 1, 2, Nat.one_pos, Nat.two_pos⟩]
  maxLoadNum := fun _ => 2

theorem stores_cover_sample : CoversOnce Store.Covers sample.stores sample.InDstRoi :=
  stores_cover sample (by decide) (by decide)

end Task

end CambriconGst.Easybang
