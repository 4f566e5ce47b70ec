import CambriconGst.Easybang.ResizeLoads
import CambriconGst.Properties.ResizeBatching
import CambriconGst.Properties.ResizeChunks

/-!
# The loads of the kernel of resize and convert

* `load_inside`: a region inside the source is loaded from inside the planes
* `roi_clamped_iff`: which inputs are clamped to such a region
-/

namespace CambriconGst.Easybang

/-! ## The columns of an iteration -/

namespace Width

variable {p : Width} {c : Chunk}

/-- An iteration appends its chunk. -/
theorem mem_chunks (h : c ∈ p.chunks) : ∃ t ≤ p.loadRepeat, c.column = t * p.maxLoadNum ∧
    c.loadNum = if t < p.loadRepeat then p.maxLoadNum else p.loadRemainder := by
  have hrun : ∀ (ts : List Nat) (s : WidthState), c ∈ (ts.foldl (p.step p.dstIdxWEnd) s).chunks → c ∈ s.chunks ∨
      ∃ t ∈ ts, c.column = t * p.maxLoadNum ∧
        c.loadNum = if t < p.loadRepeat then p.maxLoadNum else p.loadRemainder := by
    intro ts
    induction ts with
    | nil => exact fun s hc => .inl hc
    | cons t ts ih =>
      intro s hc
      rcases ih _ hc with hc | ⟨t', ht', hrest⟩
      · rcases List.mem_append.mp hc with hc | hc
        · exact .inl hc
        · rw [List.mem_singleton.mp hc]
          exact .inr ⟨t, List.mem_cons_self, rfl, rfl⟩
      · exact .inr ⟨t', List.mem_cons_of_mem t ht', hrest⟩
  rcases hrun _ _ h with hc | ⟨t, ht, hrest⟩
  · exact absurd hc List.not_mem_nil
  · exact ⟨t, Nat.lt_succ_iff.mp (List.mem_range.mp ht), hrest⟩

/-- The columns of a chunk are among those of the region. -/
theorem column_add_le (h : c ∈ p.chunks) : c.column + c.loadNum ≤ p.evenW := by
  obtain ⟨t, ht, hcol, hload⟩ := mem_chunks h
  have hsum := loadRepeat_mul_add p
  rw [hcol, hload]
  split
  · next hlt =>
    have hmul : (t + 1) * p.maxLoadNum ≤ p.loadRepeat * p.maxLoadNum :=
      Nat.mul_le_mul_right p.maxLoadNum hlt
    rw [Nat.succ_mul] at hmul
    omega
  · next hge =>
    obtain rfl : t = p.loadRepeat := by omega
    omega

end Width

/-! ## A region inside the source -/

/-- The bytes of a plane. -/
def Plane.size (col srcH : Nat) : Plane → Nat
  | .y => col * srcH
  | .uv => col * srcH / 2

/-- The load is inside the plane of a source with rows of `col` bytes. -/
def Load.Inside (col srcH : Nat) (l : Load) : Prop :=
  0 ≤ l.offset ∧ l.offset + l.size ≤ l.plane.size col srcH

namespace SrcRoi

variable {roi : SrcRoi} {srcW srcH : Nat} {srcPosH : ℚ} {c : Chunk} {row : Int}

/-- The region is inside the source; without rows it is not at the top. -/
structure Fits (roi : SrcRoi) (srcW srcH : Nat) : Prop where
  evenSrcW : srcW % 2 = 0
  evenSrcH : srcH % 2 = 0
  srcW_le : srcW ≤ roi.col
  right_le : roi.x + roi.w ≤ srcW
  bottom_le : roi.y + roi.h ≤ srcH
  y_pos : roi.h = 0 → 0 < roi.y

theorem srcPosHInt_bounds (roi : SrcRoi) (srcPosH : ℚ) :
    min 0 (roi.h - 1 : Int) ≤ roi.srcPosHInt srcPosH ∧
      roi.srcPosHInt srcPosH ≤ (roi.h - 1 : Int) := by
  refine ⟨min_le_min_right _ ?_, min_le_right _ _⟩
  split
  · next h => simpa using Int.floor_nonneg.mpr h.le
  · simp

theorem Fits.y1H (h : roi.Fits srcW srcH) (srcPosH : ℚ) :
    0 ≤ roi.y1H srcPosH ∧ roi.y1H srcPosH < srcH := by
  obtain ⟨hlo, hhi⟩ := roi.srcPosHInt_bounds srcPosH
  have := h.bottom_le
  have := h.y_pos
  unfold SrcRoi.y1H
  omega

theorem Fits.y2H (h : roi.Fits srcW srcH) (srcPosH : ℚ) :
    0 ≤ roi.y2H srcPosH ∧ roi.y2H srcPosH < srcH := by
  obtain ⟨hlo, hhi⟩ := roi.srcPosHInt_bounds srcPosH
  have := h.bottom_le
  have := h.y_pos
  unfold SrcRoi.y2H
  omega

/-- Columns of a chunk in a row of a plane with `rows` rows. -/
theorem Fits.rowOffset (h : roi.Fits srcW srcH) (hc : c.column + c.loadNum ≤ roi.evenW) {rows : Nat}
    (hlo : 0 ≤ row) (hhi : row < rows) :
    0 ≤ c.column + roi.rowOffset row ∧
      c.column + roi.rowOffset row + c.loadNum ≤ (roi.col * rows : Nat) := by
  have hcols : roi.evenX + roi.evenW ≤ srcW := by
    have := h.evenSrcW
    have := h.right_le
    unfold evenX evenW
    omega
  have hcol := h.srcW_le
  obtain ⟨r, rfl⟩ := Int.eq_ofNat_of_zero_le hlo
  have hmul : (r + 1) * roi.col ≤ rows * roi.col := Nat.mul_le_mul_right roi.col (by omega)
  have hoffset : roi.rowOffset r = (r * roi.col + roi.evenX : Nat) := by
    simp [SrcRoi.rowOffset]
  rw [Nat.succ_mul] at hmul
  rw [hoffset, Nat.mul_comm roi.col rows]
  omega

/-- **A region inside the source is loaded from inside the planes.** -/
theorem load_inside (h : roi.Fits srcW srcH) {dstRoiW maxLoadNum : Nat} {l : Load}
    (hl : l ∈ roi.loads dstRoiW maxLoadNum srcPosH) : l.Inside roi.col srcH := by
  obtain ⟨c, hc, hl⟩ := List.mem_flatMap.mp hl
  have hcols : c.column + c.loadNum ≤ roi.evenW := Width.column_add_le hc
  have huv : roi.col * srcH / 2 = roi.col * (srcH / 2) :=
    Nat.mul_div_assoc _ (Nat.dvd_of_mod_eq_zero h.evenSrcH)
  have heven := h.evenSrcH
  obtain ⟨hlo₁, hhi₁⟩ := h.y1H srcPosH
  obtain ⟨hlo₂, hhi₂⟩ := h.y2H srcPosH
  have htwo : ∀ row : Int, 0 ≤ row → row < srcH →
      0 ≤ row.tdiv 2 ∧ row.tdiv 2 < (srcH / 2 : Nat) := by
    intro row hlo hhi
    rw [Int.tdiv_eq_ediv_of_nonneg hlo]
    omega
  unfold chunkLoads at hl
  split at hl
  · simp only [List.mem_cons, List.not_mem_nil, or_false] at hl
    rcases hl with rfl | rfl | rfl | rfl
    · exact h.rowOffset hcols hlo₁ hhi₁
    · obtain ⟨hlo, hhi⟩ := htwo _ hlo₁ hhi₁
      simp only [Load.Inside, Plane.size, huv]
      exact h.rowOffset hcols hlo hhi
    · exact h.rowOffset hcols hlo₂ hhi₂
    · obtain ⟨hlo, hhi⟩ := htwo _ hlo₂ hhi₂
      simp only [Load.Inside, Plane.size, huv]
      exact h.rowOffset hcols hlo hhi
  · exact absurd hl List.not_mem_nil

end SrcRoi

/-! ## The clamp -/

theorem toNat_min (a b : UInt32) : (min a b).toNat = min a.toNat b.toNat := by
  show (if a ≤ b then a else b).toNat = _
  split
  · next h =>
    rw [UInt32.le_iff_toNat_le] at h
    omega
  · next h =>
    rw [UInt32.le_iff_toNat_le] at h
    omega

/-- The input that is queued for `given` has its region inside, and the kernel loads nothing
else. -/
structure RoiClamped (given queued : InputData) : Prop where
  noWrapX : ((queued.srcW - given.cropX).toNat : Int) = queued.srcW.toNat - given.cropX.toNat
  noWrapY : ((queued.srcH - given.cropY).toNat : Int) = queued.srcH.toNat - given.cropY.toNat
  right_le : queued.cropX.toNat + queued.cropW.toNat ≤ queued.srcW.toNat
  bottom_le : queued.cropY.toNat + queued.cropH.toNat ≤ queued.srcH.toNat
  inside : ∀ dstRoiW maxLoadNum srcPosH, ∀ l ∈ queued.srcRoi.loads dstRoiW maxLoadNum srcPosH,
    l.Inside queued.srcStride.toNat queued.srcH.toNat

variable {d : InputData}

theorem stored_srcH (d : InputData) : d.stored.srcH.toNat = d.srcH.toNat / 2 * 2 := by
  show (if d.srcH % 2 ≠ 0 then d.srcH - 1 else d.srcH).toNat = _
  have hmod : (d.srcH % 2).toNat = d.srcH.toNat % 2 := UInt32.toNat_mod _ _
  by_cases h : d.srcH % 2 = 0
  · rw [if_neg (not_not.mpr h)]
    rw [h] at hmod
    simp at hmod
    omega
  · have hodd : d.srcH.toNat % 2 ≠ 0 := fun h0 => h (UInt32.toNat_inj.mp (by rw [hmod, h0]; rfl))
    rw [if_pos h, UInt32.toNat_sub_of_le _ _ (UInt32.le_iff_toNat_le.mpr (by simp; omega))]
    simp
    omega

/-- An origin that is not beyond the source is clamped. -/
theorem stored_fits (hw : d.srcW.toNat % 2 = 0) (hh : 2 ≤ d.srcH.toNat)
    (hx : d.cropX.toNat ≤ d.srcW.toNat) (hy : d.cropY.toNat ≤ d.srcH.toNat / 2 * 2) :
    d.stored.srcRoi.Fits d.srcW.toNat d.stored.srcH.toNat := by
  have hsrcH := stored_srcH d
  have hsubW : (d.srcW - d.cropX).toNat = d.srcW.toNat - d.cropX.toNat :=
    UInt32.toNat_sub_of_le _ _ (UInt32.le_iff_toNat_le.mpr hx)
  have hsubH : (d.stored.srcH - d.cropY).toNat = d.stored.srcH.toNat - d.cropY.toNat :=
    UInt32.toNat_sub_of_le _ _ (UInt32.le_iff_toNat_le.mpr (by rw [hsrcH]; exact hy))
  have hcropW : d.stored.cropW.toNat =
      min (d.srcW.toNat - d.cropX.toNat) (if d.cropW = 0 then d.srcW else d.cropW).toNat := by
    rw [← hsubW]
    exact toNat_min _ _
  have hcropH : d.stored.cropH.toNat =
      min (d.stored.srcH.toNat - d.cropY.toNat)
        (if d.cropH = 0 then d.stored.srcH else d.cropH).toNat := by
    rw [← hsubH]
    exact toNat_min _ _
  have hcol : d.stored.srcStride.toNat = max d.srcW.toNat d.srcStride.toNat := by
    show (if d.srcW > d.srcStride then d.srcW else d.srcStride).toNat = _
    split
    · next h => exact (max_eq_left (UInt32.lt_iff_toNat_lt.mp h).le).symm
    · next h => exact (max_eq_right (UInt32.le_iff_toNat_le.mp (UInt32.not_lt.mp h))).symm
  refine ⟨hw, by omega, ?_, ?_, ?_, fun h0 => ?_⟩
  · show d.srcW.toNat ≤ d.stored.srcStride.toNat
    omega
  · show d.cropX.toNat + d.stored.cropW.toNat ≤ d.srcW.toNat
    omega
  · show d.cropY.toNat + d.stored.cropH.toNat ≤ d.stored.srcH.toNat
    omega
  · -- only below the last row there are no rows
    have hzero : d.stored.cropH.toNat = 0 := h0
    have hpos : 0 < (if d.cropH = 0 then d.stored.srcH else d.cropH).toNat := by
      split
      · omega
      · next hne => exact Nat.pos_of_ne_zero fun hn => hne (UInt32.toNat_inj.mp hn)
    show 0 < d.cropY.toNat
    omega

/--
**Which inputs are clamped.**

Of an input with an even width and at least two rows, all below 2^15, `BatchingUp` queues a region
inside the source, which the kernel loads from inside the planes, just when its origin is not beyond
the last column, nor beyond the last row of an even number of rows.
-/
theorem roi_clamped_iff (s : ResizeConvert) (d : InputData) (hw : d.srcW.toNat % 2 = 0)
    (hh : 2 ≤ d.srcH.toNat) (_ : d.srcW.toNat < 2 ^ 15) (_ : d.srcH.toNat < 2 ^ 15)
    (_ : d.srcStride.toNat < 2 ^ 15) :
    ∃ queued, (s.batchingUp d).inputDatasCache = s.inputDatasCache ++ [queued] ∧
      (RoiClamped d queued ↔
        d.cropX.toNat ≤ d.srcW.toNat ∧ d.cropY.toNat ≤ d.srcH.toNat / 2 * 2) := by
  refine ⟨d.stored, rfl, fun h => ?_, fun ⟨hx, hy⟩ => ?_⟩
  · have hright : d.cropX.toNat + d.stored.cropW.toNat ≤ d.srcW.toNat := h.right_le
    have hbottom : d.cropY.toNat + d.stored.cropH.toNat ≤ d.stored.srcH.toNat := h.bottom_le
    rw [stored_srcH] at hbottom
    omega
  · have hfits := stored_fits hw hh hx hy
    have hsrcH := stored_srcH d
    refine ⟨?_, ?_, hfits.right_le, hfits.bottom_le, fun _ _ _ _ hl => SrcRoi.load_inside hfits hl⟩
    · show ((d.srcW - d.cropX).toNat : Int) = d.srcW.toNat - d.cropX.toNat
      rw [UInt32.toNat_sub_of_le _ _ (UInt32.le_iff_toNat_le.mpr hx)]
      omega
    · rw [UInt32.toNat_sub_of_le _ _ (UInt32.le_iff_toNat_le.mpr (by omega))]
      omega

/-- An origin in the middle of four columns. -/
def insideRoi : InputData where
  srcW := 4
  srcH := 5
  srcStride := 8
  cropX := 1
  cropY := 4
  cropW := 7
  cropH := 7
  planeY := 4096
  planeUv := 8192

theorem roi_clamped_inside : ∃ queued,
    ((ResizeConvert.initial 1 zeroArrays zeroArrays).batchingUp insideRoi).inputDatasCache =
      [queued] ∧ RoiClamped insideRoi queued := by
  obtain ⟨queued, hcache, hiff⟩ := roi_clamped_iff (ResizeConvert.initial 1 zeroArrays zeroArrays)
    insideRoi (by decide) (by decide) (by decide) (by decide) (by decide)
  exact ⟨queued, hcache, hiff.mpr (by decide)⟩

/-- Two columns behind the source the subtraction wraps. -/
theorem wrapped_roi : ¬∀ (s : ResizeConvert) (d : InputData), d.srcW.toNat % 2 = 0 →
    2 ≤ d.srcH.toNat → d.srcW.toNat < 2 ^ 15 → d.srcH.toNat < 2 ^ 15 → d.srcStride.toNat < 2 ^ 15 →
    ∃ queued, (s.batchingUp d).inputDatasCache = s.inputDatasCache ++ [queued] ∧
      RoiClamped d queued := by
  intro h
  obtain ⟨queued, hcache, hclamped⟩ := h (ResizeConvert.initial 1 zeroArrays zeroArrays)
    { insideRoi with cropX := 6, cropW := 0 } (by decide) (by decide) (by decide) (by decide)
    (by decide)
  obtain rfl := List.singleton_inj.mp hcache
  exact absurd hclamped.right_le (by decide)

end CambriconGst.Easybang
