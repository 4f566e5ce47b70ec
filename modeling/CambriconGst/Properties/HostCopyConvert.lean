import CambriconGst.Properties.HostCopy

/-!
# The converter's frames in host memory

* `floatSize_planar_eq_iff`, `floatSize_packed_eq_iff`: when a size in single precision is right
* `transformToCpu_right_iff`: when the buffer is the packed frame
-/

namespace CambriconGst.Gst.HostCopy

open Lib

variable {fmt : VideoFormat} {frame : Frame}

/-! ## Sizes in single precision -/

/-- One and a half times a number, in single precision. -/
def oneAndHalf (n : Nat) : ℚ :=
  roundTo 24 (roundTo 24 n * (3 / 2))

theorem hasDigits_single {q : ℚ} (hq : 0 ≤ q) : HasDigits 24 (roundTo 24 q) :=
  hasDigits_roundTo (by norm_num) hq

theorem single_nonneg {q : ℚ} (hq : 0 ≤ q) : 0 ≤ roundTo 24 q :=
  roundTo_nonneg (by norm_num) hq

/-- The factor one, the channels of the first plane, does nothing. -/
theorem floatSize_planar (hfmt : Planar fmt) (n : BitVec 32) :
    Cnconvert.floatSize fmt n = ⌊oneAndHalf n.toNat⌋₊ := by
  have hround : roundTo 24 (oneAndHalf n.toNat) = oneAndHalf n.toNat := by
    refine (hasDigits_single ?_).roundTo_eq
    have hn := single_nonneg (Nat.cast_nonneg (α := ℚ) n.toNat)
    positivity
  have hsize : Cnconvert.floatSize fmt n = ⌊roundTo 24 (oneAndHalf n.toNat * ((1 : ℕ) : ℚ))⌋₊ := by
    rcases hfmt with rfl | rfl | rfl <;> rfl
  rw [hsize, Nat.cast_one, mul_one, hround]

/-- Nor does the scale of one. -/
theorem floatSize_packed (hfmt : ¬Planar fmt) (n : BitVec 32) :
    Cnconvert.floatSize fmt n
      = ⌊roundTo 24 (roundTo 24 n.toNat * (fmt.channelNumPlane0 : ℚ))⌋₊ := by
  have hround : roundTo 24 (roundTo 24 (n.toNat : ℚ)) = roundTo 24 n.toNat :=
    (hasDigits_single (Nat.cast_nonneg _)).roundTo_eq
  have hscale : Cnconvert.scale fmt = 1 := by
    cases fmt with
    | nv12 | nv21 | i420 => exact absurd (by decide) hfmt
    | _ => rfl
  rw [Cnconvert.floatSize, hscale, mul_one, hround]

/-- A product in single precision is right when it has few digits. -/
theorem floor_single_mul_eq_iff {x a b size : Nat} (ha : 0 < a) (hsize : 2 ^ b * size = a * x) :
    ⌊roundTo 24 (roundTo 24 (x : ℚ) * (a / 2 ^ b))⌋₊ = size ↔ HasDigits 24 (size : ℚ) := by
  have hx := single_nonneg (Nat.cast_nonneg (α := ℚ) x)
  constructor
  · intro h
    rw [← h]
    exact (hasDigits_single (by positivity)).floor
  · intro h
    have hdigits : HasDigits 24 ((a * x : ℕ) : ℚ) := by
      rw [← hsize]
      push_cast
      exact h.two_pow_mul b
    have hprod : (x : ℚ) * (a / 2 ^ b) = size := by
      have hcast : (2 : ℚ) ^ b * size = a * x := by exact_mod_cast hsize
      field_simp
      linarith
    rw [(hdigits.of_mul ha).roundTo_eq, hprod, h.roundTo_eq, Nat.floor_natCast]

theorem floatSize_planar_eq_iff (hfmt : Planar fmt) {n : BitVec 32} (heven : n.toNat % 2 = 0) :
    Cnconvert.floatSize fmt n = n.toNat + n.toNat / 2 ↔
      HasDigits 24 ((n.toNat + n.toNat / 2 : ℕ) : ℚ) := by
  have hdouble : 2 ^ 1 * (n.toNat + n.toNat / 2) = 3 * n.toNat := by
    omega
  have hiff := floor_single_mul_eq_iff (by norm_num) hdouble
  rw [floatSize_planar hfmt, oneAndHalf]
  norm_num at hiff ⊢
  exact hiff

theorem floatSize_packed_eq_iff (hfmt : ¬Planar fmt) {n : BitVec 32} :
    Cnconvert.floatSize fmt n = fmt.channelNumPlane0 * n.toNat ↔
      HasDigits 24 ((fmt.channelNumPlane0 * n.toNat : ℕ) : ℚ) := by
  have hch : 0 < fmt.channelNumPlane0 := by
    cases fmt <;> decide
  have hiff := floor_single_mul_eq_iff (x := n.toNat) (b := 0) hch (Nat.one_mul _)
  rw [floatSize_packed hfmt]
  simpa only [pow_zero, div_one] using hiff

/-- Rounding takes little. -/
theorem nine_tenths_le {q : ℚ} (hq : 0 ≤ q) : 9 / 10 * q ≤ roundTo 24 q := by
  rcases hq.eq_or_lt with rfl | hq
  · rw [roundTo_zero, mul_zero]
  · have hle := sub_le_roundTo 24 hq
    norm_num at hle
    linarith

/-- Of a packed format much more is allocated than the plane has. -/
theorem two_mul_le_floatSize (hfmt : ¬Planar fmt) (n : BitVec 32) :
    2 * n.toNat ≤ Cnconvert.floatSize fmt n := by
  have hn : (0 : ℚ) ≤ n.toNat := Nat.cast_nonneg _
  have hch : (3 : ℚ) ≤ fmt.channelNumPlane0 := by
    cases fmt with
    | nv12 | nv21 | i420 => exact absurd (by decide) hfmt
    | _ => norm_num [VideoFormat.channelNumPlane0]
  have hrow := nine_tenths_le hn
  have hprod : 3 * roundTo 24 n.toNat ≤ roundTo 24 n.toNat * fmt.channelNumPlane0 := by
    rw [mul_comm]
    exact mul_le_mul_of_nonneg_left hch (single_nonneg hn)
  have hsize := nine_tenths_le (q := roundTo 24 n.toNat * fmt.channelNumPlane0) (by linarith)
  rw [floatSize_packed hfmt]
  refine Nat.le_floor ?_
  push_cast
  linarith

/-! ## The converter -/

/--
The memory of the buffer that `transform_to_cpu` returns is the packed frame; whatever the planes
are, and whatever was in memory. No byte outside of a memory is reached.
-/
def ReturnsFrame (fmt : VideoFormat) (frame : Frame) : Prop :=
  ∀ planes, frame.OnDevice fmt planes → ∀ mem cpMem : Nat → UInt8, ∃ out,
    Cnconvert.transformToCpu fmt frame planes mem cpMem = some out ∧
      Packed planes (frame.rects fmt) out

theorem returnsFrame_iff (hreg : frame.Regular fmt) :
    ReturnsFrame fmt frame ↔
      Room fmt frame (Cnconvert.floatSize fmt (frame.stride 0 * frame.height))
        (Cnconvert.floatSize fmt (frame.width * frame.height)) := by
  unfold ReturnsFrame
  simp only [transformToCpu_eq]
  constructor
  · exact Room.of_packed hreg
  · intro h planes hdev mem cp
    obtain ⟨out, hout, hpacked, -⟩ := h.packed hreg hdev mem cp
    exact ⟨out, hout, hpacked⟩

theorem packedSize_rects_packed (hfmt : ¬Planar fmt) :
    packedSize (frame.rects fmt) = fmt.channelNumPlane0 * frame.pixels := by
  have hrects : frame.rects fmt = [packedRect fmt.channelNumPlane0 frame] := by
    cases fmt with
    | nv12 | nv21 | i420 => exact absurd (by decide) hfmt
    | _ => rfl
  rw [hrects, packedSize, packedSize, packedRect, Frame.pixels]
  ring

theorem channelNumPlane0_pos (fmt : VideoFormat) : 0 < fmt.channelNumPlane0 := by
  cases fmt <;> decide

theorem toNat_pixels (hreg : frame.Regular fmt) (hlt : frame.area < 2 ^ 32) :
    (frame.width * frame.height).toNat = frame.pixels := by
  have hle : frame.width.toNat ≤ (frame.stride 0).toNat :=
    (Nat.le_mul_of_pos_right _ (channelNumPlane0_pos fmt)).trans hreg.width_le
  exact toNat_mul_of_lt ((Nat.mul_le_mul_right _ hle).trans_lt hlt)

theorem size_eq_iff_planar (hreg : frame.Regular fmt) (hfmt : Planar fmt)
    (hlt : frame.area < 2 ^ 32) :
    (if frame.Padded fmt then Cnconvert.floatSize fmt (frame.width * frame.height)
      else Cnconvert.floatSize fmt (frame.stride 0 * frame.height)) = packedSize (frame.rects fmt) ↔
      HasDigits 24 (packedSize (frame.rects fmt) : ℚ) := by
  have hpixels := toNat_pixels hreg hlt
  have heven : frame.pixels % 2 = 0 := by
    have h4 := hreg.pixels_mod_four
    omega
  have hmem : (if frame.Padded fmt then Cnconvert.floatSize fmt (frame.width * frame.height)
      else Cnconvert.floatSize fmt (frame.stride 0 * frame.height))
      = Cnconvert.floatSize fmt (frame.width * frame.height) := by
    split
    · rfl
    · next hpad =>
      have hprod : frame.stride 0 * frame.height = frame.width * frame.height := by
        have harea := hreg.area_eq hpad
        rw [← BitVec.toNat_inj, hpixels, toNat_mul_of_lt hlt]
        rcases hfmt with rfl | rfl | rfl <;> exact harea.trans (Nat.one_mul _)
      rw [hprod]
  rw [hmem, packedSize_rects hreg hfmt, ← hpixels]
  exact floatSize_planar_eq_iff hfmt (by rwa [hpixels])

theorem size_eq_iff_packed (hreg : frame.Regular fmt) (hfmt : ¬Planar fmt)
    (hlt : frame.area < 2 ^ 32) (hpos : frame.pixels ≠ 0) :
    (if frame.Padded fmt then Cnconvert.floatSize fmt (frame.width * frame.height)
      else Cnconvert.floatSize fmt (frame.stride 0 * frame.height)) = packedSize (frame.rects fmt) ↔
      HasDigits 24 (packedSize (frame.rects fmt) : ℚ) ∧ frame.Padded fmt := by
  rw [packedSize_rects_packed hfmt]
  by_cases hpad : frame.Padded fmt
  · rw [if_pos hpad, and_iff_left hpad, ← toNat_pixels hreg hlt]
    exact floatSize_packed_eq_iff hfmt
  -- the buffer is returned with the length of what was allocated
  · rw [if_neg hpad]
    refine iff_of_false (fun hsize => ?_) fun h => hpad h.2
    have hle := two_mul_le_floatSize hfmt (frame.stride 0 * frame.height)
    have harea : (frame.stride 0 * frame.height).toNat = fmt.channelNumPlane0 * frame.pixels :=
      (toNat_mul_of_lt hlt).trans (hreg.area_eq hpad)
    have hprod := Nat.mul_pos (channelNumPlane0_pos fmt) (Nat.pos_of_ne_zero hpos)
    omega

/-- The size is right for frames without pixels. -/
theorem size_eq_of_pixels_zero (hreg : frame.Regular fmt) (hzero : frame.pixels = 0) :
    (if frame.Padded fmt then Cnconvert.floatSize fmt (frame.width * frame.height)
      else Cnconvert.floatSize fmt (frame.stride 0 * frame.height))
      = packedSize (frame.rects fmt) := by
  have hnone : Cnconvert.floatSize fmt 0 = 0 := by
    simp [Cnconvert.floatSize]
  have hpixels : frame.width * frame.height = 0 := by
    rw [← BitVec.toNat_inj, BitVec.toNat_mul]
    exact congrArg (· % 2 ^ 32) hzero
  have harea (hpad : ¬frame.Padded fmt) : frame.stride 0 * frame.height = 0 := by
    have harea := hreg.area_eq hpad
    rw [hzero, Nat.mul_zero] at harea
    rw [← BitVec.toNat_inj, BitVec.toNat_mul]
    exact congrArg (· % 2 ^ 32) harea
  have hsize : packedSize (frame.rects fmt) = 0 := by
    by_cases hfmt : Planar fmt
    · rw [packedSize_rects hreg hfmt, hzero]
    · rw [packedSize_rects_packed hfmt, hzero, Nat.mul_zero]
  rw [hsize]
  split
  · rw [hpixels, hnone]
  · next hpad => rw [harea hpad, hnone]

/-- The planes fit the memory that they are fetched to. -/
theorem fetchedSize_le_floatSize_iff :
    fetchedSize fmt (frame.stride 0).toNat frame.height.toNat
        ≤ Cnconvert.floatSize fmt (frame.stride 0 * frame.height) ↔
      (Planar fmt → (fetchedSize fmt (frame.stride 0).toNat frame.height.toNat : ℚ)
        ≤ oneAndHalf (frame.area % 2 ^ 32)) := by
  have hlen : (frame.stride 0 * frame.height).toNat = frame.area % 2 ^ 32 := BitVec.toNat_mul _ _
  by_cases hfmt : Planar fmt
  · have hnonneg : 0 ≤ oneAndHalf (frame.area % 2 ^ 32) := by
      have hn := single_nonneg (Nat.cast_nonneg (α := ℚ) (frame.area % 2 ^ 32))
      exact single_nonneg (by positivity)
    rw [floatSize_planar hfmt, hlen, Nat.le_floor_iff hnonneg]
    exact ⟨fun h _ => h, fun h => h hfmt⟩
  · refine iff_of_true ?_ fun h => absurd h hfmt
    have hle := two_mul_le_floatSize hfmt (frame.stride 0 * frame.height)
    have hfetched : fetchedSize fmt (frame.stride 0).toNat frame.height.toNat
        = frame.area % 2 ^ 32 := by
      cases fmt with
      | nv12 | nv21 | i420 => exact absurd (by decide) hfmt
      | _ => rfl
    omega

/--
**The converter's buffer is the packed frame** in planar formats, and in packed formats when rows
have padding, when the sizes that are computed with 32 bits and in single precision are exact.
-/
theorem transformToCpu_right_iff (fmt : VideoFormat) (frame : Frame) (hreg : frame.Regular fmt) :
    ReturnsFrame fmt frame ↔
      (Planar fmt → (fetchedSize fmt (frame.stride 0).toNat frame.height.toNat : ℚ)
        ≤ oneAndHalf (frame.area % 2 ^ 32)) ∧
      (frame.pixels = 0 ∨ frame.area < 2 ^ 32 ∧ HasDigits 24 (packedSize (frame.rects fmt) : ℚ) ∧
        (¬Planar fmt → frame.Padded fmt)) := by
  have hsize (hlt : frame.area < 2 ^ 32) (hpos : frame.pixels ≠ 0) :
      (if frame.Padded fmt then Cnconvert.floatSize fmt (frame.width * frame.height)
        else Cnconvert.floatSize fmt (frame.stride 0 * frame.height))
        = packedSize (frame.rects fmt) ↔
      HasDigits 24 (packedSize (frame.rects fmt) : ℚ) ∧ (¬Planar fmt → frame.Padded fmt) := by
    by_cases hfmt : Planar fmt
    · rw [size_eq_iff_planar hreg hfmt hlt]
      exact ⟨fun h => ⟨h, fun hnot => absurd hfmt hnot⟩, fun h => h.1⟩
    · rw [size_eq_iff_packed hreg hfmt hlt hpos]
      exact and_congr_right fun _ => ⟨fun h _ => h, fun h => h hfmt⟩
  rw [returnsFrame_iff hreg, ← fetchedSize_le_floatSize_iff]
  constructor
  · rintro ⟨hfetched, hfits, hright⟩
    refine ⟨hfetched, ?_⟩
    by_cases hpos : frame.pixels = 0
    · exact Or.inl hpos
    · have hlt := hfits.resolve_left hpos
      exact Or.inr ⟨hlt, (hsize hlt hpos).mp hright⟩
  · rintro ⟨hfetched, hcond⟩
    by_cases hpos : frame.pixels = 0
    · exact ⟨hfetched, Or.inl hpos, size_eq_of_pixels_zero hreg hpos⟩
    · obtain ⟨hlt, hright⟩ := hcond.resolve_left hpos
      exact ⟨hfetched, Or.inr hlt, (hsize hlt hpos).mpr hright⟩

/-- Below 2 ^ 24 bytes nothing is rounded. -/
theorem oneAndHalf_eq {n : Nat} (heven : n % 2 = 0) (hlt : n + n / 2 < 2 ^ 24) :
    oneAndHalf n = ((n + n / 2 : ℕ) : ℚ) := by
  have hprod : (n : ℚ) * (3 / 2) = ((n + n / 2 : ℕ) : ℚ) := by
    have hdouble : (2 * (n + n / 2 : ℕ) : ℚ) = 3 * n := by
      exact_mod_cast (by omega : 2 * (n + n / 2) = 3 * n)
    linarith
  rw [oneAndHalf, roundTo_natCast (by omega), hprod, roundTo_natCast hlt]

/-- NV12 with padding. -/
theorem returnsFrame_padded : ReturnsFrame .nv12 { width := 4, height := 4, stride _ := 8 } := by
  refine (transformToCpu_right_iff .nv12 { width := 4, height := 4, stride _ := 8 }
    ⟨by decide, by decide, by decide, by decide, by decide⟩).mpr
    ⟨fun _ => ?_, Or.inr ⟨by decide, hasDigits_natCast (by decide), by decide⟩⟩
  exact (oneAndHalf_eq (n := 32) (by decide) (by decide)).ge

/-- RGB without padding, as all frames are that were converted. -/
def rgbFrame : Frame where
  width := 2
  height := 2
  stride _ := 6

/-- The buffer is three times as long as the frame. -/
theorem not_returnsFrame_rgb :
    rgbFrame.Regular .rgb ∧ packedSize (rgbFrame.rects .rgb) = 12 ∧
      (∀ planes (mem cpMem : Nat → UInt8) (out : Block UInt8),
        Cnconvert.transformToCpu .rgb rgbFrame planes mem cpMem = some out → out.size = 36) ∧
      ¬ReturnsFrame .rgb rgbFrame := by
  have hsize : Cnconvert.floatSize .rgb (rgbFrame.stride 0 * rgbFrame.height) = 36 :=
    (floatSize_packed_eq_iff (by decide)).mpr (hasDigits_natCast (by decide))
  have hlong (planes : Nat → Block UInt8) (mem cpMem : Nat → UInt8) (out : Block UInt8)
      (hout : Cnconvert.transformToCpu .rgb rgbFrame planes mem cpMem = some out) :
      out.size = 36 := by
    rw [transformToCpu_eq] at hout
    rw [size_of_toHost hout, if_neg (by decide)]
    exact hsize
  refine ⟨⟨by decide, by decide, by decide, by decide, by decide⟩, by decide, hlong, fun h => ?_⟩
  obtain ⟨out, hout, hright, -⟩ :=
    h (lastRowMarked rgbFrame) onDevice_lastRowMarked (fun _ => 0) fun _ => 0
  rw [hlong _ _ _ _ hout] at hright
  exact absurd hright (by decide)

end CambriconGst.Gst.HostCopy
