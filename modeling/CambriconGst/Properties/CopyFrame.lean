import CambriconGst.Easycodec.CopyFrame

/-!
# Copies by stride and by width

* `copyFrame_error_iff`: the formats that are accepted
* `copyFrameD2H_tight`: how the decoder reads the strides
* `copyFrame_agrees_iff`: the encoder reads only those of NV12 and NV21 in the same way
-/

namespace CambriconGst.Easycodec

open ReceiveFrame

/-- The formats that `CopyFrame` has a case for. -/
def Accepted (fmt : PixelFmt) : Prop :=
  fmt ∈ [.nv12, .nv21, .i420, .argb, .abgr, .rgba, .bgra]

instance (fmt : PixelFmt) : Decidable (Accepted fmt) := by
  unfold Accepted
  infer_instance

/-- The strides in bytes of rows without padding. -/
def tightStrides (fmt : PixelFmt) (width : BitVec 32) : List (BitVec 32) :=
  match fmt with
  | .nv12 | .nv21 => [width, width, 0]
  | .i420 => [width, width >>> 1, width >>> 1]
  | _ => [4 * width, 0, 0]

/-- The bytes of a plane. -/
def planeSize (fmt : PixelFmt) (width height plane : Nat) : Nat :=
  match fmt, plane with
  | .nv12, 0 | .nv21, 0 | .i420, 0 => width * height
  | .nv12, 1 | .nv21, 1 => width * height / 2
  | .i420, 1 | .i420, 2 => width * height / 4
  | .nv12, _ | .nv21, _ | .i420, _ => 0
  | _, 0 => 4 * (width * height)
  | _, _ => 0

/-- Each plane of the frame is copied, whole. -/
def CopiesPlanes (fmt : PixelFmt) (frame : CnFrame) : Prop :=
  ∃ copies, copyFrame fmt frame = .ok copies ∧
    ∀ plane < 3, bytesOf copies plane = planeSize fmt frame.width.toNat frame.height.toNat plane

variable {fmt : PixelFmt} {frame : CnFrame}

theorem copyFrame_empty (hsize : frame.frameSize = 0) : copyFrame fmt frame = .ok [] := by
  simp [copyFrame, hsize]

/-- Only frames with data can have a format that is not accepted. -/
theorem copyFrame_error_iff :
    (∃ e, copyFrame fmt frame = .error e) ↔ frame.frameSize > 0 ∧ ¬Accepted fmt := by
  by_cases hsize : frame.frameSize > 0
  · rw [and_iff_right hsize]
    simp only [copyFrame, if_pos hsize]
    cases fmt <;> simp [Accepted]
  · refine iff_of_false ?_ fun h => hsize h.1
    rintro ⟨e, h⟩
    simp only [copyFrame, if_neg hsize] at h
    exact absurd h nofun

/-- The sizes of three planes at once. -/
theorem forall_plane_iff {f g : Nat → Nat} :
    (∀ plane < 3, f plane = g plane) ↔ f 0 = g 0 ∧ f 1 = g 1 ∧ f 2 = g 2 := by
  constructor
  · exact fun h => ⟨h 0 (by decide), h 1 (by decide), h 2 (by decide)⟩
  · rintro ⟨h0, h1, h2⟩ plane hlt
    match plane, hlt with
    | 0, _ => exact h0
    | 1, _ => exact h1
    | 2, _ => exact h2

/-- The bytes of a row that `CopyFrame` counts with. -/
def rowBytes (frame : CnFrame) (p : Nat) : BitVec 32 :=
  if stride frame p = 0 then frame.width else stride frame p

/-- What is copied of a plane, in numbers. -/
def copied (fmt : PixelFmt) (row rowUv height plane : Nat) : Nat :=
  match fmt, plane with
  | .nv12, 0 | .nv21, 0 | .i420, 0 => row * height % 2 ^ 32
  | .nv12, 1 | .nv21, 1 => rowUv * height % 2 ^ 32 / 2
  | .i420, 1 | .i420, 2 => rowUv * height % 2 ^ 32 / 2 / 2
  | .nv12, _ | .nv21, _ | .i420, _ => 0
  | _, 0 => row * height % 2 ^ 32 * 4 % 2 ^ 32
  | _, _ => 0

theorem copyFrame_ok (hfmt : Accepted fmt) (hsize : frame.frameSize > 0) :
    ∃ copies, copyFrame fmt frame = .ok copies ∧ ∀ plane < 3, bytesOf copies plane
      = copied fmt (rowBytes frame 0).toNat (rowBytes frame 1).toNat frame.height.toNat plane := by
  have hframe : (if stride frame 0 = 0 then frame.width * frame.height
      else stride frame 0 * frame.height) = rowBytes frame 0 * frame.height := by
    unfold rowBytes
    split <;> rfl
  have huv : (if stride frame 1 = 0 then (frame.width * frame.height) >>> 1
      else (stride frame 1 * frame.height) >>> 1) = (rowBytes frame 1 * frame.height) >>> 1 := by
    unfold rowBytes
    split <;> rfl
  simp only [copyFrame, if_pos hsize, hframe, huv]
  cases fmt with
  | nv12 | nv21 | i420 | argb | abgr | bgra | rgba =>
    refine ⟨_, rfl, forall_plane_iff.mpr ?_⟩
    simp [bytesOf, copied, Nat.shiftRight_eq_div_pow, Nat.shiftLeft_eq, Nat.div_div_eq_div_mul]
  | _ => exact absurd hfmt (by decide)

theorem copiesPlanes_iff (hfmt : Accepted fmt) (hsize : frame.frameSize > 0) :
    CopiesPlanes fmt frame ↔ ∀ plane < 3,
      copied fmt (rowBytes frame 0).toNat (rowBytes frame 1).toNat frame.height.toNat plane
        = planeSize fmt frame.width.toNat frame.height.toNat plane := by
  obtain ⟨copies, hok, hbytes⟩ := copyFrame_ok hfmt hsize
  constructor
  · rintro ⟨copies', hok', hall⟩ plane hlt
    obtain rfl := Except.ok.inj (hok.symm.trans hok')
    rw [← hbytes plane hlt, hall plane hlt]
  · intro hall
    exact ⟨copies, hok, fun plane hlt => (hbytes plane hlt).trans (hall plane hlt)⟩

/-! ## Rows without padding -/

/-- The frame with the strides in bytes of rows without padding. -/
def tight (fmt : PixelFmt) (frame : CnFrame) : CnFrame :=
  { frame with strides := tightStrides fmt frame.width }

/-- The frame without strides. -/
def strideless (frame : CnFrame) : CnFrame :=
  { frame with strides := [0, 0, 0] }

theorem rowBytes_strideless (p : Nat) (hp : p < 3) :
    rowBytes (strideless frame) p = frame.width := by
  match p, hp with
  | 0, _ => rfl
  | 1, _ => rfl
  | 2, _ => rfl

theorem rowBytes_tight_luma (hfmt : fmt = .nv12 ∨ fmt = .nv21 ∨ fmt = .i420) :
    rowBytes (tight fmt frame) 0 = frame.width := by
  rcases hfmt with rfl | rfl | rfl <;>
    exact ite_eq_right_iff.mpr fun hzero => rfl

theorem rowBytes_tight_chroma (hfmt : fmt = .nv12 ∨ fmt = .nv21) :
    rowBytes (tight fmt frame) 1 = frame.width := by
  rcases hfmt with rfl | rfl <;>
    exact ite_eq_right_iff.mpr fun hzero => rfl

/-- Half a row of I420 is nothing only when the row is. -/
theorem rowBytes_tight_i420 (hw : frame.width.toNat % 2 = 0) :
    (rowBytes (tight .i420 frame) 1).toNat = frame.width.toNat / 2 := by
  have hhalf : (frame.width >>> 1).toNat = frame.width.toNat / 2 := by
    simp [Nat.shiftRight_eq_div_pow]
  have hrow : rowBytes (tight .i420 frame) 1
      = if frame.width >>> 1 = 0 then frame.width else frame.width >>> 1 := rfl
  rw [hrow]
  split
  · next hzero =>
    rw [hzero] at hhalf
    have hnone : 0 = frame.width.toNat / 2 := hhalf
    omega
  · exact hhalf

/-- Rows of pixels of four bytes. -/
theorem rowBytes_tight_packed (hfmt : fmt = .argb ∨ fmt = .abgr ∨ fmt = .rgba ∨ fmt = .bgra)
    (hpos : 0 < frame.width.toNat) (hlt : 4 * frame.width.toNat < 2 ^ 32) :
    (rowBytes (tight fmt frame) 0).toNat = 4 * frame.width.toNat := by
  have hrow : rowBytes (tight fmt frame) 0
      = if 4 * frame.width = 0 then frame.width else 4 * frame.width := by
    rcases hfmt with rfl | rfl | rfl | rfl <;> rfl
  have hbytes : (4 * frame.width).toNat = 4 * frame.width.toNat := by
    bv_omega
  rw [hrow, if_neg (by bv_omega), hbytes]

theorem rowBytes_tight_zero (hwidth : frame.width = 0) (p : Nat) (hp : p < 2) :
    rowBytes (tight fmt frame) p = 0 := by
  have hstride : stride (tight fmt frame) p = 0 := by
    simp only [stride, tight, hwidth]
    match p, hp with
    | 0, _ => cases fmt <;> rfl
    | 1, _ => cases fmt <;> rfl
  rw [rowBytes, if_pos hstride]
  exact hwidth

/-! ## The copies compared -/

theorem planeSize_eq_zero_iff (hfmt : Accepted fmt) {width height : Nat}
    (h4 : width * height % 4 = 0) :
    (∀ plane < 3, 0 = planeSize fmt width height plane) ↔ width * height = 0 := by
  rw [forall_plane_iff (f := fun _ => 0)]
  generalize hn : width * height = n at h4
  cases fmt with
  | nv12 | nv21 | i420 | argb | abgr | bgra | rgba =>
    simp only [planeSize, hn, and_true]
    omega
  | _ => exact absurd hfmt (by decide)

/-- Without data nothing is copied, which is right for frames without pixels. -/
theorem copiesPlanes_empty (hfmt : Accepted fmt) (hsize : frame.frameSize = 0)
    (h4 : frame.width.toNat * frame.height.toNat % 4 = 0) :
    CopiesPlanes fmt frame ↔ frame.width.toNat * frame.height.toNat = 0 := by
  rw [← planeSize_eq_zero_iff hfmt h4]
  constructor
  · rintro ⟨copies, hok, hall⟩
    obtain rfl := Except.ok.inj ((copyFrame_empty hsize).symm.trans hok)
    exact hall
  · exact fun hall => ⟨[], copyFrame_empty hsize, hall⟩

/-- By the width whole planes are copied, as long as the numbers of bytes fit. -/
theorem copiesPlanes_strideless (hfmt : Accepted fmt) (hsize : frame.frameSize > 0)
    (h4 : frame.width.toNat * frame.height.toNat % 4 = 0) :
    CopiesPlanes fmt (strideless frame) ↔
      planeSize fmt frame.width.toNat frame.height.toNat 0 < 2 ^ 32 := by
  have hdata : (strideless frame).frameSize > 0 := hsize
  have hwidth : (strideless frame).width = frame.width := rfl
  have hheight : (strideless frame).height = frame.height := rfl
  rw [copiesPlanes_iff hfmt hdata, forall_plane_iff, rowBytes_strideless 0 (by decide),
    rowBytes_strideless 1 (by decide), hwidth, hheight]
  generalize hn : frame.width.toNat * frame.height.toNat = n at h4
  cases fmt with
  | nv12 | nv21 | i420 | argb | abgr | bgra | rgba =>
    simp only [copied, planeSize, hn, and_true]
    omega
  | _ => exact absurd hfmt (by decide)

/-- Frames without pixels, with strides that are zero when the width is. -/
theorem copiesPlanes_tight_zero (hfmt : Accepted fmt) (hsize : frame.frameSize > 0)
    (hzero : frame.width.toNat * frame.height.toNat = 0) : CopiesPlanes fmt (tight fmt frame) := by
  have hrow : ∀ p < 2, (rowBytes (tight fmt frame) p).toNat * frame.height.toNat = 0 := by
    intro p hp
    rcases Nat.mul_eq_zero.mp hzero with hw | hh
    · have hwidth : frame.width = 0 := BitVec.eq_of_toNat_eq hw
      rw [rowBytes_tight_zero hwidth p hp]
      exact Nat.zero_mul _
    · rw [hh, Nat.mul_zero]
  rw [copiesPlanes_iff hfmt (show (tight fmt frame).frameSize > 0 from hsize), forall_plane_iff]
  have h0 := hrow 0 (by decide)
  have h1 := hrow 1 (by decide)
  cases fmt with
  | nv12 | nv21 | i420 | argb | abgr | bgra | rgba =>
    simp only [copied, planeSize, show (tight _ frame).width = frame.width from rfl,
      show (tight _ frame).height = frame.height from rfl, h0, h1, hzero]
    decide
  | _ => exact absurd hfmt (by decide)

/-- The stride of the chroma of NV12 and NV21 is the width. -/
theorem copiesPlanes_tight_semiplanar (hfmt : fmt = .nv12 ∨ fmt = .nv21)
    (hsize : frame.frameSize > 0) :
    CopiesPlanes fmt (tight fmt frame) ↔ CopiesPlanes fmt (strideless frame) := by
  have haccepted : Accepted fmt := by
    rcases hfmt with rfl | rfl <;> decide
  rw [copiesPlanes_iff haccepted (show (tight fmt frame).frameSize > 0 from hsize),
    copiesPlanes_iff haccepted (show (strideless frame).frameSize > 0 from hsize),
    rowBytes_tight_luma (hfmt.imp_right Or.inl), rowBytes_tight_chroma hfmt,
    rowBytes_strideless 0 (by decide), rowBytes_strideless 1 (by decide)]
  exact Iff.rfl

/-- The stride of the chroma of I420 is halved as if it were that of NV12. -/
theorem not_copiesPlanes_tight_i420 (hsize : frame.frameSize > 0)
    (hw : frame.width.toNat % 2 = 0) (h4 : frame.width.toNat * frame.height.toNat % 4 = 0)
    (hpos : frame.width.toNat * frame.height.toNat ≠ 0)
    (hlt : frame.width.toNat * frame.height.toNat < 2 ^ 32) :
    ¬CopiesPlanes .i420 (tight .i420 frame) := by
  rw [copiesPlanes_iff (by decide) (show (tight .i420 frame).frameSize > 0 from hsize),
    rowBytes_tight_i420 hw]
  intro hall
  have hu : frame.width.toNat / 2 * frame.height.toNat % 2 ^ 32 / 2 / 2
      = frame.width.toNat * frame.height.toNat / 4 := hall 1 (by decide)
  have hhalf : frame.width.toNat * frame.height.toNat
      = 2 * (frame.width.toNat / 2 * frame.height.toNat) := by
    rw [← Nat.mul_assoc, Nat.mul_div_cancel' (Nat.dvd_of_mod_eq_zero hw)]
  omega

theorem copied_packed (hfmt : fmt = .argb ∨ fmt = .abgr ∨ fmt = .rgba ∨ fmt = .bgra)
    {row rowUv height : Nat} :
    copied fmt row rowUv height 0 = row * height % 2 ^ 32 * 4 % 2 ^ 32 := by
  rcases hfmt with rfl | rfl | rfl | rfl <;> rfl

theorem planeSize_packed (hfmt : fmt = .argb ∨ fmt = .abgr ∨ fmt = .rgba ∨ fmt = .bgra)
    {width height : Nat} : planeSize fmt width height 0 = 4 * (width * height) := by
  rcases hfmt with rfl | rfl | rfl | rfl <;> rfl

/-- Four times as many bytes are not the same bytes again, also in 32 bits. -/
theorem four_times_mod_ne {n : Nat} (hpos : n ≠ 0) (hlt : 4 * n < 2 ^ 32) :
    4 * n % 2 ^ 32 * 4 % 2 ^ 32 ≠ 4 * n := by
  rw [Nat.mod_eq_of_lt hlt]
  grind

/-- The stride in bytes of pixels of four bytes is taken for one in pixels. -/
theorem not_copiesPlanes_tight_packed
    (hfmt : fmt = .argb ∨ fmt = .abgr ∨ fmt = .rgba ∨ fmt = .bgra) (hsize : frame.frameSize > 0)
    (hpos : frame.width.toNat * frame.height.toNat ≠ 0)
    (hlt : 4 * (frame.width.toNat * frame.height.toNat) < 2 ^ 32) :
    ¬CopiesPlanes fmt (tight fmt frame) := by
  have haccepted : Accepted fmt := by
    rcases hfmt with rfl | rfl | rfl | rfl <;> decide
  have hw : 0 < frame.width.toNat :=
    Nat.pos_of_mul_pos_right (Nat.pos_of_ne_zero hpos)
  have hh : 0 < frame.height.toNat :=
    Nat.pos_of_mul_pos_left (Nat.pos_of_ne_zero hpos)
  have hwidth : frame.width.toNat ≤ frame.width.toNat * frame.height.toNat :=
    Nat.le_mul_of_pos_right _ hh
  rw [copiesPlanes_iff haccepted (show (tight fmt frame).frameSize > 0 from hsize),
    rowBytes_tight_packed hfmt hw (by omega)]
  intro hall
  have hplane := hall 0 (by decide)
  rw [copied_packed hfmt, planeSize_packed hfmt, Nat.mul_assoc] at hplane
  exact four_times_mod_ne hpos hlt hplane

/-- The decoder reads a stride for each plane, that of half a row for the chroma of I420. -/
theorem copyFrameD2H_tight
    (hfmt : frame.pformat = .nv12 ∨ frame.pformat = .nv21 ∨ frame.pformat = .i420)
    (hw : frame.width.toNat % 2 = 0)
    (hlt : frame.width.toNat * frame.height.toNat < 2 ^ 32) :
    ∀ plane < 3, bytesOf (copyFrameD2H (tight frame.pformat frame)) plane
      = planeSize frame.pformat frame.width.toNat frame.height.toNat plane := by
  have hhalf : frame.width.toNat * frame.height.toNat
      = 2 * (frame.width.toNat / 2 * frame.height.toNat) := by
    rw [← Nat.mul_assoc, Nat.mul_div_cancel' (Nat.dvd_of_mod_eq_zero hw)]
  have hpformat : (tight frame.pformat frame).pformat = frame.pformat := rfl
  have hheight : (tight frame.pformat frame).height = frame.height := rfl
  rw [forall_plane_iff]
  simp only [copyFrameD2H, hpformat, hheight]
  rcases hfmt with h | h | h <;> rw [h]
  · simp [bytesOf, planeSize, stride, tight, tightStrides]
    omega
  · simp [bytesOf, planeSize, stride, tight, tightStrides]
    omega
  · simp [bytesOf, planeSize, stride, tight, tightStrides, Nat.shiftRight_eq_div_pow]
    omega

/--
**By strides of rows without padding the same is copied as by the width, whole planes**, only of
frames without pixels, and of NV12 and NV21.
-/
theorem copyFrame_agrees_iff (fmt : PixelFmt) (frame : CnFrame) (hfmt : Accepted fmt)
    (hw : frame.width.toNat % 2 = 0) (hh : frame.height.toNat % 2 = 0) :
    CopiesPlanes fmt (tight fmt frame) ∧ CopiesPlanes fmt (strideless frame) ↔
      frame.width.toNat * frame.height.toNat = 0 ∨
      frame.frameSize > 0 ∧ (fmt = .nv12 ∨ fmt = .nv21) ∧
        frame.width.toNat * frame.height.toNat < 2 ^ 32 := by
  have h4 : frame.width.toNat * frame.height.toNat % 4 = 0 := by
    have hdvd := Nat.mul_dvd_mul (Nat.dvd_of_mod_eq_zero hw) (Nat.dvd_of_mod_eq_zero hh)
    exact Nat.mod_eq_zero_of_dvd hdvd
  by_cases hsize : frame.frameSize > 0
  · rw [copiesPlanes_strideless hfmt hsize h4]
    constructor
    · rintro ⟨htight, hlt⟩
      by_cases hpos : frame.width.toNat * frame.height.toNat = 0
      · exact Or.inl hpos
      · refine Or.inr ⟨hsize, ?_⟩
        cases fmt with
        | nv12 => exact ⟨Or.inl rfl, hlt⟩
        | nv21 => exact ⟨Or.inr rfl, hlt⟩
        | i420 => exact absurd htight (not_copiesPlanes_tight_i420 hsize hw h4 hpos hlt)
        | argb | abgr | bgra | rgba =>
          exact absurd htight (not_copiesPlanes_tight_packed (by decide) hsize hpos hlt)
        | _ => exact absurd hfmt (by decide)
    · rintro (hzero | ⟨-, hsemi, hlt⟩)
      · refine ⟨copiesPlanes_tight_zero hfmt hsize hzero, ?_⟩
        rw [← (planeSize_eq_zero_iff hfmt h4).mpr hzero 0 (by decide)]
        decide
      · have hluma : planeSize fmt frame.width.toNat frame.height.toNat 0
            = frame.width.toNat * frame.height.toNat := by
          rcases hsemi with rfl | rfl <;> rfl
        have hwhole : CopiesPlanes fmt (strideless frame) :=
          (copiesPlanes_strideless hfmt hsize h4).mpr (hluma ▸ hlt)
        exact ⟨(copiesPlanes_tight_semiplanar hsemi hsize).mpr hwhole, hluma ▸ hlt⟩
  · have hempty : frame.frameSize = 0 := by
      bv_omega
    have htight : CopiesPlanes fmt (tight fmt frame)
        ↔ frame.width.toNat * frame.height.toNat = 0 := copiesPlanes_empty hfmt hempty h4
    have hstrideless : CopiesPlanes fmt (strideless frame)
        ↔ frame.width.toNat * frame.height.toNat = 0 := copiesPlanes_empty hfmt hempty h4
    rw [htight, hstrideless]
    constructor
    · exact fun h => Or.inl h.1
    · rintro (hzero | hdata)
      · exact ⟨hzero, hzero⟩
      · exact absurd hdata.1 hsize

/-- A frame of four by four pixels in host memory. -/
def fourByFour (fmt : PixelFmt) : CnFrame where
  bufId := 0
  pts := 0
  height := 4
  width := 4
  frameSize := 64
  pformat := fmt
  colorStd := .ituBt709
  deviceId := 0
  channelId := 0
  nPlanes := fmt.planeNum
  strides := []
  ptrs := []

theorem copyFrame_agrees_four_by_four :
    CopiesPlanes .nv21 (tight .nv21 (fourByFour .nv21)) ∧
      CopiesPlanes .nv21 (strideless (fourByFour .nv21)) :=
  (copyFrame_agrees_iff .nv21 (fourByFour .nv21) (by decide) (by decide) (by decide)).mpr
    (Or.inr ⟨by decide, Or.inr rfl, by decide⟩)

/-- Half of the chroma of I420, and sixteen bytes for a pixel of four. -/
theorem strides_misread :
    (∃ copies, copyFrame .i420 (tight .i420 (fourByFour .i420)) = .ok copies ∧
      bytesOf copies 1 = 2 ∧ planeSize .i420 4 4 1 = 4) ∧
    (∃ copies, copyFrame .rgba (tight .rgba (fourByFour .rgba)) = .ok copies ∧
      bytesOf copies 0 = 256 ∧ planeSize .rgba 4 4 0 = 64) ∧
    ¬CopiesPlanes .i420 (tight .i420 (fourByFour .i420)) ∧
    ¬CopiesPlanes .rgba (tight .rgba (fourByFour .rgba)) := by
  have hi420 : copyFrame .i420 (tight .i420 (fourByFour .i420))
      = .ok [⟨0, 16⟩, ⟨1, 2⟩, ⟨2, 2⟩] := by
    decide
  have hrgba : copyFrame .rgba (tight .rgba (fourByFour .rgba)) = .ok [⟨0, 256⟩] := by
    decide
  refine ⟨⟨_, hi420, rfl, rfl⟩, ⟨_, hrgba, rfl, rfl⟩, ?_, ?_⟩
  · exact not_copiesPlanes_tight_i420 (by decide) (by decide) (by decide) (by decide) (by decide)
  · exact not_copiesPlanes_tight_packed (by decide) (by decide) (by decide) (by decide)

end CambriconGst.Easycodec
