import CambriconGst.Gst.CnconvertStages

/-!
# Strides in the converter

The stages take their strides from the width, or from what GStreamer says, which rounds up.

* `Cnconvert.strides_agree_iff`: when every stage reads the rows as they were written
* `Cnconvert.strides_drift`: pictures that are not a multiple of four wide
-/

namespace CambriconGst.Gst

theorem roundUp4_eq_iff {n : Nat} : roundUp4 n = n ↔ 4 ∣ n := by
  unfold roundUp4
  omega

/-- GStreamer pads the rows of an RGB picture exactly when it is not a multiple of four wide. -/
theorem VideoInfo.stride_eq_iff (info : VideoInfo) (h : info.format.isRGB = true) :
    info.stride 0 = info.width * info.format.channelNumPlane0 ↔
      (info.format.channelNumPlane0 = 3 → 4 ∣ info.width) := by
  unfold VideoInfo.stride
  cases hf : info.format with
  | nv12 | nv21 | i420 => simp [hf, VideoFormat.isRGB] at h
  | rgb | bgr =>
    simp only [VideoFormat.channelNumPlane0, if_true, roundUp4_eq_iff, true_imp_iff]
    omega
  | rgba | bgra | argb | abgr => simp [VideoFormat.channelNumPlane0]

theorem VideoFormat.planes_of_isRGB {f : VideoFormat} (h : f.isRGB = true) : f.planes = 1 := by
  cases f with
  | nv12 | nv21 | i420 => cases h
  | _ => rfl

namespace Cnconvert

variable {c : Conversion} {p : Conversion.Path} {written : Nat → Nat}

/--
Every stage reads the planes of its picture with the strides they were written with, the first of
them before the stages; the stride that is declared in the end is the one that was written last.
-/
def StridesAgree : List Stage → (Nat → Nat) → Nat → Prop
  | [], written, declared => declared = written 0
  | stage :: stages, written, declared =>
    (∀ p < stage.src.pixelFmt.planes, stage.src.stride p = written p) ∧
      StridesAgree stages stage.dst.stride declared

/--
The condition: the picture comes with the strides of its caps, or without padding where it is
converted only; and RGB pictures that are converted to are a multiple of four wide.
-/
structure Conversion.StridesFit (c : Conversion) (p : Path) (written : Nat → Nat) : Prop where
  input : if p = .cvtRgb then written 0 = c.sinkInfo.width * c.sinkInfo.format.channelNumPlane0
    else ∀ i < c.sinkInfo.format.planes, written i = c.sinkInfo.stride i
  output : p ≠ .resizeRgb → c.srcInfo.format.channelNumPlane0 = 3 → 4 ∣ c.srcInfo.width

namespace Conversion

theorem isRGB_of_disableResize (hc : c.Acceptable) (hr : c.disableResize = true)
    (hv : c.disableConvert = false) :
    c.sinkInfo.format.isRGB = true ∧ c.srcInfo.format.isRGB = true := by
  have hs := hc.2.2
  unfold supported at hs
  by_contra h
  have hor : c.sinkInfo.format.isRGB = false ∨ c.srcInfo.format.isRGB = false := by
    rw [not_and_or, Bool.not_eq_true, Bool.not_eq_true] at h
    exact h
  rw [if_pos ⟨hr, hv, hor⟩] at hs
  cases hs

/-- What is known of the caps on each path. -/
theorem path_spec (hc : c.Acceptable) (hp : c.path = some p) :
    match p with
    | .resizeRgb => c.sinkInfo.format = c.srcInfo.format
    | .cvtRgb => c.sinkInfo.format.isRGB = true ∧ c.srcInfo.format.isRGB = true ∧
        c.sinkInfo.width = c.srcInfo.width
    | .resizeConvert => c.srcInfo.format.isRGB = true
    | .resizeThenCvt => c.sinkInfo.format.isRGB = true ∧ c.srcInfo.format.isRGB = true := by
  unfold path at hp
  by_cases hv : c.disableConvert = true
  · rw [if_pos hv] at hp
    cases hp
    exact of_decide_eq_true hv
  rw [if_neg hv] at hp
  by_cases hr : c.disableResize = true
  · rw [if_pos hr] at hp
    cases hp
    obtain ⟨hsink, hsrc⟩ := isRGB_of_disableResize hc hr (Bool.of_not_eq_true hv)
    exact ⟨hsink, hsrc, (of_decide_eq_true hr).1⟩
  rw [if_neg hr] at hp
  by_cases hyuv : c.sinkInfo.format.isYUV420sp ∧ c.srcInfo.format.isRGB
  · rw [if_pos hyuv] at hp
    cases hp
    exact hyuv.2
  rw [if_neg hyuv] at hp
  obtain ⟨hrgb, hp⟩ := Option.ite_none_right_eq_some.mp hp
  cases hp
  exact hrgb

/-- The picture in the frame is declared as it was written. -/
theorem frameStride_eq_iff (h : c.srcInfo.format.isRGB = true) :
    c.frameStride = c.srcInfo.stride 0 ↔
      (c.srcInfo.format.channelNumPlane0 = 3 → 4 ∣ c.srcInfo.width) :=
  eq_comm.trans (c.srcInfo.stride_eq_iff h)

end Conversion

/--
**On every path that acceptable caps select, each stage reads the rows as they were written, and the
frame declares them so, exactly when the picture that comes and the one that is made have no
padding that a stage does not know of.**
-/
theorem strides_agree_iff (hc : c.Acceptable) (hp : c.path = some p) (written : Nat → Nat) :
    StridesAgree (c.stages p) written c.frameStride ↔ c.StridesFit p written := by
  have hspec := Conversion.path_spec hc hp
  have heq : ∀ {n : Nat} {f g : Nat → Nat}, (∀ i < n, f i = g i) ↔ ∀ i < n, g i = f i :=
    forall₂_congr fun _ _ => eq_comm
  cases p with
  | resizeRgb =>
    have hout : c.frameStride = c.resizeRgb.dst.stride 0 := by
      unfold Conversion.frameStride
      rw [← hspec]
      rfl
    constructor
    · exact fun ⟨hin, _⟩ => ⟨heq.mp hin, fun hne => absurd rfl hne⟩
    · exact fun h => ⟨heq.mp h.input, hout⟩
  | cvtRgb =>
    obtain ⟨hsink, hsrc, hw⟩ := hspec
    have hsrcStride : c.cvtRgb.src.stride 0
        = c.sinkInfo.width * c.sinkInfo.format.channelNumPlane0 := by
      rw [hw]
      rfl
    have hplanes : c.cvtRgb.src.pixelFmt.planes = 1 := VideoFormat.planes_of_isRGB hsink
    constructor
    · intro ⟨hin, hout⟩
      have h₀ := hin 0 (hplanes ▸ Nat.one_pos)
      exact ⟨h₀.symm.trans hsrcStride, fun _ => (Conversion.frameStride_eq_iff hsrc).mp hout⟩
    · intro h
      refine ⟨fun i hi => ?_, (Conversion.frameStride_eq_iff hsrc).mpr (h.output nofun)⟩
      obtain rfl := Nat.lt_one_iff.mp (hplanes ▸ hi)
      exact hsrcStride.trans h.input.symm
  | resizeConvert =>
    constructor
    · exact fun ⟨hin, hout⟩ => ⟨heq.mp hin, fun _ => (Conversion.frameStride_eq_iff hspec).mp hout⟩
    · exact fun h => ⟨heq.mp h.input, (Conversion.frameStride_eq_iff hspec).mpr (h.output nofun)⟩
  | resizeThenCvt =>
    obtain ⟨hsink, hsrc⟩ := hspec
    constructor
    · exact fun ⟨hin, _, hout⟩ =>
        ⟨heq.mp hin, fun _ => (Conversion.frameStride_eq_iff hsrc).mp hout⟩
    · exact fun h => ⟨heq.mp h.input, fun _ _ => rfl,
        (Conversion.frameStride_eq_iff hsrc).mpr (h.output nofun)⟩

/-- Pictures of one kind of RGB that are turned into another, with rows of 6 pixels. -/
def sixWide : Conversion where
  sinkInfo :=
    { format := .rgb, width := 6, height := 6, width_pos := by decide, height_pos := by decide }
  srcInfo :=
    { format := .bgr, width := 6, height := 6, width_pos := by decide, height_pos := by decide }
  inputOnMlu := true
  outputOnMlu := true

theorem strides_agree_iff_sample :
    StridesAgree (sixWide.stages .cvtRgb) sixWide.sinkInfo.stride sixWide.frameStride ↔
      sixWide.StridesFit .cvtRgb sixWide.sinkInfo.stride :=
  strides_agree_iff (by decide) rfl _

/-- They come in rows of 20 bytes, are read in rows of 18, written in rows of 20, and declared in
rows of 18. -/
theorem strides_drift :
    sixWide.Acceptable ∧ sixWide.path = some .cvtRgb ∧ sixWide.sinkInfo.stride 0 = 20 ∧
      sixWide.cvtRgb.src.stride 0 = 18 ∧ sixWide.cvtRgb.dst.stride 0 = 20 ∧
      sixWide.frameStride = 18 ∧
      ¬StridesAgree (sixWide.stages .cvtRgb) sixWide.sinkInfo.stride sixWide.frameStride := by
  refine ⟨by decide, rfl, rfl, rfl, rfl, rfl, fun h => ?_⟩
  have hout : sixWide.frameStride = sixWide.cvtRgb.dst.stride 0 := h.2
  exact absurd hout (by decide)

end Cnconvert

end CambriconGst.Gst
