import CambriconGst.Gst.CnvideoencUpload
import Mathlib.Tactic.Ring
import Mathlib.Algebra.Group.Nat.Even

/-!
# Strides in the upload of the video encoder element

The bytes of a plane are copied without a look at its stride, and RGB pictures are converted to rows
without padding, but the stride that is declared is that of the picture. Their number is counted in
the type `gint`.

* `CnvideoencUpload.RgbxToRgbx.WritesWithStride`: what is assumed of the conversion
* `CnvideoencUpload.upload_respects_stride_iff`: when the codec finds every pixel where it looks
* `CnvideoencUpload.padding_not_copied`: a picture with padding
-/

namespace CambriconGst.Gst.CnvideoencUpload

/-! ## What is assumed -/

/-- Pictures of one size, whose rows have room for their pixels. -/
structure Convertible (src dst : ImageDescriptor) : Prop where
  width : src.width = dst.width
  height : src.height = dst.height
  srcStride : src.width * 3 ≤ src.stride 0
  dstStride : dst.width * 4 ≤ dst.stride 0

/--
The conversion makes a pixel of each pixel, writes it with the stride in the descriptor of the
destination, and writes nothing behind the last row. Of the pixel only the red channel matters here.
-/
structure RgbxToRgbx.WritesWithStride (cncvRgbxToRgbx : RgbxToRgbx)
    (pixel : VideoFormat → (Fin 3 → UInt8) → Fin 4 → UInt8) : Prop where
  red : ∀ format p, pixel format p 0 = p (if format = .bgr then 2 else 0)
  succeeds : ∀ {src data dst buffer}, Convertible src dst →
    (cncvRgbxToRgbx src data dst buffer).isSome
  written : ∀ {src data dst buffer out}, Convertible src dst →
    cncvRgbxToRgbx src data dst buffer = some out →
    ∀ r < dst.height, ∀ c < dst.width, ∀ k : Fin 4, out (r * dst.stride 0 + 4 * c + k)
      = pixel src.pixelFmt (fun j => data (r * src.stride 0 + 3 * c + j)) k
  kept : ∀ {src data dst buffer out}, Convertible src dst →
    cncvRgbxToRgbx src data dst buffer = some out →
    ∀ i, dst.height * dst.stride 0 ≤ i → out i = buffer i

variable {cncvRgbxToRgbx : RgbxToRgbx} {pixel : VideoFormat → (Fin 3 → UInt8) → Fin 4 → UInt8}
  {info : VideoInfo} {stride : Nat → Nat}

/-- The picture is converted. -/
def Converts (info : VideoInfo) : Prop :=
  info.format = .rgb ∨ info.format = .bgr

instance (info : VideoInfo) : Decidable (Converts info) := by
  unfold Converts
  infer_instance

/-- Every pixel lies where the stride declared for its plane says. -/
def RespectsStride (pixel : VideoFormat → (Fin 3 → UInt8) → Fin 4 → UInt8) (frame : VideoFrame)
    (out : CncodecFrame) : Prop :=
  if Converts frame.info then
    ∀ r < frame.info.height, ∀ c < frame.info.width, ∀ k : Fin 4,
      out.plane 0 (r * out.stride 0 + 4 * c + k) =
        pixel frame.info.format (fun j => frame.data 0 (r * frame.stride 0 + 3 * c + j)) k
  else
    ∀ p < frame.info.format.planes, ∀ r < frame.info.rows p, ∀ c < frame.info.rowBytes p,
      out.plane p (r * out.stride p + c) = frame.data p (r * frame.stride p + c)

/-- When the buffer is filled, then with every pixel in its place. -/
def UploadRight (pixel : VideoFormat → (Fin 3 → UInt8) → Fin 4 → UInt8) (frame : VideoFrame) :
    Except Fault CncodecFrame → Prop
  | .ok out => RespectsStride pixel frame out
  | .error .failed => True
  | .error .overflow => False

/--
The condition on the strides: planes that are copied have no padding, unless they have one row; RGB
pictures have the stride of their caps, and it is the one of the pixels they are converted to.
-/
def StridesFit (info : VideoInfo) (stride : Nat → Nat) : Prop :=
  if Converts info then stride 0 = info.width * 4 ∧ info.stride 0 = stride 0
  else ∀ p < info.format.planes, info.rows p = 1 ∨ stride p = info.rowBytes p

/-- The condition on the size: the bytes of the first plane are fewer than 2^31. -/
def BytesFit (info : VideoInfo) (stride : Nat → Nat) : Prop :=
  if Converts info then stride 0 * info.height < 2 ^ 31
  else info.width * info.height * info.format.channelNumPlane0 < 2 ^ 31

theorem index_lt {rows bytes r c : Nat} (hr : r < rows) (hc : c < bytes) :
    r * bytes + c < rows * bytes :=
  calc
    r * bytes + c < r * bytes + bytes := Nat.add_lt_add_left hc _
    _ = (r + 1) * bytes := (Nat.succ_mul r bytes).symm
    _ ≤ rows * bytes := Nat.mul_le_mul_right _ hr

/-- The last byte of rows that are padded lies beyond as many rows without padding. -/
theorem le_last {rows bytes stride : Nat} (hr : 1 < rows) (hb : 0 < bytes) (hs : bytes < stride) :
    rows * bytes ≤ (rows - 1) * stride + (bytes - 1) := by
  obtain ⟨n, rfl⟩ : ∃ n, rows = n + 2 := ⟨rows - 2, by omega⟩
  obtain ⟨b, rfl⟩ : ∃ b, bytes = b + 1 := ⟨bytes - 1, by omega⟩
  calc
    (n + 2) * (b + 1) ≤ (n + 1) * (b + 2) + b := by
      ring_nf
      omega
    _ ≤ (n + 1) * stride + b := Nat.add_le_add_right (Nat.mul_le_mul_left _ hs) b

/-! ## Planes that are copied -/

theorem memcpyH2D_of_eq {dst src : Nat → UInt8} {n i : Nat} {b : UInt8} (hd : dst i = b)
    (hs : src i = b) : memcpyH2D dst src n i = b := by
  unfold memcpyH2D
  rw [hd, hs, ite_self]

/-- A copy of as many bytes as are visible copies the visible ones when there is no padding. -/
theorem memcpyH2D_rows_iff {rows bytes stride : Nat} (hr : 0 < rows) (hb : 0 < bytes)
    (hs : bytes ≤ stride) :
    (∀ dst src : Nat → UInt8, ∀ r < rows, ∀ c < bytes,
      memcpyH2D dst src (rows * bytes) (r * stride + c) = src (r * stride + c)) ↔
      rows = 1 ∨ stride = bytes := by
  constructor
  · intro h
    by_contra hne
    obtain ⟨hrows, hstride⟩ := not_or.mp hne
    have hlast := h (fun _ => 1) (fun _ => 0) (rows - 1) (by omega) (bytes - 1) (by omega)
    have hone : 1 < rows := by omega
    have hle := le_last hone hb (Nat.lt_of_le_of_ne hs (Ne.symm hstride))
    rw [memcpyH2D, if_neg (Nat.not_lt.mpr hle)] at hlast
    cases hlast
  · rintro h dst src r hlt c hc
    unfold memcpyH2D
    refine if_pos ?_
    rcases h with rfl | rfl
    · obtain rfl := Nat.lt_one_iff.mp hlt
      simpa using hc
    · exact index_lt hlt hc

theorem shiftRight_one {w h : Nat} (hh : Even h) : (w * h) >>> 1 = h / 2 * w := by
  obtain ⟨m, rfl⟩ := hh.two_dvd
  rw [Nat.shiftRight_eq_div_pow, Nat.mul_div_cancel_left _ Nat.two_pos, Nat.mul_left_comm,
    pow_one, Nat.mul_div_cancel_left _ Nat.two_pos, Nat.mul_comm]

theorem shiftRight_two {w h : Nat} (hw : Even w) (hh : Even h) :
    (w * h) >>> 2 = h / 2 * (w / 2) := by
  obtain ⟨n, rfl⟩ := hw.two_dvd
  rw [Nat.shiftRight_add _ 1 1, shiftRight_one hh, Nat.shiftRight_eq_div_pow, pow_one,
    Nat.mul_left_comm, Nat.mul_div_cancel_left _ Nat.two_pos, Nat.mul_div_cancel_left _ Nat.two_pos]

theorem checkedInt_of_lt {n : Nat} (h : n < 2 ^ 31) : checkedInt n = .ok n :=
  if_pos h

theorem checkedInt_of_le {n : Nat} (h : 2 ^ 31 ≤ n) : checkedInt n = .error .overflow :=
  if_neg (Nat.not_lt.mpr h)

/-- `copy_frame` copies as many bytes as are visible. -/
theorem copySizes_eq (hw : Even info.width) (hh : Even info.height) (hc : ¬Converts info)
    (hlt : info.width * info.height * info.format.channelNumPlane0 < 2 ^ 31) :
    ∃ sizes, copySizes (pixelFormatCast info.format) (info.width * info.height) = .ok sizes ∧
      ∀ p < info.format.planes, sizes p = info.rows p * info.rowBytes p := by
  unfold Converts at hc
  unfold VideoInfo.rows VideoInfo.rowBytes
  cases hf : info.format with
  | rgb | bgr => simp [hf] at hc
  | nv12 | nv21 =>
    refine ⟨_, rfl, fun p hp => ?_⟩
    match p, hp with
    | 0, _ => exact Nat.mul_comm _ _
    | 1, _ => exact shiftRight_one hh
  | i420 =>
    refine ⟨_, rfl, fun p hp => ?_⟩
    match p, hp with
    | 0, _ => exact Nat.mul_comm _ _
    | 1, _ | 2, _ => exact shiftRight_two hw hh
  | rgba | bgra | argb | abgr =>
    rw [hf] at hlt
    have hshift : (info.width * info.height) <<< 2 < 2 ^ 31 := by rwa [Nat.shiftLeft_eq]
    refine ⟨fun p => if p = 0 then (info.width * info.height) <<< 2 else 0, ?_, fun p hp => ?_⟩
    · simp only [copySizes, pixelFormatCast, checkedInt_of_lt hshift]
      rfl
    · obtain rfl := Nat.lt_one_iff.mp hp
      simp only [if_true, Nat.shiftLeft_eq]
      ring

theorem copySizes_overflow (hc : ¬Converts info) (hlt : info.width * info.height < 2 ^ 31)
    (hle : 2 ^ 31 ≤ info.width * info.height * info.format.channelNumPlane0) :
    copySizes (pixelFormatCast info.format) (info.width * info.height) = .error .overflow := by
  unfold Converts at hc
  cases hf : info.format with
  | rgb | bgr => simp [hf] at hc
  | nv12 | nv21 | i420 =>
    rw [hf, VideoFormat.channelNumPlane0, Nat.mul_one] at hle
    exact absurd hlt (Nat.not_lt.mpr hle)
  | rgba | bgra | argb | abgr =>
    rw [hf] at hle
    have hshift : 2 ^ 31 ≤ (info.width * info.height) <<< 2 := by rwa [Nat.shiftLeft_eq]
    simp only [copySizes, pixelFormatCast, checkedInt_of_le hshift]
    rfl

/-- Too many bytes for the type `gint`. -/
theorem copyFrame_overflow (hc : ¬Converts info)
    (hle : 2 ^ 31 ≤ info.width * info.height * info.format.channelNumPlane0)
    (input : CncodecFrame) (data : Nat → Nat → UInt8) :
    copyFrame (pixelFormatCast info.format) input ⟨info, stride, data⟩ = .error .overflow := by
  unfold copyFrame
  dsimp only
  rcases Nat.lt_or_ge (info.width * info.height) (2 ^ 31) with hlt | hge
  · rw [checkedInt_of_lt hlt]
    change (copySizes _ (info.width * info.height) >>= _) = _
    rw [copySizes_overflow hc hlt hle]
    rfl
  · rw [checkedInt_of_le hge]
    rfl

/-- The planes are copied, as many bytes of each as are visible. -/
theorem copyFrame_eq (hw : Even info.width) (hh : Even info.height) (hc : ¬Converts info)
    (hlt : info.width * info.height * info.format.channelNumPlane0 < 2 ^ 31)
    (input : CncodecFrame) (data : Nat → Nat → UInt8) :
    ∃ sizes : Nat → Nat, copyFrame (pixelFormatCast info.format) input ⟨info, stride, data⟩
        = .ok { input with plane := fun p => memcpyH2D (input.plane p) (data p) (sizes p) } ∧
      ∀ p < info.format.planes, sizes p = info.rows p * info.rowBytes p := by
  obtain ⟨sizes, hsizes, heq⟩ := copySizes_eq hw hh hc hlt
  refine ⟨sizes, ?_, heq⟩
  have hpos : 0 < info.format.channelNumPlane0 := by cases info.format <;> decide
  have hle := Nat.le_mul_of_pos_right (info.width * info.height) hpos
  unfold copyFrame
  dsimp only
  rw [checkedInt_of_lt (by omega)]
  change (copySizes _ (info.width * info.height) >>= _) = _
  rw [hsizes]
  rfl

theorem rowBytes_pos (hw : Even info.width) (p : Nat) : 0 < info.rowBytes p := by
  have hpos := info.width_pos
  obtain ⟨n, hn⟩ := hw.two_dvd
  unfold VideoInfo.rowBytes
  split
  · exact hpos
  · exact hpos
  · split <;> omega
  all_goals omega

theorem rows_pos (hh : Even info.height) (p : Nat) : 0 < info.rows p := by
  have hpos := info.height_pos
  obtain ⟨n, hn⟩ := hh.two_dvd
  unfold VideoInfo.rows
  split <;> omega

/-! ## Pictures that are converted -/

/-- What `rgb2rgba` makes of what is in the memory for RGB pictures. -/
structure Converted (pixel : VideoFormat → (Fin 3 → UInt8) → Fin 4 → UInt8) (info : VideoInfo)
    (src buffer out : Nat → UInt8) : Prop where
  written : ∀ r < info.height, ∀ c < info.width, ∀ k : Fin 4,
    out (r * (info.width * 4) + 4 * c + k)
      = pixel info.format (fun j => src (r * info.stride 0 + 3 * c + j)) k
  kept : ∀ i, info.height * (info.width * 4) ≤ i → out i = buffer i

theorem convertible (hc : Converts info) :
    Convertible (videoInfoToDesc info) (rgbaDesc (videoInfoToDesc info)) where
  width := rfl
  height := rfl
  srcStride := by
    change info.width * 3 ≤ info.stride 0
    unfold VideoInfo.stride roundUp4
    rcases hc with hf | hf <;> rw [hf] <;> dsimp only <;> rw [if_pos rfl] <;> omega
  dstStride := Nat.le_refl _

/-- RGB pictures are converted, row by row without padding. -/
theorem rgb2rgba_spec (hcncv : cncvRgbxToRgbx.WritesWithStride pixel) (hc : Converts info)
    (src : Nat → UInt8) (dst : CncodecFrame) :
    ∃ bytes, rgb2rgba cncvRgbxToRgbx info src dst
        = .ok { dst with plane := fun p => if p = 0 then bytes else dst.plane p } ∧
      Converted pixel info src (dst.plane 0) bytes := by
  have hconv := convertible hc
  have hsome : (cncvRgbxToRgbx (videoInfoToDesc info) src (rgbaDesc (videoInfoToDesc info))
      (dst.plane 0)).isSome := hcncv.succeeds hconv
  obtain ⟨bytes, hbytes⟩ := Option.isSome_iff_exists.mp hsome
  refine ⟨bytes, ?_, hcncv.written hconv hbytes, hcncv.kept hconv hbytes⟩
  simp only [rgb2rgba, hbytes]

/-- The pixels are found with the stride `s`. -/
def PixelsFound (pixel : VideoFormat → (Fin 3 → UInt8) → Fin 4 → UInt8) (info : VideoInfo) (s : Nat)
    (data out : Nat → UInt8) : Prop :=
  ∀ r < info.height, ∀ c < info.width, ∀ k : Fin 4, out (r * s + 4 * c + k)
    = pixel info.format (fun j => data (r * s + 3 * c + j)) k

section Found

variable {s : Nat} {data tmp buffer out : Nat → UInt8}

theorem pixelsFound (hs : s = info.width * 4) (hi : info.stride 0 = s)
    (h : Converted pixel info (memcpyH2D tmp data (s * info.height)) buffer out) :
    PixelsFound pixel info s data out := by
  intro r hr c hc k
  have hwritten := h.written r hr c hc k
  rw [← hs, hi] at hwritten
  rw [hwritten]
  refine congrFun (congrArg _ (funext fun j => if_pos ?_)) k
  have hcol : 3 * c + j < s := by omega
  rw [Nat.add_assoc, Nat.mul_comm s]
  exact index_lt hr hcol

/-- Rows that are longer than those of the codec's picture: its last pixel lies beyond the end. -/
theorem not_pixelsFound_of_lt (hh : 1 < info.height) (hs : info.width * 4 < s)
    (h : Converted pixel info (memcpyH2D tmp (fun _ => 0) (s * info.height))
      (fun _ => pixel info.format (fun _ => 0) 3 + 1) out) :
    ¬PixelsFound pixel info s (fun _ => 0) out := by
  intro hfound
  have hw := info.width_pos
  have hlast := hfound (info.height - 1) (by omega) (info.width - 1) (by omega) 3
  have hle := le_last hh (by omega) hs
  have hindex : (info.height - 1) * s + 4 * (info.width - 1) + (3 : Fin 4)
      = (info.height - 1) * s + (info.width * 4 - 1) := by
    change (info.height - 1) * s + 4 * (info.width - 1) + 3 = _
    omega
  rw [hindex, h.kept _ hle] at hlast
  simp at hlast

/-- Rows that are shorter: the second one is looked for in the first. -/
theorem not_pixelsFound_of_gt (hred : pixel info.format (fun j => data (1 * s + 3 * 0 + j)) 0
      = pixel info.format (fun _ => 0) (Fin.ofNat 4 s) + 1)
    (hdata : ∀ i < s, data i = 0) (hh : 1 < info.height) (hs : s < info.width * 4)
    (h3 : info.width * 3 ≤ s)
    (h : Converted pixel info (memcpyH2D (fun _ => 0) data (s * info.height)) buffer out) :
    ¬PixelsFound pixel info s data out := by
  intro hfound
  have hwanted := hfound 1 hh 0 info.width_pos 0
  have hpos : 1 * s + 4 * 0 + ((0 : Fin 4) : Nat)
      = 0 * (info.width * 4) + 4 * (s / 4) + (Fin.ofNat 4 s : Fin 4) := by
    rw [Fin.val_ofNat]
    change 1 * s + 4 * 0 + 0 = _
    omega
  have hzero : (fun j : Fin 3 => memcpyH2D (fun _ => 0) data (s * info.height)
      (0 * info.stride 0 + 3 * (s / 4) + j)) = fun _ => 0 := by
    funext j
    exact memcpyH2D_of_eq rfl (hdata _ (by omega))
  rw [hpos, h.written 0 (by omega) (s / 4) (by omega), hzero, hred] at hwanted
  simp at hwanted

/-- The picture is read with another stride than it was copied with. -/
theorem not_pixelsFound_of_ne {q : Fin 3} (hred : ∀ p, pixel info.format p 0 = p q)
    (hh : 1 < info.height) (hs : s = info.width * 4) (hi : info.stride 0 ≠ s)
    (h : Converted pixel info
      (memcpyH2D (fun _ => 0) (fun i => if i = s + q then 1 else 0) (s * info.height)) buffer out) :
    ¬PixelsFound pixel info s (fun i => if i = s + q then 1 else 0) out := by
  intro hfound
  have hwanted := hfound 1 hh 0 info.width_pos 0
  have hwritten := h.written 1 hh 0 info.width_pos 0
  rw [hred, memcpyH2D_of_eq rfl (if_neg (by omega)), ← hs] at hwritten
  rw [hwritten, hred] at hwanted
  have hone : (if 1 * s + 3 * 0 + (q : Nat) = s + q then (1 : UInt8) else 0) = 1 :=
    if_pos (by omega)
  exact absurd (hwanted.trans hone) (by decide)

end Found

/-- Pixels that are found whatever the picture and the buffers hold. -/
theorem strides_of_pixelsFound
    (hred : ∀ p, pixel info.format p 0 = p (if info.format = .bgr then 2 else 0)) {s : Nat}
    (hh : 1 < info.height) (h3 : info.width * 3 ≤ s)
    (h : ∀ data tmp buffer, ∃ out,
      Converted pixel info (memcpyH2D tmp data (s * info.height)) buffer out ∧
        PixelsFound pixel info s data out) : s = info.width * 4 ∧ info.stride 0 = s := by
  obtain ⟨q, hq⟩ : ∃ q : Fin 3, q = if info.format = .bgr then 2 else 0 := ⟨_, rfl⟩
  rw [← hq] at hred
  rcases Nat.lt_trichotomy s (info.width * 4) with hs | hs | hs
  · obtain ⟨b, hb⟩ : ∃ b, b = pixel info.format (fun _ => 0) (Fin.ofNat 4 s) + 1 := ⟨_, rfl⟩
    obtain ⟨data, hdata⟩ : ∃ data : Nat → UInt8, data = fun i => if s ≤ i then b else 0 := ⟨_, rfl⟩
    obtain ⟨out, hout, hfound⟩ := h data (fun _ => 0) fun _ => 0
    refine absurd hfound (not_pixelsFound_of_gt ?_ (fun i hi => ?_) hh hs h3 hout)
    · rw [hred, hdata, ← hb]
      exact if_pos (by omega)
    · rw [hdata]
      exact if_neg (by omega)
  · refine ⟨hs, by_contra fun hi => ?_⟩
    obtain ⟨out, hout, hfound⟩ := h (fun i => if i = s + q then 1 else 0) (fun _ => 0) fun _ => 0
    exact not_pixelsFound_of_ne hred hh hs hi hout hfound
  · obtain ⟨out, hout, hfound⟩ := h (fun _ => 0) (fun _ => 0)
      fun _ => pixel info.format (fun _ => 0) 3 + 1
    exact absurd hfound (not_pixelsFound_of_lt hh hs hout)

/-! ## Both -/

/-- What `encode_frame` sets in the frame that it feeds. -/
def declared (info : VideoInfo) (stride : Nat → Nat) (input : CncodecFrame) : CncodecFrame :=
  { input with
    pixelFmt := pixelFormatCast info.format
    width := info.width
    height := info.height
    stride := fun p => if p < info.format.planes then stride p else input.stride p }

section Both

variable {data : Nat → Nat → UInt8} {tmp : Nat → UInt8} {input : CncodecFrame}

theorem encodeFrame_converts (hc : Converts info) :
    encodeFrame cncvRgbxToRgbx tmp input ⟨info, stride, data⟩ = (do
      let frameSize ← checkedInt (stride 0 * info.height)
      let out ← rgb2rgba cncvRgbxToRgbx info (memcpyH2D tmp (data 0) frameSize) input
      return declared info stride out) := by
  have hc' : info.format = .rgb ∨ info.format = .bgr := hc
  unfold encodeFrame
  dsimp only
  rw [if_pos hc']
  cases checkedInt (stride 0 * info.height) <;> rfl

theorem encodeFrame_copies (hc : ¬Converts info) :
    encodeFrame cncvRgbxToRgbx tmp input ⟨info, stride, data⟩ = (do
      let out ← copyFrame (pixelFormatCast info.format) input ⟨info, stride, data⟩
      return declared info stride out) := by
  have hc' : ¬(info.format = .rgb ∨ info.format = .bgr) := hc
  unfold encodeFrame
  dsimp only
  rw [if_neg hc']
  rfl

/-- RGB pictures: the codec finds what the conversion wrote. -/
theorem uploadRight_converts (hcncv : cncvRgbxToRgbx.WritesWithStride pixel) (hc : Converts info)
    (hlt : stride 0 * info.height < 2 ^ 31) :
    ∃ out, Converted pixel info (memcpyH2D tmp (data 0) (stride 0 * info.height)) (input.plane 0) out ∧
      (UploadRight pixel ⟨info, stride, data⟩
        (encodeFrame cncvRgbxToRgbx tmp input ⟨info, stride, data⟩) ↔
          PixelsFound pixel info (stride 0) (data 0) out) := by
  have hplanes : 0 < info.format.planes := by cases info.format <;> decide
  obtain ⟨out, hok, hout⟩ := rgb2rgba_spec hcncv hc
    (memcpyH2D tmp (data 0) (stride 0 * info.height)) input
  refine ⟨out, hout, ?_⟩
  rw [encodeFrame_converts hc, checkedInt_of_lt hlt]
  change UploadRight _ _ (rgb2rgba _ _ _ _ >>= _) ↔ _
  rw [hok]
  change RespectsStride _ _ _ ↔ _
  unfold RespectsStride PixelsFound declared
  simp only [if_pos hc, if_pos hplanes, if_true]

/-- The other formats: the codec finds what was copied. -/
theorem uploadRight_copies (hw : Even info.width) (hh : Even info.height) (hc : ¬Converts info)
    (hlt : info.width * info.height * info.format.channelNumPlane0 < 2 ^ 31) :
    UploadRight pixel ⟨info, stride, data⟩
        (encodeFrame cncvRgbxToRgbx tmp input ⟨info, stride, data⟩) ↔
      ∀ p < info.format.planes, ∀ r < info.rows p, ∀ c < info.rowBytes p,
        memcpyH2D (input.plane p) (data p) (info.rows p * info.rowBytes p) (r * stride p + c) =
          data p (r * stride p + c) := by
  obtain ⟨sizes, hok, heq⟩ := @copyFrame_eq _ stride hw hh hc hlt input data
  rw [encodeFrame_copies hc, hok]
  change RespectsStride _ _ _ ↔ _
  unfold RespectsStride declared
  rw [if_neg hc]
  refine forall₂_congr fun p hp => ?_
  simp only [if_pos hp, heq p hp]

theorem not_uploadRight_of_overflow (h : ¬BytesFit info stride) :
    ¬UploadRight pixel ⟨info, stride, data⟩
      (encodeFrame cncvRgbxToRgbx tmp input ⟨info, stride, data⟩) := by
  unfold BytesFit at h
  by_cases hc : Converts info
  · rw [if_pos hc, not_lt] at h
    rw [encodeFrame_converts hc, checkedInt_of_le h]
    exact id
  · rw [if_neg hc, not_lt] at h
    rw [encodeFrame_copies hc, copyFrame_overflow hc h]
    exact id

end Both

/--
**Whatever the picture and the buffers hold, the codec finds every pixel at the stride that is
declared to it, exactly when the bytes of the first plane are fewer than 2^31, the planes that are
copied have no padding, and those that are converted have that of four bytes for each pixel.**
-/
theorem upload_respects_stride_iff (cncvRgbxToRgbx : RgbxToRgbx)
    (pixel : VideoFormat → (Fin 3 → UInt8) → Fin 4 → UInt8)
    (hcncv : cncvRgbxToRgbx.WritesWithStride pixel) (info : VideoInfo) (stride : Nat → Nat)
    (hw : Even info.width) (hh : Even info.height)
    (hs : ∀ p < info.format.planes, info.rowBytes p ≤ stride p) :
    (∀ data tmp input, UploadRight pixel ⟨info, stride, data⟩
      (encodeFrame cncvRgbxToRgbx tmp input ⟨info, stride, data⟩)) ↔
      StridesFit info stride ∧ BytesFit info stride := by
  by_cases hfit : BytesFit info stride
  case neg =>
    refine iff_of_false (fun h => ?_) fun h => hfit h.2
    exact not_uploadRight_of_overflow hfit (h (fun _ _ => 0) (fun _ => 0)
      { pixelFmt := .rgba, width := 0, height := 0, stride := fun _ => 0, plane := fun _ _ => 0 })
  rw [and_iff_left hfit]
  unfold BytesFit at hfit
  unfold StridesFit
  by_cases hc : Converts info
  · rw [if_pos hc] at hfit ⊢
    have hheight : 1 < info.height := by
      have hpos := info.height_pos
      obtain ⟨n, hn⟩ := hh.two_dvd
      omega
    have h3 : info.width * 3 ≤ stride 0 := by
      have hrow := hs 0 (by cases info.format <;> decide)
      unfold VideoInfo.rowBytes at hrow
      rcases hc with hf | hf
      all_goals
        rw [hf] at hrow
        exact hrow
    constructor
    · intro h
      refine strides_of_pixelsFound (hcncv.red _) hheight h3 fun data tmp buffer => ?_
      let input : CncodecFrame :=
        { pixelFmt := .rgba, width := 0, height := 0, stride := fun _ => 0, plane := fun _ => buffer }
      obtain ⟨out, hout, hiff⟩ :=
        @uploadRight_converts _ _ _ stride (fun _ => data) tmp input hcncv hc hfit
      exact ⟨out, hout, hiff.mp (h _ tmp input)⟩
    · intro h data tmp input
      obtain ⟨out, hout, hiff⟩ :=
        @uploadRight_converts _ _ _ stride data tmp input hcncv hc hfit
      exact hiff.mpr (pixelsFound h.1 h.2 hout)
  · rw [if_neg hc] at hfit ⊢
    have hrows p hp := memcpyH2D_rows_iff (rows_pos hh p) (rowBytes_pos hw p) (hs p hp)
    constructor
    · intro h p hp
      refine (hrows p hp).mp fun dst src => ?_
      have hcopies := (uploadRight_copies hw hh hc hfit).mp (h (fun _ => src) (fun _ => 0)
        { pixelFmt := .rgba, width := 0, height := 0, stride := fun _ => 0, plane := fun _ => dst })
      exact hcopies p hp
    · intro h data tmp input
      exact (uploadRight_copies hw hh hc hfit).mpr fun p hp => (hrows p hp).mpr (h p hp) _ _

/-! ## A conversion, and pictures -/

/-- An opaque RGBA pixel. -/
def opaquePixel (format : VideoFormat) (p : Fin 3 → UInt8) (k : Fin 4) : UInt8 :=
  if k.val = 3 then .ofNat 255
  else if format = .bgr then p ⟨2 - k.val, Nat.lt_succ_of_le (Nat.sub_le 2 k.val)⟩
  else p ⟨k.val % 3, Nat.mod_lt k.val (Nat.succ_pos 2)⟩

/-- A conversion that never fails. -/
def convertRows : RgbxToRgbx := fun src data dst buffer =>
  some fun i =>
    let r := i / dst.stride 0
    let c := i % dst.stride 0
    if r < dst.height ∧ c < dst.width * 4 then
      opaquePixel src.pixelFmt (fun j => data (r * src.stride 0 + 3 * (c / 4) + j))
        ⟨c % 4, Nat.mod_lt c (Nat.succ_pos 3)⟩
    else buffer i

theorem convertRows_writesWithStride : convertRows.WritesWithStride opaquePixel where
  red format p := by
    rw [opaquePixel, if_neg (by decide)]
    split_ifs <;> rfl
  succeeds _ := rfl
  written := by
    intro src data dst buffer out h hout r hr c hc k
    have hstride := h.dstStride
    have hcol : 4 * c + (k : Nat) < dst.stride 0 := by omega
    have hdiv : (r * dst.stride 0 + (4 * c + k)) / dst.stride 0 = r := by
      rw [Nat.mul_comm r, Nat.mul_add_div (by omega), Nat.div_eq_of_lt hcol, Nat.add_zero]
    have hmod : (r * dst.stride 0 + (4 * c + k)) % dst.stride 0 = 4 * c + k := by
      rw [Nat.mul_comm r, Nat.mul_add_mod, Nat.mod_eq_of_lt hcol]
    have hin : 4 * c + (k : Nat) < dst.width * 4 := by omega
    have hpixel : (4 * c + (k : Nat)) / 4 = c := by omega
    have hchannel : (4 * c + (k : Nat)) % 4 = k := by omega
    obtain rfl := Option.some.inj hout
    rw [Nat.add_assoc]
    simp only [hdiv, hmod, hpixel, hchannel, if_pos (And.intro hr hin)]
  kept := by
    intro src data dst buffer out h hout i hi
    obtain rfl := Option.some.inj hout
    refine if_neg fun hin => ?_
    rcases Nat.eq_zero_or_pos (dst.stride 0) with hzero | hpos
    · have hstride := h.dstStride
      omega
    · have hle := (Nat.le_div_iff_mul_le hpos).mpr hi
      omega

/-- A picture 6 wide and 4 high. -/
def sixWide (format : VideoFormat) : VideoInfo where
  format := format
  width := 6
  height := 4
  width_pos := Nat.succ_pos 5
  height_pos := Nat.succ_pos 3

theorem upload_respects_stride_iff_sample :
    (∀ data tmp input, UploadRight opaquePixel ⟨sixWide .nv12, fun _ => 6, data⟩
      (encodeFrame convertRows tmp input ⟨sixWide .nv12, fun _ => 6, data⟩)) ↔
      StridesFit (sixWide .nv12) (fun _ => 6) ∧ BytesFit (sixWide .nv12) fun _ => 6 :=
  upload_respects_stride_iff convertRows opaquePixel convertRows_writesWithStride (sixWide .nv12)
    (fun _ => 6) (by decide) (by decide) fun _ _ => Nat.le_refl _

/-- The buffer that the codec gives in the samples. -/
def zeroed : CncodecFrame where
  pixelFmt := .rgba
  width := 0
  height := 0
  stride := fun _ => 0
  plane := fun _ _ => 0

/--
With the strides that GStreamer gives, the last row of an NV12 picture 6 wide is not copied, and the
second one of an RGB picture is looked for elsewhere.
-/
theorem padding_not_copied :
    ¬UploadRight opaquePixel ⟨sixWide .nv12, (sixWide .nv12).stride, fun _ _ => 7⟩
      (encodeFrame convertRows (fun _ => 0) zeroed
        ⟨sixWide .nv12, (sixWide .nv12).stride, fun _ _ => 7⟩) ∧
    ¬UploadRight opaquePixel ⟨sixWide .rgb, (sixWide .rgb).stride, fun _ i => .ofNat i⟩
      (encodeFrame convertRows (fun _ => 0) zeroed
        ⟨sixWide .rgb, (sixWide .rgb).stride, fun _ i => .ofNat i⟩) := by
  constructor
  · intro h
    have hrow := (uploadRight_copies (by decide) (by decide) (by decide) (by decide)).mp h 0
      (by decide) 3 (by decide) 0 (by decide)
    exact absurd hrow (by decide)
  · intro h
    have hfound : PixelsFound opaquePixel (sixWide .rgb) 20 (fun i => .ofNat i) fun i =>
        if i / 24 < 4 ∧ i % 24 < 24 then
          opaquePixel .rgb (fun j => if i / 24 * 20 + 3 * (i % 24 / 4) + j < 80 then
            .ofNat (i / 24 * 20 + 3 * (i % 24 / 4) + j) else 0) (Fin.ofNat 4 (i % 24))
        else 0 := h
    exact absurd (hfound 1 (by decide) 0 (by decide) 0) (by decide)

end CambriconGst.Gst.CnvideoencUpload
