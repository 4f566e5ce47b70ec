import CambriconGst.Gst.HostCopy

/-!
# Frames packed in host memory

* `Regular`: the frames that the elements copy
* `toHost`: what `copy_frame_d2h` and `transform_to_cpu` have in common
* `clearAlignment_perm`: the loop over the rows copies the rows of each plane
* `exists_toHost`: the frame is packed, when the products fit and the memories are large enough
* `copyFrameD2H_right_iff`: when the decoder's are
-/

namespace CambriconGst.Gst.HostCopy

open Lib

/-! ## The planes of a frame -/

/-- Where the planes are on the device, each in a block of its own. -/
def rectsOf (fmt : VideoFormat) (width height stride : Nat) : List Rect :=
  match fmt with
  | .nv12 | .nv21 =>
    [{ source := 0, src := 0, rows := height, width := width, stride := stride },
      { source := 1, src := 0, rows := height / 2, width := width, stride := stride }]
  | .i420 =>
    [{ source := 0, src := 0, rows := height, width := width, stride := stride },
      { source := 1, src := 0, rows := height / 2, width := width / 2, stride := stride / 2 },
      { source := 2, src := 0, rows := height / 2, width := width / 2, stride := stride / 2 }]
  | _ =>
    [{ source := 0, src := 0, rows := height, width := width * fmt.channelNumPlane0,
       stride := stride }]

namespace Frame

def rects (fmt : VideoFormat) (frame : Frame) : List Rect :=
  rectsOf fmt frame.width.toNat frame.height.toNat (frame.stride 0).toNat

/-- The bytes of the first plane, with the padding. -/
def area (frame : Frame) : Nat :=
  (frame.stride 0).toNat * frame.height.toNat

/-- Rows that fit their strides, and strides that fit one another. -/
structure Regular (fmt : VideoFormat) (frame : Frame) : Prop where
  width_even : frame.width.toNat % 2 = 0
  height_even : frame.height.toNat % 2 = 0
  width_le : frame.width.toNat * fmt.channelNumPlane0 ≤ (frame.stride 0).toNat
  semiPlanar : fmt = .nv12 ∨ fmt = .nv21 → frame.stride 1 = frame.stride 0
  i420 : fmt = .i420 → frame.stride 1 = frame.stride 0 / 2 ∧ frame.stride 2 = frame.stride 0 / 2

/-- The planes are as long as the strides and the height say. -/
def OnDevice (fmt : VideoFormat) (frame : Frame) (planes : Nat → Block UInt8) : Prop :=
  ∀ r ∈ frame.rects fmt, r.rows * r.stride ≤ (planes r.source).size

end Frame

/-- The copies from the device. -/
def fetch (fmt : VideoFormat) (frame : Frame) : List Memcpy :=
  match fmt with
  | .nv12 | .nv21 => fetchSemiPlanar frame
  | .i420 => fetchI420 frame
  | _ => fetchPacked frame

/-- From the device to `mem`, and from there without the padding to `cp`. -/
def toHost (fmt : VideoFormat) (frame : Frame) (planes : Nat → Block UInt8)
    (mem cp : Block UInt8) : Option (Block UInt8) := do
  let info ← copyAll planes (fetch fmt frame) mem
  if frame.stride 0 ≠ frame.width * BitVec.ofNat 32 fmt.channelNumPlane0 then
    copyAll (fun _ => info) (Cnconvert.clearAlignment fmt frame) cp
  else return info

variable {fmt : VideoFormat} {frame : Frame} {planes : Nat → Block UInt8} {mem cp : Block UInt8}

theorem transformToCpu_eq {mem cpMem : Nat → UInt8} :
    Cnconvert.transformToCpu fmt frame planes mem cpMem =
      toHost fmt frame planes (alloc (Cnconvert.floatSize fmt (frame.stride 0 * frame.height)) mem)
        (alloc (Cnconvert.floatSize fmt (frame.width * frame.height)) cpMem) := by
  cases fmt <;> rfl

/-- The formats with chroma of half the height. -/
def Planar (fmt : VideoFormat) : Prop :=
  fmt = .nv12 ∨ fmt = .nv21 ∨ fmt = .i420

instance (fmt : VideoFormat) : Decidable (Planar fmt) := by
  unfold Planar
  infer_instance

theorem copyFrameD2H_eq (hfmt : Planar fmt) {mem cpMem : Nat → UInt8} :
    Cnvideodec.copyFrameD2H fmt frame planes mem cpMem =
      (toHost fmt frame planes (alloc (frame.stride 0 * frame.height * 3 / 2).toNat mem)
        (alloc (frame.width * frame.height * 3 / 2).toNat cpMem)).map some := by
  have hone : frame.width * BitVec.ofNat 32 fmt.channelNumPlane0 = frame.width := by
    rcases hfmt with rfl | rfl | rfl <;> exact BitVec.mul_one _
  have hclear : Cnvideodec.clearAlignment fmt frame = Cnconvert.clearAlignment fmt frame := by
    rcases hfmt with rfl | rfl | rfl <;> rfl
  have hfinish : Cnvideodec.copyFrameD2H fmt frame planes mem cpMem =
      (copyAll planes (fetch fmt frame) (alloc (frame.stride 0 * frame.height * 3 / 2).toNat mem)).bind
        fun info => if frame.stride 0 ≠ frame.width then
            (copyAll (fun _ => info) (Cnvideodec.clearAlignment fmt frame)
              (alloc (frame.width * frame.height * 3 / 2).toNat cpMem)).bind fun cp => some (some cp)
          else some (some info) := by
    rcases hfmt with rfl | rfl | rfl <;> rfl
  rw [hfinish, toHost, hone, ← hclear]
  cases copyAll planes (fetch fmt frame) (alloc (frame.stride 0 * frame.height * 3 / 2).toNat mem) with
  | none => rfl
  | some info =>
    by_cases hpad : frame.stride 0 ≠ frame.width
    · simp [hpad, Option.map_eq_bind]
    · simp [hpad]

/-! ## The copies and the planes -/

theorem toNat_mul_of_lt {x y : BitVec 32} (h : x.toNat * y.toNat < 2 ^ 32) :
    (x * y).toNat = x.toNat * y.toNat := by
  rw [BitVec.toNat_mul, Nat.mod_eq_of_lt h]

theorem toNat_half (x : BitVec 32) : (x / 2).toNat = x.toNat / 2 :=
  rfl

theorem toNat_quarter (x : BitVec 32) : (x / 4).toNat = x.toNat / 4 :=
  rfl

/-- Half of the rows of a plane. -/
theorem half_rows {stride height : BitVec 32} (heven : height.toNat % 2 = 0)
    (hlt : stride.toNat * height.toNat < 2 ^ 32) :
    ((stride * height) >>> 1).toNat = height.toNat / 2 * stride.toNat := by
  obtain ⟨m, hm⟩ := Nat.dvd_of_mod_eq_zero heven
  rw [BitVec.toNat_ushiftRight, toNat_mul_of_lt hlt, Nat.shiftRight_eq_div_pow, hm, Nat.pow_one,
    Nat.mul_div_cancel_left _ Nat.two_pos, Nat.mul_left_comm, Nat.mul_div_cancel_left _ Nat.two_pos,
    Nat.mul_comm]

/-- What is fetched are the planes with their padding. -/
theorem fetch_eq (hreg : frame.Regular fmt) (hlt : frame.area < 2 ^ 32) :
    fetch fmt frame = packing ((frame.rects fmt).map Rect.padded) 0 := by
  have hluma : (frame.stride 0 * frame.height).toNat
      = frame.height.toNat * (frame.stride 0).toNat := by
    rw [toNat_mul_of_lt hlt, Nat.mul_comm]
  have hsemi (h : frame.stride 1 = frame.stride 0) : ((frame.stride 1 * frame.height) >>> 1).toNat
      = frame.height.toNat / 2 * (frame.stride 0).toNat := by
    rw [h, half_rows hreg.height_even hlt]
  have hhalf (h : frame.stride 1 = frame.stride 0 / 2) :
      ((frame.stride 1 * frame.height) >>> 1).toNat
        = frame.height.toNat / 2 * ((frame.stride 0).toNat / 2) := by
    rw [h, half_rows hreg.height_even, toNat_half]
    rw [toNat_half]
    exact (Nat.mul_le_mul_right _ (Nat.div_le_self _ 2)).trans_lt hlt
  cases fmt with
  | nv12 | nv21 =>
    simp [fetch, fetchSemiPlanar, Frame.rects, rectsOf, packing, Rect.copies, Rect.copy, Rect.padded, hluma,
      hsemi (hreg.semiPlanar (by decide))]
  | i420 =>
    obtain ⟨hu, hv⟩ := hreg.i420 rfl
    simp [fetch, fetchI420, Frame.rects, rectsOf, packing, Rect.copies, Rect.copy, Rect.padded, hluma,
      hv.trans hu.symm, hhalf hu]
  | _ =>
    simp [fetch, fetchPacked, Frame.rects, rectsOf, packing, Rect.copies, Rect.copy, Rect.padded, hluma]

/-! ## The loop over the rows -/

section Rows

variable {α : Type*}

/-- Every other pass of a loop. -/
theorem flatMap_even (f : Nat → List α) (m : Nat) :
    ((List.range (2 * m)).flatMap fun i => if i % 2 = 0 then f (i / 2) else [])
      = (List.range m).flatMap f := by
  induction m with
  | zero => rfl
  | succ m ih =>
    have heven : 2 * m % 2 = 0 := by omega
    have hdiv : 2 * m / 2 = m := by omega
    rw [Nat.mul_succ, List.range_succ, List.range_succ, List.range_succ, List.flatMap_append,
      List.flatMap_append, List.flatMap_append, ih]
    simp [heven, hdiv]

/-- A copy in every pass and others in every other pass, sorted. -/
theorem flatMap_rows_perm (row : Nat → α) (f : Nat → List α) (m : Nat) :
    ((List.range (2 * m)).flatMap fun i => row i :: if i % 2 = 0 then f (i / 2) else []).Perm
      ((List.range (2 * m)).map row ++ (List.range m).flatMap f) := by
  have hperm := (List.range (2 * m)).flatMap_append_perm (fun i => [row i])
    fun i => if i % 2 = 0 then f (i / 2) else []
  rw [flatMap_even, ← List.map_eq_flatMap] at hperm
  exact hperm.symm

end Rows

/-- Where a row starts. -/
theorem toNat_row {i : Nat} {x : BitVec 32} (hi : i < frame.height.toNat)
    (hx : x.toNat ≤ (frame.stride 0).toNat) (hlt : frame.area < 2 ^ 32) :
    (BitVec.ofNat 32 i * x).toNat = i * x.toNat := by
  have hle : i * x.toNat ≤ frame.area := by
    rw [Frame.area, Nat.mul_comm]
    exact Nat.mul_le_mul hx hi.le
  have hnat : (BitVec.ofNat 32 i).toNat = i :=
    Nat.mod_eq_of_lt (hi.trans frame.height.isLt)
  rw [toNat_mul_of_lt (by rw [hnat]; omega), hnat]

theorem ofNat_even_iff {i : Nat} (hi : i < 2 ^ 32) : BitVec.ofNat 32 i % 2 = 0 ↔ i % 2 = 0 := by
  rw [← BitVec.toNat_inj, BitVec.toNat_umod, BitVec.toNat_ofNat, Nat.mod_eq_of_lt hi]
  exact Iff.rfl

theorem half_mul {i : Nat} (hi : i % 2 = 0) (x : Nat) : i * x / 2 = i / 2 * x := by
  obtain ⟨r, rfl⟩ := Nat.dvd_of_mod_eq_zero hi
  rw [Nat.mul_assoc, Nat.mul_div_cancel_left _ Nat.two_pos, Nat.mul_div_cancel_left _ Nat.two_pos]

theorem quarter_mul {i x : Nat} (hi : i % 2 = 0) (hx : x % 2 = 0) :
    i * x / 4 = i / 2 * (x / 2) := by
  obtain ⟨r, rfl⟩ := Nat.dvd_of_mod_eq_zero hi
  obtain ⟨y, rfl⟩ := Nat.dvd_of_mod_eq_zero hx
  have hprod : 2 * r * (2 * y) = 4 * (r * y) := by
    ring
  rw [hprod, Nat.mul_div_cancel_left _ (by decide), Nat.mul_div_cancel_left _ Nat.two_pos,
    Nat.mul_div_cancel_left _ Nat.two_pos]

/-- The size of the first plane, with the padding and without. -/
theorem toNat_mul_height {x : BitVec 32} (hx : x.toNat ≤ (frame.stride 0).toNat)
    (hlt : frame.area < 2 ^ 32) : (x * frame.height).toNat = frame.height.toNat * x.toNat := by
  have hle : x.toNat * frame.height.toNat ≤ frame.area := Nat.mul_le_mul_right _ hx
  rw [toNat_mul_of_lt (hle.trans_lt hlt), Nat.mul_comm]

theorem Frame.Regular.width_le_of_planar (hreg : frame.Regular fmt) (hfmt : Planar fmt) :
    frame.width.toNat ≤ (frame.stride 0).toNat := by
  have hle := hreg.width_le
  rcases hfmt with rfl | rfl | rfl <;> exact (Nat.mul_one _).symm.trans_le hle

/-- The first plane in the memory that the planes were fetched to. -/
def lumaRect (frame : Frame) : Rect :=
  { source := 0, src := 0, rows := frame.height.toNat, width := frame.width.toNat,
    stride := (frame.stride 0).toNat }

/-- The chroma of NV12 and NV21 there. -/
def uvRect (frame : Frame) : Rect :=
  { source := 0, src := frame.height.toNat * (frame.stride 0).toNat, rows := frame.height.toNat / 2,
    width := frame.width.toNat, stride := (frame.stride 0).toNat }

/-- That of I420: `v` planes of chroma are before it. -/
def chromaRect (v : Nat) (frame : Frame) : Rect :=
  { source := 0,
    src := frame.height.toNat * (frame.stride 0).toNat
      + v * (frame.height.toNat / 2 * ((frame.stride 0).toNat / 2)),
    rows := frame.height.toNat / 2, width := frame.width.toNat / 2,
    stride := (frame.stride 0).toNat / 2 }

/-- Pixels of `ch` bytes there. -/
def packedRect (ch : Nat) (frame : Frame) : Rect :=
  { source := 0, src := 0, rows := frame.height.toNat, width := frame.width.toNat * ch,
    stride := (frame.stride 0).toNat }

theorem lumaRow_eq {i : Nat} (hi : i < frame.height.toNat)
    (hle : frame.width.toNat ≤ (frame.stride 0).toNat) (hlt : frame.area < 2 ^ 32) :
    lumaRow frame (BitVec.ofNat 32 i) = (lumaRect frame).copy 0 i := by
  rw [lumaRow, toNat_row hi hle hlt, toNat_row hi le_rfl hlt, Rect.copy, lumaRect, Nat.zero_add,
    Nat.zero_add]

theorem semiPlanarRow_eq (hreg : frame.Regular fmt) (hfmt : fmt = .nv12 ∨ fmt = .nv21)
    (hlt : frame.area < 2 ^ 32) {i : Nat} (hi : i < frame.height.toNat) :
    semiPlanarRow frame (BitVec.ofNat 32 i) =
      (lumaRect frame).copy 0 i ::
        if i % 2 = 0 then
          [(uvRect frame).copy (frame.height.toNat * frame.width.toNat) (i / 2)]
        else [] := by
  have hle := hreg.width_le_of_planar (hfmt.imp_right Or.inl)
  rw [semiPlanarRow, lumaRow_eq hi hle hlt]
  by_cases heven : i % 2 = 0
  · have hdst : (BitVec.ofNat 32 i * frame.width / 2).toNat = i / 2 * frame.width.toNat := by
      rw [toNat_half, toNat_row hi hle hlt, half_mul heven]
    have hsrc : (BitVec.ofNat 32 i * frame.stride 1 / 2).toNat
        = i / 2 * (frame.stride 0).toNat := by
      rw [hreg.semiPlanar hfmt, toNat_half, toNat_row hi le_rfl hlt, half_mul heven]
    rw [if_pos ((ofNat_even_iff (hi.trans frame.height.isLt)).mpr heven), if_pos heven, hdst, hsrc,
      toNat_mul_height hle hlt, toNat_mul_height le_rfl hlt]
    rfl
  · rw [if_neg fun h => heven ((ofNat_even_iff (hi.trans frame.height.isLt)).mp h), if_neg heven]

theorem i420Row_eq (hreg : frame.Regular .i420) (hlt : frame.area < 2 ^ 32) {i : Nat}
    (hi : i < frame.height.toNat) :
    i420Row frame (BitVec.ofNat 32 i) =
      (lumaRect frame).copy 0 i ::
        if i % 2 = 0 then
          [(chromaRect 0 frame).copy (frame.height.toNat * frame.width.toNat) (i / 2),
            (chromaRect 1 frame).copy (frame.height.toNat * frame.width.toNat
              + frame.height.toNat / 2 * (frame.width.toNat / 2)) (i / 2)]
        else [] := by
  have hle := hreg.width_le_of_planar (Or.inr (Or.inr rfl))
  obtain ⟨hu, hv⟩ := hreg.i420 rfl
  rw [i420Row, lumaRow_eq hi hle hlt]
  by_cases heven : i % 2 = 0
  · have hhalf : (frame.stride 0 / 2).toNat ≤ (frame.stride 0).toNat :=
      (toNat_half _).trans_le (Nat.div_le_self _ 2)
    have hdst : (BitVec.ofNat 32 i * frame.width / 4).toNat
        = i / 2 * (frame.width.toNat / 2) := by
      rw [toNat_quarter, toNat_row hi hle hlt, quarter_mul heven hreg.width_even]
    have hsrc : (BitVec.ofNat 32 i * (frame.stride 0 / 2) / 2).toNat
        = i / 2 * ((frame.stride 0).toNat / 2) := by
      rw [toNat_half, toNat_row hi hhalf hlt, half_mul heven, toNat_half]
    have hplane : ((frame.width * frame.height) >>> 2).toNat
        = frame.height.toNat / 2 * (frame.width.toNat / 2) := by
      rw [BitVec.toNat_ushiftRight, toNat_mul_height hle hlt, Nat.shiftRight_eq_div_pow]
      exact quarter_mul hreg.height_even hreg.width_even
    have hpadded : ((frame.stride 0 / 2 * frame.height) >>> 1).toNat
        = frame.height.toNat / 2 * ((frame.stride 0).toNat / 2) := by
      rw [half_rows hreg.height_even, toNat_half]
      exact (Nat.mul_le_mul_right _ hhalf).trans_lt hlt
    rw [if_pos ((ofNat_even_iff (hi.trans frame.height.isLt)).mpr heven), if_pos heven, hu, hv, hdst,
      hsrc, toNat_half, hplane, hpadded, toNat_mul_height hle hlt, toNat_mul_height le_rfl hlt]
    simp only [Rect.copy, chromaRect, Nat.zero_mul, Nat.add_zero, Nat.one_mul]
  · rw [if_neg fun h => heven ((ofNat_even_iff (hi.trans frame.height.isLt)).mp h), if_neg heven]

theorem packedRow_eq (hreg : frame.Regular fmt) (hfmt : ¬Planar fmt) (hlt : frame.area < 2 ^ 32)
    {i : Nat} (hi : i < frame.height.toNat) :
    packedRow (Cnconvert.channels fmt) frame (BitVec.ofNat 32 i) =
      [(packedRect fmt.channelNumPlane0 frame).copy 0 i] := by
  have hch : (Cnconvert.channels fmt).toNat = fmt.channelNumPlane0 := by
    cases fmt with
    | nv12 | nv21 | i420 => exact absurd (by decide) hfmt
    | _ => rfl
  have hrow : (frame.width * Cnconvert.channels fmt).toNat
      = frame.width.toNat * fmt.channelNumPlane0 := by
    have hle := hreg.width_le
    rw [← hch] at hle ⊢
    exact toNat_mul_of_lt (hle.trans_lt (frame.stride 0).isLt)
  have hdst : (BitVec.ofNat 32 i * frame.width * Cnconvert.channels fmt).toNat
      = i * (frame.width.toNat * fmt.channelNumPlane0) := by
    rw [BitVec.mul_assoc, toNat_row hi (hrow.trans_le hreg.width_le) hlt, hrow]
  rw [packedRow, hdst, hrow, toNat_row hi le_rfl hlt, Rect.copy, packedRect, Nat.zero_add,
    Nat.zero_add]

/-- The loop copies what the planes have in their rows, each plane to behind the one before. -/
theorem clearAlignment_perm (hreg : frame.Regular fmt) (hlt : frame.area < 2 ^ 32) :
    (Cnconvert.clearAlignment fmt frame).Perm (packing (staged (frame.rects fmt) 0) 0) := by
  obtain ⟨m, hm⟩ := Nat.dvd_of_mod_eq_zero hreg.height_even
  have hhalf : frame.height.toNat / 2 = m := by
    omega
  have hrow {i : Nat} (hi : i ∈ List.range frame.height.toNat) : i < frame.height.toNat :=
    List.mem_range.mp hi
  cases fmt with
  | nv12 | nv21 =>
    have hloop := List.flatMap_congr fun i hi =>
      semiPlanarRow_eq hreg (by decide) hlt (hrow (i := i) hi)
    have hperm := flatMap_rows_perm ((lumaRect frame).copy 0)
      (fun r => [(uvRect frame).copy (frame.height.toNat * frame.width.toNat) r]) m
    rw [← hm, ← hloop, ← List.map_eq_flatMap] at hperm
    refine hperm.trans (List.Perm.of_eq ?_)
    simp [Frame.rects, rectsOf, staged, packing, Rect.copies, hhalf, lumaRect, uvRect]
  | i420 =>
    have hloop := List.flatMap_congr fun i hi => i420Row_eq hreg hlt (hrow (i := i) hi)
    have hperm := flatMap_rows_perm ((lumaRect frame).copy 0)
      (fun r => [(chromaRect 0 frame).copy (frame.height.toNat * frame.width.toNat) r,
        (chromaRect 1 frame).copy (frame.height.toNat * frame.width.toNat
          + frame.height.toNat / 2 * (frame.width.toNat / 2)) r]) m
    have hchroma := (List.range m).flatMap_append_perm
      (fun r => [(chromaRect 0 frame).copy (frame.height.toNat * frame.width.toNat) r])
      fun r => [(chromaRect 1 frame).copy (frame.height.toNat * frame.width.toNat
        + frame.height.toNat / 2 * (frame.width.toNat / 2)) r]
    rw [← hm, ← hloop] at hperm
    rw [← List.map_eq_flatMap, ← List.map_eq_flatMap] at hchroma
    refine (hperm.trans (hchroma.symm.append_left _)).trans (List.Perm.of_eq ?_)
    simp [Frame.rects, rectsOf, staged, packing, Rect.copies, hhalf, lumaRect, chromaRect]
  | _ =>
    have hloop := List.flatMap_congr fun i hi =>
      packedRow_eq hreg (by decide) hlt (hrow (i := i) hi)
    rw [← List.map_eq_flatMap] at hloop
    refine List.Perm.of_eq (hloop.trans ?_)
    simp [Frame.rects, rectsOf, staged, packing, Rect.copies, packedRect]

/-! ## The frame in host memory -/

namespace Frame

/-- The test that decides whether rows are copied. -/
def Padded (fmt : VideoFormat) (frame : Frame) : Prop :=
  frame.stride 0 ≠ frame.width * BitVec.ofNat 32 fmt.channelNumPlane0

instance (fmt : VideoFormat) (frame : Frame) : Decidable (frame.Padded fmt) := by
  unfold Padded
  infer_instance

theorem Regular.padded_iff (hreg : frame.Regular fmt) :
    frame.Padded fmt ↔ frame.width.toNat * fmt.channelNumPlane0 < (frame.stride 0).toNat := by
  have hch : (BitVec.ofNat 32 fmt.channelNumPlane0).toNat = fmt.channelNumPlane0 := by
    cases fmt <;> rfl
  have hle := hreg.width_le
  have hprod : (frame.width * BitVec.ofNat 32 fmt.channelNumPlane0).toNat
      = frame.width.toNat * fmt.channelNumPlane0 := by
    rw [← hch] at hle
    rw [toNat_mul_of_lt (hle.trans_lt (frame.stride 0).isLt), hch]
  unfold Padded
  rw [ne_eq, ← BitVec.toNat_inj, hprod]
  omega

theorem Regular.rect_width_le (hreg : frame.Regular fmt) :
    ∀ r ∈ frame.rects fmt, r.width ≤ r.stride := by
  have hle := hreg.width_le
  unfold rects
  cases fmt with
  | nv12 | nv21 | i420 =>
    simp only [VideoFormat.channelNumPlane0, Nat.mul_one] at hle
    simp [rectsOf, hle, Nat.div_le_div_right]
  | _ => simpa [rectsOf] using hle

theorem Regular.rect_width_eq (hreg : frame.Regular fmt) (hpad : ¬frame.Padded fmt) :
    ∀ r ∈ frame.rects fmt, r.width = r.stride := by
  have heq : frame.width.toNat * fmt.channelNumPlane0 = (frame.stride 0).toNat :=
    Nat.le_antisymm hreg.width_le (Nat.le_of_not_lt fun h => hpad (hreg.padded_iff.mpr h))
  unfold rects
  cases fmt with
  | nv12 | nv21 | i420 =>
    simp only [VideoFormat.channelNumPlane0, Nat.mul_one] at heq
    simp [rectsOf, heq]
  | _ => simpa [rectsOf] using heq

end Frame

theorem inside_padded (hdev : frame.OnDevice fmt planes) :
    ∀ r ∈ (frame.rects fmt).map Rect.padded, r.Inside planes := by
  intro r' hr' i hi
  obtain ⟨r, hr, rfl⟩ := List.mem_map.mp hr'
  have hsrc : r.src = 0 := by
    unfold Frame.rects rectsOf at hr
    cases fmt <;> simp at hr <;> grind
  have hzero : i = 0 := Nat.lt_one_iff.mp hi
  rw [Rect.padded, hsrc, hzero, Nat.zero_mul, Nat.zero_add]
  exact hdev r hr

/-- The packed frame, in memories that are large enough. -/
theorem exists_toHost (hreg : frame.Regular fmt) (hlt : frame.area < 2 ^ 32)
    (hdev : frame.OnDevice fmt planes)
    (hmem : packedSize ((frame.rects fmt).map Rect.padded) ≤ mem.size)
    (hcp : frame.Padded fmt → packedSize (frame.rects fmt) ≤ cp.size) :
    ∃ out, toHost fmt frame planes mem cp = some out ∧
      out.size = (if frame.Padded fmt then cp else mem).size ∧
      PackedFrom planes out (frame.rects fmt) 0 ∧
      ∀ o < packedSize (frame.rects fmt),
        out.written o = (if frame.Padded fmt then cp else mem).written o + 1 := by
  have hfetch := fetch_eq hreg hlt
  have hinfo : copyAll planes (fetch fmt frame) mem
      = some (copied planes (fetch fmt frame) mem) := by
    refine copyAll_eq_some_iff.mpr ⟨?_, rfl⟩
    rw [hfetch]
    exact packing_fits (inside_padded hdev) (by omega)
  have hstaged : PackedFrom planes (copied planes (fetch fmt frame) mem)
      ((frame.rects fmt).map Rect.padded) 0 :=
    packedFrom_of_perm (List.Perm.of_eq hfetch)
  generalize hi : copied planes (fetch fmt frame) mem = info at hinfo hstaged
  have hsize : info.size = mem.size := hi ▸ copied_size
  by_cases hpad : frame.Padded fmt
  · have hclear := clearAlignment_perm hreg hlt
    have hcopy : copyAll (fun _ => info) (Cnconvert.clearAlignment fmt frame) cp
        = some (copied (fun _ => info) (Cnconvert.clearAlignment fmt frame) cp) := by
      refine copyAll_eq_some_iff.mpr ⟨fun c hc => ?_, rfl⟩
      have hin : ∀ r ∈ staged (frame.rects fmt) 0, r.Inside fun _ => info :=
        staged_inside hreg.rect_width_le (by omega)
      exact packing_fits hin (by rw [packedSize_staged]; have := hcp hpad; omega) c
        (hclear.mem_iff.mp hc)
    refine ⟨copied (fun _ => info) (Cnconvert.clearAlignment fmt frame) cp, ?_, ?_,
      PackedFrom.trans hreg.rect_width_le hstaged (packedFrom_of_perm hclear), ?_⟩
    · rw [toHost, hinfo]
      exact (if_pos hpad).trans hcopy
    · rw [if_pos hpad, copied_size]
    · intro o ho
      rw [if_pos hpad, written_of_perm hclear (by rwa [packedSize_staged])]
  · have heq := hreg.rect_width_eq hpad
    refine ⟨info, ?_, ?_, hstaged.of_padded heq, ?_⟩
    · rw [toHost, hinfo]
      exact if_neg hpad
    · rw [if_neg hpad, hsize]
    · intro o ho
      rw [if_neg hpad, ← hi, written_of_perm (List.Perm.of_eq hfetch)
        (by rwa [packedSize_padded_of_eq heq])]

/-! ## When it is not packed -/

/-- The bytes that are fetched, with products of 32 bits. -/
def fetchedSize (fmt : VideoFormat) (stride height : Nat) : Nat :=
  match fmt with
  | .nv12 | .nv21 => stride * height % 2 ^ 32 + stride * height % 2 ^ 32 / 2
  | .i420 => stride * height % 2 ^ 32 + 2 * (stride / 2 * height % 2 ^ 32 / 2)
  | _ => stride * height % 2 ^ 32

/-- What is fetched starts at the first byte of a plane, and of the first plane is its size. -/
theorem fetch_src {c : Memcpy} (hc : c ∈ fetch fmt frame) :
    c.src = 0 ∧ (c.source = 0 → c.len = frame.area % 2 ^ 32) := by
  have hlen : (frame.stride 0 * frame.height).toNat = frame.area % 2 ^ 32 := BitVec.toNat_mul _ _
  cases fmt <;>
    simp only [fetch, fetchSemiPlanar, fetchI420, fetchPacked, List.mem_cons, List.not_mem_nil,
      or_false] at hc <;>
    grind

theorem half_mod (x : BitVec 32) (height : BitVec 32) :
    ((x * height) >>> 1).toNat = x.toNat * height.toNat % 2 ^ 32 / 2 := by
  rw [BitVec.toNat_ushiftRight, BitVec.toNat_mul, Nat.shiftRight_eq_div_pow, Nat.pow_one]

/-- The planes are fetched one behind the other. -/
theorem fetchedSize_le (hreg : frame.Regular fmt) {size : Nat}
    (hfits : ∀ c ∈ fetch fmt frame, c.Fits planes size) :
    fetchedSize fmt (frame.stride 0).toNat frame.height.toNat ≤ size := by
  have hlen : (frame.stride 0 * frame.height).toNat = frame.area % 2 ^ 32 := BitVec.toNat_mul _ _
  cases fmt with
  | nv12 | nv21 =>
    simp only [fetch, fetchSemiPlanar, List.forall_mem_cons, List.not_mem_nil, Memcpy.Fits, half_mod,
      hreg.semiPlanar (by decide), hlen] at hfits
    simp only [fetchedSize]
    unfold Frame.area at hfits
    omega
  | i420 =>
    obtain ⟨hu, hv⟩ := hreg.i420 rfl
    simp only [fetch, fetchI420, List.forall_mem_cons, List.not_mem_nil, Memcpy.Fits, half_mod,
      hu, hv, toNat_half, hlen] at hfits
    simp only [fetchedSize]
    unfold Frame.area at hfits
    omega
  | _ =>
    simp only [fetch, fetchPacked, List.forall_mem_cons, List.not_mem_nil, Memcpy.Fits, hlen]
      at hfits
    simp only [fetchedSize]
    unfold Frame.area at hfits
    omega

/-- Only the last row of the first plane has a byte that is not zero. -/
def lastRowMarked (frame : Frame) (p : Nat) : Block UInt8 where
  size := frame.area
  byte o := if p = 0 ∧ o = (frame.height.toNat - 1) * (frame.stride 0).toNat then 1 else 0
  written _ := 0

theorem onDevice_lastRowMarked : frame.OnDevice fmt (lastRowMarked frame) := by
  have hluma : frame.height.toNat * (frame.stride 0).toNat ≤ frame.area :=
    (Nat.mul_comm _ _).le
  have huv : frame.height.toNat / 2 * (frame.stride 0).toNat ≤ frame.area :=
    (Nat.mul_le_mul_right _ (Nat.div_le_self _ 2)).trans hluma
  have hchroma : frame.height.toNat / 2 * ((frame.stride 0).toNat / 2) ≤ frame.area :=
    (Nat.mul_le_mul_left _ (Nat.div_le_self _ 2)).trans huv
  unfold Frame.OnDevice Frame.rects lastRowMarked
  cases fmt <;> simp [rectsOf, hluma, huv, hchroma]

theorem exists_rects_eq (fmt : VideoFormat) (frame : Frame) : ∃ rest, frame.rects fmt =
    { source := 0, src := 0, rows := frame.height.toNat,
      width := frame.width.toNat * fmt.channelNumPlane0, stride := (frame.stride 0).toNat }
      :: rest := by
  cases fmt <;> simp [Frame.rects, rectsOf, VideoFormat.channelNumPlane0]

/-- When the size of the first plane does not fit, its last row is never fetched. -/
theorem not_packedFrom_of_le (hreg : frame.Regular fmt) (hw : 0 < frame.width.toNat)
    (hh : 0 < frame.height.toNat) (hge : 2 ^ 32 ≤ frame.area) {out : Block UInt8}
    (hmem : ∀ o, mem.byte o = 0) (hcp : ∀ o, cp.byte o = 0)
    (hout : toHost fmt frame (lastRowMarked frame) mem cp = some out) :
    ¬PackedFrom (lastRowMarked frame) out (frame.rects fmt) 0 := by
  have hlast : (frame.height.toNat - 1) * (frame.stride 0).toNat + (frame.stride 0).toNat
      = frame.area := by
    rw [← Nat.succ_mul, Nat.succ_eq_add_one, Nat.sub_add_cancel hh, Nat.mul_comm, Frame.area]
  have hstride := (frame.stride 0).isLt
  have hinfo (o : Nat) :
      (copied (lastRowMarked frame) (fetch fmt frame) mem).byte o = 0 := by
    refine copied_byte_forall (p := fun v => v = 0) (fun c hc k hk => ?_) hmem o
    obtain ⟨hsrc, hlen⟩ := fetch_src hc
    refine if_neg fun hmark => ?_
    rw [hlen hmark.1] at hk
    omega
  have hzero (o : Nat) : out.byte o = 0 := by
    rw [toHost] at hout
    obtain ⟨info, hfetch, hout⟩ := Option.bind_eq_some_iff.mp hout
    obtain ⟨-, rfl⟩ := copyAll_eq_some_iff.mp hfetch
    split at hout
    · obtain ⟨-, rfl⟩ := copyAll_eq_some_iff.mp hout
      exact copied_byte_forall (p := fun v => v = 0) (fun c hc k hk => hinfo _) hcp o
    · obtain rfl := Option.some.inj hout
      exact hinfo o
  intro hpacked
  obtain ⟨rest, hrects⟩ := exists_rects_eq fmt frame
  have hch : 0 < fmt.channelNumPlane0 := by
    cases fmt <;> decide
  rw [hrects] at hpacked
  have hmark := hpacked.1 (frame.height.toNat - 1) (Nat.sub_lt hh Nat.one_pos) 0 (Nat.mul_pos hw hch)
  rw [hzero, Nat.add_zero, Nat.zero_add] at hmark
  exact absurd (hmark.trans (if_pos ⟨rfl, rfl⟩)) (by decide)

/-! ## Memories of given sizes -/

theorem size_of_toHost {out : Block UInt8} (hout : toHost fmt frame planes mem cp = some out) :
    out.size = (if frame.Padded fmt then cp else mem).size := by
  rw [toHost] at hout
  obtain ⟨info, hfetch, hout⟩ := Option.bind_eq_some_iff.mp hout
  obtain ⟨-, rfl⟩ := copyAll_eq_some_iff.mp hfetch
  split at hout
  · next hpad =>
    obtain ⟨-, rfl⟩ := copyAll_eq_some_iff.mp hout
    rw [copied_size]
    exact (congrArg Block.size (if_pos hpad)).symm
  · next hpad =>
    obtain rfl := Option.some.inj hout
    rw [copied_size]
    exact (congrArg Block.size (if_neg hpad)).symm

/-- What has to be so for the frame to be packed in memory of `n` bytes, or from there of `k`. -/
structure Room (fmt : VideoFormat) (frame : Frame) (n k : Nat) : Prop where
  fetched : fetchedSize fmt (frame.stride 0).toNat frame.height.toNat ≤ n
  fits : frame.width.toNat * frame.height.toNat = 0 ∨ frame.area < 2 ^ 32
  size : (if frame.Padded fmt then k else n) = packedSize (frame.rects fmt)

theorem size_alloc {n k : Nat} {mem cp : Nat → UInt8} (p : Prop) [Decidable p] :
    (if p then alloc k cp else alloc n mem).size = if p then k else n :=
  apply_ite Block.size _ _ _

/-- The sizes are right when the frame is packed whatever it is, and whatever was in memory. -/
theorem Room.of_packed (hreg : frame.Regular fmt) {n k : Nat}
    (h : ∀ planes, frame.OnDevice fmt planes → ∀ mem cp : Nat → UInt8, ∃ out,
      toHost fmt frame planes (alloc n mem) (alloc k cp) = some out ∧
        Packed planes (frame.rects fmt) out) : Room fmt frame n k := by
  obtain ⟨out, hout, hsize, hpacked⟩ :=
    h (lastRowMarked frame) onDevice_lastRowMarked (fun _ => 0) fun _ => 0
  have hfits : ∀ c ∈ fetch fmt frame, c.Fits (lastRowMarked frame) n := by
    obtain ⟨info, hfetch, -⟩ := Option.bind_eq_some_iff.mp hout
    exact (copyAll_eq_some_iff.mp hfetch).1
  refine ⟨fetchedSize_le hreg hfits, ?_, ?_⟩
  · by_contra hnot
    obtain ⟨hpos, hge⟩ := not_or.mp hnot
    exact not_packedFrom_of_le hreg (Nat.pos_of_mul_pos_right (Nat.pos_of_ne_zero hpos))
      (Nat.pos_of_mul_pos_left (Nat.pos_of_ne_zero hpos)) (Nat.le_of_not_lt hge)
      (fun _ => rfl) (fun _ => rfl) hout hpacked
  · rw [← hsize, size_of_toHost hout, size_alloc]

/-- Half of the rows are half of the bytes. -/
theorem half_rows_mul (heven : frame.height.toNat % 2 = 0) (x : Nat) :
    frame.height.toNat / 2 * x = x * frame.height.toNat / 2 := by
  rw [← half_mul heven, Nat.mul_comm]

theorem packedSize_padded_eq (hreg : frame.Regular fmt) (hlt : frame.area < 2 ^ 32) :
    packedSize ((frame.rects fmt).map Rect.padded)
      = fetchedSize fmt (frame.stride 0).toNat frame.height.toNat := by
  have hhalf : (frame.stride 0).toNat / 2 * frame.height.toNat < 2 ^ 32 :=
    (Nat.mul_le_mul_right _ (Nat.div_le_self _ 2)).trans_lt hlt
  unfold Frame.area at hlt
  cases fmt <;>
  · simp only [Frame.rects, rectsOf, List.map, Rect.padded, packedSize, fetchedSize,
      half_rows_mul hreg.height_even, Nat.mod_eq_of_lt hlt, Nat.mod_eq_of_lt hhalf,
      Nat.mul_comm frame.height.toNat]
    omega

/-- The planes are long enough for what is fetched of them. -/
theorem fetch_fits (hreg : frame.Regular fmt) (hdev : frame.OnDevice fmt planes) {size : Nat}
    (hle : fetchedSize fmt (frame.stride 0).toNat frame.height.toNat ≤ size) :
    ∀ c ∈ fetch fmt frame, c.Fits planes size := by
  have hlen : (frame.stride 0 * frame.height).toNat = frame.area % 2 ^ 32 := BitVec.toNat_mul _ _
  unfold Frame.area at hlen
  unfold Frame.OnDevice Frame.rects at hdev
  cases fmt with
  | nv12 | nv21 =>
    simp only [rectsOf, List.forall_mem_cons, half_rows_mul hreg.height_even,
      Nat.mul_comm frame.height.toNat] at hdev
    simp only [fetch, fetchSemiPlanar, List.forall_mem_cons, List.not_mem_nil, Memcpy.Fits, half_mod,
      hreg.semiPlanar (by decide), hlen]
    simp only [fetchedSize] at hle
    refine ⟨?_, ?_, fun _ => False.elim⟩ <;> omega
  | i420 =>
    obtain ⟨hu, hv⟩ := hreg.i420 rfl
    simp only [rectsOf, List.forall_mem_cons, half_rows_mul hreg.height_even,
      Nat.mul_comm frame.height.toNat] at hdev
    simp only [fetch, fetchI420, List.forall_mem_cons, List.not_mem_nil, Memcpy.Fits, half_mod,
      hu, hv, toNat_half, hlen]
    simp only [fetchedSize] at hle
    refine ⟨?_, ?_, ?_, fun _ => False.elim⟩ <;> omega
  | _ =>
    simp only [rectsOf, List.forall_mem_cons, Nat.mul_comm frame.height.toNat] at hdev
    simp only [fetch, fetchPacked, List.forall_mem_cons, List.not_mem_nil, Memcpy.Fits, hlen]
    simp only [fetchedSize] at hle
    refine ⟨?_, fun _ => False.elim⟩
    omega

theorem len_eq_zero_of_width_zero (hw : frame.width.toNat = 0) :
    ∀ c ∈ Cnconvert.clearAlignment fmt frame, c.len = 0 := by
  have hwidth : frame.width = 0 := BitVec.eq_of_toNat_eq hw
  have hrows {body : BitVec 32 → List Memcpy} (h : ∀ i, ∀ c ∈ body i, c.len = 0) :
      ∀ c ∈ forRows frame body, c.len = 0 := by
    intro c hc
    obtain ⟨i, -, hc⟩ := List.mem_flatMap.mp hc
    exact h _ c hc
  cases fmt with
  | nv12 | nv21 =>
    refine hrows fun i c hc => ?_
    unfold semiPlanarRow lumaRow at hc
    split at hc <;> simp at hc <;> grind
  | i420 =>
    refine hrows fun i c hc => ?_
    unfold i420Row lumaRow at hc
    split at hc <;> simp at hc <;> grind
  | _ =>
    refine hrows fun i c hc => ?_
    unfold packedRow at hc
    simp [hwidth] at hc
    rw [hc]

/-- Frames without width and whatever stride. -/
theorem exists_toHost_of_width_zero (hreg : frame.Regular fmt) (hw : frame.width.toNat = 0)
    (hpad : frame.Padded fmt) (hdev : frame.OnDevice fmt planes)
    (hmem : fetchedSize fmt (frame.stride 0).toNat frame.height.toNat ≤ mem.size)
    (cp : Block UInt8) :
    ∃ out, toHost fmt frame planes mem cp = some out ∧
      PackedFrom planes out (frame.rects fmt) 0 ∧ packedSize (frame.rects fmt) = 0 := by
  have hnone : ∀ r ∈ frame.rects fmt, r.width = 0 := by
    unfold Frame.rects
    cases fmt <;> simp [rectsOf, hw]
  have hinfo := copyAll_eq_some_iff.mpr ⟨fetch_fits hreg hdev hmem, rfl⟩
  generalize copied planes (fetch fmt frame) mem = info at hinfo
  refine ⟨copied (fun _ => info) (Cnconvert.clearAlignment fmt frame) cp, ?_,
    PackedFrom.of_width_zero hnone, packedSize_of_width_zero hnone⟩
  rw [toHost, hinfo]
  refine (if_pos hpad).trans (copyAll_eq_some_iff.mpr ⟨fun c hc => Or.inl ?_, rfl⟩)
  exact len_eq_zero_of_width_zero hw c hc

/-- With room the frame is packed, and each byte is written once. -/
theorem Room.packed (hreg : frame.Regular fmt) {n k : Nat} (hroom : Room fmt frame n k)
    (hdev : frame.OnDevice fmt planes) (mem cp : Nat → UInt8) :
    ∃ out, toHost fmt frame planes (alloc n mem) (alloc k cp) = some out ∧
      Packed planes (frame.rects fmt) out ∧ ∀ o < out.size, out.written o = 1 := by
  by_cases hlt : frame.area < 2 ^ 32
  · have hcp (hpad : frame.Padded fmt) : packedSize (frame.rects fmt) ≤ (alloc k cp).size := by
      rw [← hroom.size, if_pos hpad]
      exact le_rfl
    have hmem : packedSize ((frame.rects fmt).map Rect.padded) ≤ (alloc n mem).size :=
      (packedSize_padded_eq hreg hlt).trans_le hroom.fetched
    obtain ⟨out, hout, hsize, hpacked, hwritten⟩ :=
      exists_toHost hreg hlt hdev hmem hcp
    have hsize' : out.size = packedSize (frame.rects fmt) := by
      rw [hsize, size_alloc, hroom.size]
    refine ⟨out, hout, ⟨hsize', hpacked⟩, fun o ho => ?_⟩
    rw [hwritten o (hsize' ▸ ho)]
    split <;> rfl
  · have hzero : frame.width.toNat * frame.height.toNat = 0 := hroom.fits.resolve_right hlt
    have hw : frame.width.toNat = 0 := by
      refine (Nat.mul_eq_zero.mp hzero).resolve_right fun hh => hlt ?_
      rw [Frame.area, hh, Nat.mul_zero]
      exact Nat.two_pow_pos 32
    have hpad : frame.Padded fmt := by
      rw [hreg.padded_iff, hw, Nat.zero_mul]
      refine Nat.pos_of_ne_zero fun hs => hlt ?_
      rw [Frame.area, hs, Nat.zero_mul]
      exact Nat.two_pow_pos 32
    have hmem : fetchedSize fmt (frame.stride 0).toNat frame.height.toNat ≤ (alloc n mem).size :=
      hroom.fetched
    obtain ⟨out, hout, hpacked, hnone⟩ :=
      exists_toHost_of_width_zero hreg hw hpad hdev hmem (alloc k cp)
    have hsize : out.size = packedSize (frame.rects fmt) := by
      rw [size_of_toHost hout, size_alloc, hroom.size]
    refine ⟨out, hout, ⟨hsize, hpacked⟩, fun o ho => ?_⟩
    rw [hsize, hnone] at ho
    exact absurd ho (Nat.not_lt_zero o)

/-! ## The decoder -/

/-- Pixels of the frame. -/
def Frame.pixels (frame : Frame) : Nat :=
  frame.width.toNat * frame.height.toNat

/--
The memory that `copy_frame_d2h` makes is the packed frame, and each byte of it was written once;
whatever the planes are, and whatever was in memory. No byte outside of a memory is reached.
-/
def CopiesFrame (fmt : VideoFormat) (frame : Frame) : Prop :=
  ∀ planes, frame.OnDevice fmt planes → ∀ mem cpMem : Nat → UInt8, ∃ out,
    Cnvideodec.copyFrameD2H fmt frame planes mem cpMem = some (some out) ∧
      Packed planes (frame.rects fmt) out ∧ ∀ o < out.size, out.written o = 1

theorem Frame.Regular.pixels_mod_four (hreg : frame.Regular fmt) : frame.pixels % 4 = 0 :=
  Nat.mod_eq_zero_of_dvd
    (Nat.mul_dvd_mul (Nat.dvd_of_mod_eq_zero hreg.width_even) (Nat.dvd_of_mod_eq_zero hreg.height_even))

theorem packedSize_rects (hreg : frame.Regular fmt) (hfmt : Planar fmt) :
    packedSize (frame.rects fmt) = frame.pixels + frame.pixels / 2 := by
  have h4 := hreg.pixels_mod_four
  have hhalf := half_rows_mul hreg.height_even frame.width.toNat
  have hquarter : frame.height.toNat / 2 * (frame.width.toNat / 2)
      = frame.width.toNat * frame.height.toNat / 4 := by
    rw [← quarter_mul hreg.height_even hreg.width_even, Nat.mul_comm]
  unfold Frame.pixels at h4 ⊢
  rcases hfmt with rfl | rfl | rfl <;>
  · simp only [Frame.rects, rectsOf, packedSize, hhalf, hquarter, Nat.mul_comm frame.height.toNat]
    omega

theorem Frame.Regular.pixels_le (hreg : frame.Regular fmt) (hfmt : Planar fmt) :
    frame.pixels ≤ frame.area :=
  Nat.mul_le_mul_right _ (hreg.width_le_of_planar hfmt)

/-- Without padding the first plane has no other bytes. -/
theorem Frame.Regular.area_eq (hreg : frame.Regular fmt) (hpad : ¬frame.Padded fmt) :
    frame.area = fmt.channelNumPlane0 * frame.pixels := by
  rw [hreg.padded_iff, Nat.not_lt] at hpad
  rw [Frame.area, Nat.le_antisymm hpad hreg.width_le, Frame.pixels, ← Nat.mul_assoc,
    Nat.mul_comm frame.width.toNat]

theorem semiPlanar_fits_iff {a : Nat} (h4 : a % 4 = 0) :
    a % 2 ^ 32 + a % 2 ^ 32 / 2 ≤ a % 2 ^ 32 * 3 % 2 ^ 32 / 2 ↔ 3 * (a % 2 ^ 32) < 2 ^ 32 := by
  omega

/-- `t` are the bytes of half of the first plane. -/
theorem i420_fits_iff {t : Nat} (ht : t % 2 = 0) :
    2 * t % 2 ^ 32 + 2 * (t % 2 ^ 32 / 2) ≤ 2 * t % 2 ^ 32 * 3 % 2 ^ 32 / 2 ↔
      3 * (2 * t % 2 ^ 32) < 2 ^ 32 ∧ 2 * t % 2 ^ 33 < 2 ^ 32 := by
  have hmod : 2 * t % 2 ^ 33 = 2 * (t % 2 ^ 32) := Nat.mul_mod_mul_left 2 t (2 ^ 32)
  have hwrap : 2 * t % 2 ^ 32 = 2 * (t % 2 ^ 32) % 2 ^ 32 := by
    omega
  have heven : t % 2 ^ 32 % 2 = 0 := by
    omega
  have hlt : t % 2 ^ 32 < 2 ^ 32 := Nat.mod_lt _ (Nat.two_pow_pos 32)
  rw [hmod, hwrap]
  generalize t % 2 ^ 32 = r at heven hlt
  clear ht hmod hwrap
  rcases Nat.lt_or_ge (2 * r) (2 ^ 32) with hr | hr
  · rw [Nat.mod_eq_of_lt hr]
    omega
  · have hmod : 2 * r % 2 ^ 32 = 2 * r - 2 ^ 32 := by
      omega
    rw [hmod]
    omega

/-- Half as much again is allocated, in products of 32 bits. -/
theorem fetchedSize_le_iff (hfmt : Planar fmt) {stride height : Nat} (hs : stride % 2 = 0)
    (hh : height % 2 = 0) :
    fetchedSize fmt stride height ≤ stride * height % 2 ^ 32 * 3 % 2 ^ 32 / 2 ↔
      3 * (stride * height % 2 ^ 32) < 2 ^ 32 ∧
        (fmt = .i420 → stride * height % 2 ^ 33 < 2 ^ 32) := by
  have h4 : stride * height % 4 = 0 :=
    Nat.mod_eq_zero_of_dvd
      (Nat.mul_dvd_mul (Nat.dvd_of_mod_eq_zero hs) (Nat.dvd_of_mod_eq_zero hh))
  have hhalf : stride * height = 2 * (stride / 2 * height) := by
    rw [← Nat.mul_assoc, Nat.mul_div_cancel' (Nat.dvd_of_mod_eq_zero hs)]
  rcases hfmt with rfl | rfl | rfl
  · simpa [fetchedSize] using semiPlanar_fits_iff h4
  · simpa [fetchedSize] using semiPlanar_fits_iff h4
  · have hiff := i420_fits_iff (t := stride / 2 * height) (by omega)
    rw [← hhalf] at hiff
    simpa [fetchedSize] using hiff

/--
**The decoder's copy is the packed frame when three times the padded first plane fits 32 bits**, and
only then, but for frames without pixels.
-/
theorem copyFrameD2H_right_iff (fmt : VideoFormat) (frame : Frame) (hfmt : Planar fmt)
    (hreg : frame.Regular fmt) (hs : (frame.stride 0).toNat % 2 = 0) :
    CopiesFrame fmt frame ↔
      3 * frame.area < 2 ^ 32 ∨
      frame.pixels = 0 ∧ 3 * (frame.area % 2 ^ 32) < 2 ^ 32 ∧
        (fmt = .i420 → frame.area % 2 ^ 33 < 2 ^ 32) := by
  have hn : (frame.stride 0 * frame.height * 3 / 2).toNat
      = frame.area % 2 ^ 32 * 3 % 2 ^ 32 / 2 := by
    rw [toNat_half, BitVec.toNat_mul, BitVec.toNat_mul]
    rfl
  have hk : (frame.width * frame.height * 3 / 2).toNat
      = frame.pixels % 2 ^ 32 * 3 % 2 ^ 32 / 2 := by
    rw [toNat_half, BitVec.toNat_mul, BitVec.toNat_mul]
    rfl
  -- the bytes come out right just when the sizes of the code leave room for them
  have hroom : CopiesFrame fmt frame ↔ Room fmt frame (frame.area % 2 ^ 32 * 3 % 2 ^ 32 / 2)
      (frame.pixels % 2 ^ 32 * 3 % 2 ^ 32 / 2) := by
    unfold CopiesFrame
    simp only [copyFrameD2H_eq hfmt, hn, hk, Option.map_eq_some_iff, Option.some.injEq,
      exists_eq_right]
    constructor
    · intro h
      refine Room.of_packed hreg fun planes hdev mem cp => ?_
      obtain ⟨out, hout, hpacked, -⟩ := h planes hdev mem cp
      exact ⟨out, hout, hpacked⟩
    · exact fun h planes hdev mem cp => h.packed hreg hdev mem cp
  have hfetched := fetchedSize_le_iff hfmt hs hreg.height_even
  have hsize := packedSize_rects hreg hfmt
  have hle := hreg.pixels_le hfmt
  have h4 := hreg.pixels_mod_four
  have hunpadded (hpad : ¬frame.Padded fmt) : frame.area = frame.pixels := by
    have heq := hreg.area_eq hpad
    rcases hfmt with rfl | rfl | rfl <;> exact heq.trans (Nat.one_mul _)
  rw [hroom]
  constructor
  · rintro ⟨hfetch, hfits, -⟩
    have h := hfetched.mp hfetch
    rcases hfits with hzero | hlt
    · exact Or.inr ⟨hzero, h⟩
    · refine Or.inl ?_
      have harea : frame.area % 2 ^ 32 = frame.area := Nat.mod_eq_of_lt hlt
      exact harea ▸ h.1
  · intro hcond
    refine ⟨hfetched.mpr ?_, ?_, ?_⟩
    · rcases hcond with hlt | ⟨-, h⟩
      · have harea : frame.area < 2 ^ 32 := by
          omega
        change 3 * (frame.area % 2 ^ 32) < 2 ^ 32 ∧ (fmt = .i420 → frame.area % 2 ^ 33 < 2 ^ 32)
        exact ⟨by rwa [Nat.mod_eq_of_lt harea], fun _ => (Nat.mod_le _ _).trans_lt harea⟩
      · exact h
    · exact hcond.elim (fun hlt => Or.inr (by omega)) fun h => Or.inl h.1
    · rw [hsize]
      have hthree : 3 * frame.pixels < 2 ^ 32 := by
        rcases hcond with hlt | ⟨hzero, -⟩ <;> omega
      split
      · omega
      · next hpad =>
        rw [hunpadded hpad]
        omega

/-- Two rows of chroma for four of luma, with padding. -/
def paddedFrame : Frame where
  width := 4
  height := 4
  stride p := if p = 0 then 8 else 4

theorem copyFrameD2H_right_padded : CopiesFrame .i420 paddedFrame :=
  (copyFrameD2H_right_iff .i420 paddedFrame (by decide)
    ⟨by decide, by decide, by decide, by decide, by decide⟩ (by decide)).mpr (Or.inl (by decide))

/-- 2 GB of luma: 1 GB is allocated. -/
def hugeFrame : Frame where
  width := 65536
  height := 32768
  stride _ := 65536

theorem not_copiesFrame_huge :
    hugeFrame.Regular .nv12 ∧ (hugeFrame.stride 0).toNat % 2 = 0 ∧
      (∀ planes (mem cpMem : Nat → UInt8),
        Cnvideodec.copyFrameD2H .nv12 hugeFrame planes mem cpMem = none) ∧
      ¬CopiesFrame .nv12 hugeFrame := by
  have hnone (planes : Nat → Block UInt8) (mem cpMem : Nat → UInt8) :
      Cnvideodec.copyFrameD2H .nv12 hugeFrame planes mem cpMem = none := by
    have hlarge (mem : Nat → UInt8) :
        copyAll planes (fetch .nv12 hugeFrame) (alloc (2 ^ 30) mem) = none := by
      refine if_neg fun hfits => ?_
      rcases hfits with hlen | ⟨hle, -⟩
      · exact absurd hlen (by decide)
      · exact absurd hle (by decide : ¬0 + 2147483648 ≤ 1073741824)
    have hsize : (hugeFrame.stride 0 * hugeFrame.height * 3 / 2).toNat = 2 ^ 30 := by
      decide
    rw [copyFrameD2H_eq (by decide), toHost, hsize, hlarge]
    rfl
  refine ⟨⟨by decide, by decide, by decide, by decide, by decide⟩, by decide, hnone, fun h => ?_⟩
  obtain ⟨out, hout, -⟩ := h (lastRowMarked hugeFrame) onDevice_lastRowMarked (fun _ => 0) fun _ => 0
  rw [hnone] at hout
  exact absurd hout nofun

end CambriconGst.Gst.HostCopy
