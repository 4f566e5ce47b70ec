import CambriconGst.Gst.VideoInfo
import CambriconGst.Lib.BlockCopies
import CambriconGst.Lib.Rounding

/-!
# Frames in host memory

`copy_frame_d2h` of `gst/decode/gstcnvideo_dec.cpp` and `transform_to_cpu` of
`gst/convert/gstcnconvert.cpp`, each with its `clear_alignment`. Products are taken in `guint`, and
added to pointers of 64 bits.
-/

namespace CambriconGst.Gst.HostCopy

open Lib

/-- What is read of `cncodecFrame` and of `GstMluFrame`. -/
structure Frame where
  width : BitVec 32
  height : BitVec 32
  stride : Nat → BitVec 32

/-- `gst_allocator_alloc`: memory with whatever is in it. -/
def alloc (size : Nat) (byte : Nat → UInt8) : Block UInt8 where
  size := size
  byte := byte
  written := fun _ => 0

/-! ## From the device -/

/-- `MemcpyD2H` of the planes of NV12 and NV21. -/
def fetchSemiPlanar (frame : Frame) : List Memcpy :=
  [{ source := 0, dst := 0, src := 0, len := (frame.stride 0 * frame.height).toNat },
    { source := 1, dst := (frame.stride 0 * frame.height).toNat, src := 0,
      len := ((frame.stride 1 * frame.height) >>> 1).toNat }]

/-- `MemcpyD2H` of the planes of I420. -/
def fetchI420 (frame : Frame) : List Memcpy :=
  [{ source := 0, dst := 0, src := 0, len := (frame.stride 0 * frame.height).toNat },
    { source := 1, dst := (frame.stride 0 * frame.height).toNat, src := 0,
      len := ((frame.stride 1 * frame.height) >>> 1).toNat },
    { source := 2,
      dst := (frame.stride 0 * frame.height).toNat
        + ((frame.stride 1 * frame.height) >>> 1).toNat,
      src := 0, len := ((frame.stride 2 * frame.height) >>> 1).toNat }]

/-- `MemcpyD2H` of a single plane. -/
def fetchPacked (frame : Frame) : List Memcpy :=
  [{ source := 0, dst := 0, src := 0, len := (frame.stride 0 * frame.height).toNat }]

/-! ## Rows -/

/-- A pass of the loop in `clear_alignment` over the rows of the first plane. -/
def lumaRow (frame : Frame) (i : BitVec 32) : Memcpy :=
  { source := 0, dst := (i * frame.width).toNat, src := (i * frame.stride 0).toNat,
    len := frame.width.toNat }

/-- The pass for NV12 and NV21, where chroma has a row for every other one. -/
def semiPlanarRow (frame : Frame) (i : BitVec 32) : List Memcpy :=
  lumaRow frame i ::
    if i % 2 = 0 then
      [{ source := 0,
         dst := (frame.width * frame.height).toNat + (i * frame.width / 2).toNat,
         src := (frame.stride 0 * frame.height).toNat + (i * frame.stride 1 / 2).toNat,
         len := frame.width.toNat }]
    else []

/-- The pass for I420. -/
def i420Row (frame : Frame) (i : BitVec 32) : List Memcpy :=
  lumaRow frame i ::
    if i % 2 = 0 then
      [{ source := 0,
         dst := (frame.width * frame.height).toNat + (i * frame.width / 4).toNat,
         src := (frame.stride 0 * frame.height).toNat + (i * frame.stride 1 / 2).toNat,
         len := (frame.width / 2).toNat },
        { source := 0,
          dst := (frame.width * frame.height).toNat
            + ((frame.width * frame.height) >>> 2).toNat + (i * frame.width / 4).toNat,
          src := (frame.stride 0 * frame.height).toNat
            + ((frame.stride 1 * frame.height) >>> 1).toNat + (i * frame.stride 2 / 2).toNat,
          len := (frame.width / 2).toNat }]
    else []

/-- The pass for `ch` bytes to a pixel. -/
def packedRow (ch : BitVec 32) (frame : Frame) (i : BitVec 32) : List Memcpy :=
  [{ source := 0, dst := (i * frame.width * ch).toNat, src := (i * frame.stride 0).toNat,
     len := (frame.width * ch).toNat }]

/-- The loop over the rows. -/
def forRows (frame : Frame) (body : BitVec 32 → List Memcpy) : List Memcpy :=
  (List.range frame.height.toNat).flatMap fun i => body (BitVec.ofNat 32 i)

/-! ## The decoder -/

namespace Cnvideodec

def clearAlignment (fmt : VideoFormat) (frame : Frame) : List Memcpy :=
  match fmt with
  | .i420 => forRows frame (i420Row frame)
  | _ => forRows frame (semiPlanarRow frame)

/--
`copy_frame_d2h`, with the planes on the device and with what is in the memories it allocates.
`none` when bytes outside of a memory are reached, `some none` for a null pointer.
-/
def copyFrameD2H (fmt : VideoFormat) (frame : Frame) (planes : Nat → Block UInt8)
    (mem cpMem : Nat → UInt8) : Option (Option (Block UInt8)) :=
  let finish (copies : List Memcpy) : Option (Option (Block UInt8)) := do
    let info ← copyAll planes copies (alloc (frame.stride 0 * frame.height * 3 / 2).toNat mem)
    if frame.stride 0 ≠ frame.width then
      let cp ← copyAll (fun _ => info) (clearAlignment fmt frame)
        (alloc (frame.width * frame.height * 3 / 2).toNat cpMem)
      return some cp
    else return some info
  match fmt with
  | .nv12 | .nv21 => finish (fetchSemiPlanar frame)
  | .i420 => finish (fetchI420 frame)
  | _ => some none

end Cnvideodec

/-! ## The converter -/

namespace Cnconvert

/-- `int ch`, as `clear_alignment` finds it. -/
def channels (fmt : VideoFormat) : BitVec 32 :=
  if fmt = .rgb ∨ fmt = .bgr then 3 else 4

def clearAlignment (fmt : VideoFormat) (frame : Frame) : List Memcpy :=
  match fmt with
  | .nv12 | .nv21 => forRows frame (semiPlanarRow frame)
  | .i420 => forRows frame (i420Row frame)
  | _ => forRows frame (packedRow (channels fmt) frame)

/-- `float scale`. -/
def scale (fmt : VideoFormat) : ℚ :=
  match fmt with
  | .nv12 | .nv21 | .i420 => 3 / 2
  | _ => 1

/-- `pixels * scale * ch`: single precision, from an unsigned integer and to one. -/
def floatSize (fmt : VideoFormat) (pixels : BitVec 32) : Nat :=
  let scaled := roundTo 24 (roundTo 24 pixels.toNat * scale fmt)
  ⌊roundTo 24 (scaled * fmt.channelNumPlane0)⌋₊

/--
`transform_to_cpu`: the memory of the buffer that is returned, from the planes on the device and
what is in the memories that are allocated. `none` when bytes outside of a memory are reached.
-/
def transformToCpu (fmt : VideoFormat) (frame : Frame) (planes : Nat → Block UInt8)
    (mem cpMem : Nat → UInt8) : Option (Block UInt8) := do
  let copies :=
    match fmt with
    | .nv12 | .nv21 => fetchSemiPlanar frame
    | .i420 => fetchI420 frame
    | _ => fetchPacked frame
  let info ← copyAll planes copies (alloc (floatSize fmt (frame.stride 0 * frame.height)) mem)
  if frame.stride 0 ≠ frame.width * BitVec.ofNat 32 fmt.channelNumPlane0 then
    copyAll (fun _ => info) (clearAlignment fmt frame)
      (alloc (floatSize fmt (frame.width * frame.height)) cpMem)
  else return info

end Cnconvert

end CambriconGst.Gst.HostCopy
