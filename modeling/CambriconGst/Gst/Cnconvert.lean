import CambriconGst.Gst.VideoInfo
import CambriconGst.Lib.Ownership

/-!
# The converter element

`gst/convert/gstcnconvert.cpp`: what a caps event settles, the ways a picture is converted, and the
memories this takes. Memories are synced memories, by name; the device calls succeed, and so does
every `cn_syncedmem_free`.
-/

namespace CambriconGst.Gst

open Lib

namespace Cnconvert

/-! ## Caps -/

/-- The formats of the sink template. -/
def sinkFormats (onMlu : Bool) : List VideoFormat :=
  if onMlu then [.nv12, .nv21, .i420, .rgb, .bgr]
  else [.nv12, .nv21, .rgb, .bgr, .rgba, .bgra, .argb, .abgr]

/-- `filter_caps`: the formats the source pad may have. -/
def srcFormats : VideoFormat → List VideoFormat
  | .nv12 => [.nv12, .rgb, .bgr, .argb, .abgr, .bgra, .rgba]
  | .nv21 => [.nv21, .rgb, .bgr, .argb, .abgr, .bgra, .rgba]
  | .i420 => [.i420]
  | .rgb | .bgr | .rgba | .bgra | .argb | .abgr => [.rgb, .bgr, .argb, .abgr, .bgra, .rgba]

/-- What a caps event that is accepted settles. -/
structure Conversion where
  sinkInfo : VideoInfo
  srcInfo : VideoInfo
  inputOnMlu : Bool
  outputOnMlu : Bool
deriving DecidableEq, Repr

namespace Conversion

def disableResize (c : Conversion) : Bool :=
  c.sinkInfo.width = c.srcInfo.width ∧ c.sinkInfo.height = c.srcInfo.height

def disableConvert (c : Conversion) : Bool :=
  c.sinkInfo.format = c.srcInfo.format

/-- The tests that `set_caps` makes of the two formats and sizes. -/
def supported (c : Conversion) : Bool :=
  if c.disableResize ∧ c.disableConvert = false ∧
      (c.sinkInfo.format.isRGB = false ∨ c.srcInfo.format.isRGB = false) then false
  else if c.disableResize = false ∧ c.disableConvert ∧ c.sinkInfo.format.isRGB = false then false
  else true

/-- The caps are acceptable to the element. -/
def Acceptable (c : Conversion) : Prop :=
  c.sinkInfo.format ∈ sinkFormats c.inputOnMlu ∧
    c.srcInfo.format ∈ srcFormats c.sinkInfo.format ∧ c.supported = true

instance (c : Conversion) : Decidable c.Acceptable := by
  unfold Acceptable
  infer_instance

/-- How the pictures are converted. -/
inductive Path where
  /-- `resize_rgb` alone. -/
  | resizeRgb
  /-- `cvt_rgb` alone. -/
  | cvtRgb
  /-- `resize_convert`. -/
  | resizeConvert
  /-- `resize_rgb`, then `cvt_rgb`. -/
  | resizeThenCvt
deriving DecidableEq, Repr

/-- The choice in `chain`, when there is something to convert. `none` is an error. -/
def path (c : Conversion) : Option Path :=
  if c.disableConvert then some .resizeRgb
  else if c.disableResize then some .cvtRgb
  else if c.sinkInfo.format.isYUV420sp ∧ c.srcInfo.format.isRGB then some .resizeConvert
  else if c.sinkInfo.format.isRGB ∧ c.srcInfo.format.isRGB then some .resizeThenCvt
  else none

end Conversion

/-- A caps event, with what downstream makes of it. -/
structure CapsEvent where
  /-- The caps of the two pads, when there are any that both sides can have. -/
  conversion : Option Conversion
  /-- `gst_pad_set_caps` of the source pad. -/
  padAccepts : Bool
deriving DecidableEq, Repr

/-- The caps are acceptable to the element and to its neighbours. -/
def CapsEvent.Acceptable (e : CapsEvent) : Prop :=
  e.padAccepts = true ∧ ∃ c, e.conversion = some c ∧ c.Acceptable

/-- A buffer that comes. -/
structure Buffer where
  /-- Its frame is held elsewhere, too. -/
  shared : Bool
  /-- The size of the workspace that the library asks for. -/
  workspaceSize : Nat
deriving DecidableEq, Repr

structure Workspace where
  mem : Nat
  size : Nat
deriving DecidableEq, Repr

end Cnconvert

open Cnconvert in
/-- `GstCnconvertPrivate`, the memories there are, and the frames that own memories. -/
structure Cnconvert where
  mluDstMem : Option Nat
  tmpMem : Option Nat
  cncvWorkspace : Option Workspace
  /-- `none` before a caps event, and after one that failed: no buffer comes then. -/
  conversion : Option Conversion
  memories : Arena
  frames : List (List Nat)
deriving DecidableEq, Repr

namespace Cnconvert

/-- `gst_cnconvert_init`. -/
def initial : Cnconvert where
  mluDstMem := none
  tmpMem := none
  cncvWorkspace := none
  conversion := none
  memories := .empty
  frames := []

/-! ## Setting caps -/

/-- The end of `gst_cnconvert_setcaps`. -/
def freeMemories (s : Cnconvert) (c : Conversion) : Cnconvert :=
  match s.mluDstMem with
  -- a memory that was freed is taken for one that was not
  | some m => { s with memories := s.memories.free m }
  | none =>
    match s.tmpMem with
    | some m => { s with memories := s.memories.free m }
    | none => { s with conversion := some c }

/-- `gst_cnconvert_setcaps`. -/
def setcaps (s : Cnconvert) (e : CapsEvent) : Cnconvert :=
  let s := { s with conversion := none }
  match e.conversion with
  | none => s
  | some c =>
    if c.sinkInfo.format ∉ sinkFormats c.inputOnMlu then s
    else if c.srcInfo.format ∉ srcFormats c.sinkInfo.format then s
    else if e.padAccepts = false then s
    else if c.supported = false then s
    else s.freeMemories c

/-! ## Converting -/

/-- A workspace that is large enough. -/
def prepareWorkspace (s : Cnconvert) (size : Nat) : Cnconvert :=
  match s.cncvWorkspace with
  | some w =>
    if w.size < size then
      let memories := s.memories.free w.mem
      { s with memories := memories.alloc, cncvWorkspace := some { mem := memories.created, size } }
    else s
  | none =>
    { s with
      memories := s.memories.alloc
      cncvWorkspace := some { mem := s.memories.created, size } }

def prepareDst (s : Cnconvert) : Cnconvert :=
  match s.mluDstMem with
  | some _ => s
  | none => { s with memories := s.memories.alloc, mluDstMem := some s.memories.created }

def prepareTmp (s : Cnconvert) : Cnconvert :=
  match s.tmpMem with
  | some _ => s
  | none => { s with memories := s.memories.alloc, tmpMem := some s.memories.created }

/-- The memories that the stages of a path take, with the pointers each puts before its workspace. -/
def process (s : Cnconvert) (workspaceSize : Nat) : Conversion.Path → Cnconvert
  | .resizeRgb => (s.prepareWorkspace (workspaceSize + 2 * 8)).prepareDst
  | .cvtRgb => (s.prepareWorkspace (2 * 8)).prepareDst
  | .resizeConvert => (s.prepareWorkspace (workspaceSize + 3 * 8)).prepareDst
  | .resizeThenCvt =>
    (((s.prepareWorkspace (workspaceSize + 2 * 8)).prepareTmp).prepareWorkspace (2 * 8)).prepareDst

/-- A new frame with a memory for each plane. -/
def receive (s : Cnconvert) : Nat → List Nat → Cnconvert
  | 0, frame => { s with frames := frame :: s.frames }
  | n + 1, frame => { s with memories := s.memories.alloc }.receive n (s.memories.created :: frame)

/-- `gst_mlu_frame_free` of a frame. -/
def unref (s : Cnconvert) (i : Nat) : Cnconvert :=
  { s with
    memories := s.memories.freeAll (s.frames[i]?.getD [])
    frames := s.frames.eraseIdx i }

/-- The frame that came is dropped, and a new one takes the output memory. -/
def updateMeta (s : Cnconvert) (shared : Bool) : Cnconvert :=
  let s := if shared then s else s.unref 0
  { s with frames := s.mluDstMem.toList :: s.frames, mluDstMem := none }

/-- The buffer is pushed, after a copy to the host when the output is there. -/
def push (s : Cnconvert) (c : Conversion) (shared : Bool) : Cnconvert :=
  if c.outputOnMlu ∨ shared then s else s.unref 0

/-- `gst_cnconvert_chain`. -/
def chain (s : Cnconvert) (c : Conversion) (b : Buffer) : Cnconvert :=
  let keeps := c.disableResize ∧ c.disableConvert
  -- a frame that the element makes itself is not shared
  let shared := b.shared ∧ c.inputOnMlu
  if keeps ∧ c.outputOnMlu = c.inputOnMlu then
    if c.inputOnMlu then s.receive c.sinkInfo.format.planes [] else s
  else if c.inputOnMlu = false ∧ c.sinkInfo.format = .i420 then
    -- `transform_to_mlu` fails, and leaves an empty frame
    s.receive 0 []
  else
    let s := s.receive c.sinkInfo.format.planes []
    if keeps then s.push c shared
    else
      match c.path with
      | none => s
      | some p => ((s.process b.workspaceSize p).updateMeta shared).push c false

inductive Label where
  | caps (e : CapsEvent)
  | chain (b : Buffer)
  /-- A frame is dropped by the last that holds it. -/
  | unref (i : Nat)
deriving DecidableEq, Repr

def next (s : Cnconvert) : Label → Option Cnconvert
  | .caps e => some (s.setcaps e)
  | .chain b => s.conversion.map fun c => s.chain c b
  | .unref i => if i < s.frames.length then some (s.unref i) else none

end Cnconvert

end CambriconGst.Gst
