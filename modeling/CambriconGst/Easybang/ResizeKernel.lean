import CambriconGst.Easybang.ResizeTables

/-!
# The kernel of resize and convert

`ResizeYuvToRgbaKernel` of `resize_yuv2rgba_kernel.mlu`: the copy filter, the loop over `w_iter` with
what is selected from a line of the source, and where the cores store. The end of an iteration in the
destination is a parameter of the loop; `Width.dstIdxWEnd` has it with exact quotients. What a buffer
holds that nothing was put in is a parameter.
-/

namespace CambriconGst.Easybang

open Lib

/-! ## The copy filter -/

/-- `loadCopyFilter` loads. -/
def loadsCopyFilter (mult : Nat) : Bool :=
  mult > 1 ∧ mult ≤ multLimit

/-- Module 5, the source image expansion. -/
inductive Expansion where
  | none | copyFilter | memcpy
deriving DecidableEq, Repr

def expansion (mult : Nat) : Expansion :=
  if mult > 1 ∧ mult ≤ multLimit then .copyFilter
  else if mult > multLimit then .memcpy
  else .none

/-! ## The loop over `w_iter` -/

/-- What the loop depends on. -/
structure Width where
  /-- `src_roi_w_`. -/
  evenW : Nat
  srcRoiW : Nat
  dstRoiW : Nat
  /-- `w_nram_max_load_num`. -/
  maxLoadNum : Nat
deriving DecidableEq, Repr

/-- One iteration. -/
structure Chunk where
  /-- The first column of the source. -/
  column : Nat
  /-- The column that the part of the masks starts at. -/
  maskColumn : Nat
  /-- `yuv_load_num`. -/
  loadNum : Nat
  /-- The pixel of the destination that the part of the weights starts at. -/
  weight : Nat
  /-- `dst_store_num`, in pixels. -/
  storeNum : Nat
  /-- Bytes from where the row starts. -/
  dstAddr : Nat
deriving DecidableEq, Repr

structure WidthState where
  srcIdxW : Nat
  dstIdxWStart : Nat
  maskColumn : Nat
  weight : Nat
  dstAddr : Nat
  chunks : List Chunk
deriving DecidableEq, Repr

namespace Width

/-- `w_nram_load_repeat`. -/
def loadRepeat (p : Width) : Nat :=
  if p.evenW / p.maxLoadNum ≠ 0 ∧ p.evenW % p.maxLoadNum = 0 then p.evenW / p.maxLoadNum - 1
  else p.evenW / p.maxLoadNum

/-- `w_nram_load_remainder`. -/
def loadRemainder (p : Width) : Nat :=
  if p.evenW / p.maxLoadNum ≠ 0 ∧ p.evenW % p.maxLoadNum = 0 then p.maxLoadNum
  else p.evenW % p.maxLoadNum

/-- `dst_idx_w_end`, with exact quotients. -/
def dstIdxWEnd (p : Width) (srcIdxW : Nat) : Nat :=
  let dstSrcScaleW : ℚ := p.dstRoiW / p.srcRoiW
  min ⌈srcIdxW * dstSrcScaleW + (dstSrcScaleW * (1 / 2) - 1 / 2)⌉.toNat p.dstRoiW

/-- The body of the loop. Where nothing is stored, `storeNum` is zero and the addresses stay. -/
def step (p : Width) (dstIdxWEnd : Nat → Nat) (s : WidthState) (wIter : Nat) : WidthState :=
  let loadNum := if wIter < p.loadRepeat then p.maxLoadNum else p.loadRemainder
  let srcIdxW := s.srcIdxW + loadNum
  let dstIdxWEnd := dstIdxWEnd srcIdxW
  let storeNum := dstIdxWEnd - s.dstIdxWStart
  { srcIdxW
    dstIdxWStart := dstIdxWEnd
    maskColumn := s.maskColumn + p.maxLoadNum
    weight := s.weight + storeNum
    dstAddr := s.dstAddr + storeNum * 4
    chunks := s.chunks ++
      [{ column := wIter * p.maxLoadNum, maskColumn := s.maskColumn, loadNum, weight := s.weight
         storeNum, dstAddr := s.dstAddr }] }

/-- The iterations, with `dst_idx_w_end` for a number of columns. -/
def chunksTo (p : Width) (dstIdxWEnd : Nat → Nat) : List Chunk :=
  ((List.range (p.loadRepeat + 1)).foldl (p.step dstIdxWEnd)
    { srcIdxW := 0, dstIdxWStart := 0, maskColumn := 0, weight := 0, dstAddr := 0
      chunks := [] }).chunks

def chunks (p : Width) : List Chunk :=
  p.chunksTo p.dstIdxWEnd

end Width

/-! ## What is selected from a line of the source -/

inductive Mask where
  | left | right
deriving DecidableEq, Repr

namespace Columns

/-- The group of the mask that is at `slot` is set. -/
def group (c : Columns) : Mask → Nat → Bool
  | .left, slot => (List.range c.dstRoiW).any fun d => c.maskLeftIndex d = slot
  | .right, slot => (List.range c.dstRoiW).any fun d =>
    c.maskRightIndex d = slot ∧ c.maskRightIndex d < (c.w + c.parity) * c.mult

/-- The weight of a pixel, as it is stored. -/
def weight (c : Columns) : Mask → Nat → ℚ
  | .left, d => binary16.cut (c.leftWeight d)
  | .right, d => binary16.cut (c.rightWeight d)

/-- `__bang_collect`: the slots of the chunk whose groups are set, in order. -/
def collect (c : Columns) (m : Mask) (ch : Chunk) : List Nat :=
  (List.range' (c.mult * ch.maskColumn) (c.mult * ch.loadNum)).filter (c.group m)

section Row

variable {α β : Type}

/-- What is at the place `j` of the selected pixels, each column having been copied `mult` times. -/
def selected (c : Columns) (src : Nat → α) (stale : Mask → Nat → α) (ch : Chunk) (m : Mask)
    (j : Nat) : α :=
  match (c.collect m ch)[j]? with
  | some slot => src (ch.column + (slot / c.mult - ch.maskColumn))
  | none => stale m j

/--
The pixel `j` that is stored for a chunk, from the two lines of the source. Modules 6 and 7 are a
parameter: what is stored for a left pixel and its weight, and a right pixel and its weight.
-/
def pixelOf (c : Columns) (blend : α → ℚ → α → ℚ → β) (src : Nat → α) (stale : Mask → Nat → α)
    (ch : Chunk) (j : Nat) : β :=
  blend (c.selected src stale ch .left j) (c.weight .left (ch.weight + j))
    (c.selected src stale ch .right j) (c.weight .right (ch.weight + j))

def width (c : Columns) (maxLoadNum : Nat) : Width where
  evenW := c.evenW
  srcRoiW := c.w
  dstRoiW := c.dstRoiW
  maxLoadNum := maxLoadNum

/-- What is stored for two lines of the source, iteration by iteration. -/
def row (c : Columns) (dstIdxWEnd : Nat → Nat) (blend : α → ℚ → α → ℚ → β) (src : Nat → α)
    (stale : Chunk → Mask → Nat → α) (maxLoadNum : Nat) : List β :=
  ((c.width maxLoadNum).chunksTo dstIdxWEnd).flatMap fun ch =>
    (List.range ch.storeNum).map (c.pixelOf blend src (stale ch) ch)

end Row

end Columns

/-! ## The stores -/

/-- A store to `dst_gdram`, in bytes. -/
structure Store where
  offset : Nat
  size : Nat
deriving DecidableEq, Repr

/-- `start_batch`. -/
def startBatch (batchNum taskDimY taskIdY : Nat) : Nat :=
  taskIdY * (batchNum / taskDimY) +
    if taskIdY < batchNum % taskDimY then taskIdY else batchNum % taskDimY

/-- `end_batch`. -/
def endBatch (batchNum taskDimY taskIdY : Nat) : Nat :=
  startBatch batchNum taskDimY taskIdY + batchNum / taskDimY +
    if taskIdY < batchNum % taskDimY then 1 else 0

def dstRoiHDeal (dstRoiH coreDim coreId : Nat) : Nat :=
  dstRoiH / coreDim + if coreId < dstRoiH % coreDim then 1 else 0

def dstRoiHOffset (dstRoiH coreDim coreId : Nat) : Nat :=
  dstRoiH / coreDim * coreId + if coreId < dstRoiH % coreDim then coreId else dstRoiH % coreDim

/-- What the kernel is started with. -/
structure Task where
  taskDimY : Nat
  coreDim : Nat
  keepAspectRatio : Bool
  padMethod : Int
  dst : Dst
  rois : List Roi
  /-- `w_nram_max_load_num` of a batch element. -/
  maxLoadNum : Nat → Nat

namespace Task

def dstRoi (t : Task) (roi : Roi) : DstRoi :=
  kernelDstRoi t.keepAspectRatio t.padMethod t.dst roi

def padOffset (t : Task) (roi : Roi) : Nat :=
  (if t.keepAspectRatio then 1 else 0) * (t.dstRoi roi).padHalf1 * 4 *
    if (t.dstRoi roi).padMode then 1 else t.dst.col

def width (t : Task) (batch : Nat) (roi : Roi) : Width where
  evenW := roi.evenW
  srcRoiW := roi.w
  dstRoiW := (t.dstRoi roi).w
  maxLoadNum := t.maxLoadNum batch

/-- The stores of a core for a batch element. -/
def batchStores (t : Task) (coreId batch : Nat) (roi : Roi) : List Store :=
  let segOffset := dstRoiHOffset (t.dstRoi roi).h t.coreDim coreId * t.dst.col * 4
  let dstAddr := batch * t.dst.row * t.dst.col * 4 + t.padOffset roi + segOffset
  (t.width batch roi).chunks.flatMap fun c =>
    if c.storeNum > 0 then
      (List.range (dstRoiHDeal (t.dstRoi roi).h t.coreDim coreId)).map fun hIter =>
        { offset := dstAddr + c.dstAddr + hIter * t.dst.col * 4, size := c.storeNum * 4 }
    else []

/-- The stores of a core. -/
def coreStores (t : Task) (taskIdY coreId : Nat) : List Store :=
  let start := startBatch t.rois.length t.taskDimY taskIdY
  let stop := endBatch t.rois.length t.taskDimY taskIdY
  (List.range' start (stop - start)).flatMap fun batch =>
    match t.rois[batch]? with
    | some roi => t.batchStores coreId batch roi
    | none => []

/-- The stores of all clusters and cores. -/
def stores (t : Task) : List Store :=
  (List.range t.taskDimY).flatMap fun taskIdY =>
    (List.range t.coreDim).flatMap (t.coreStores taskIdY)

end Task

end CambriconGst.Easybang
