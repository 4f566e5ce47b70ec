import CambriconGst.Easybang.ResizePixels
import CambriconGst.Easybang.ResizeYuv420sp
import CambriconGst.Lib.Barrier
import CambriconGst.Lib.Near
import CambriconGst.Lib.Rounding

/-!
# The cores of the kernel of resize

What the cores of a cluster do in `MLUUnion1KernelResizeYuv420sp` of `ResizeKernel.mlu`: they load the
lines of the next rows into the SRAM that they share while they resize the ones before, and meet at
`__sync_cluster`. Copies to and from the SRAM go byte by byte. Halfs are rounded after each
instruction by whatever rounding, and `__bang_half2uchar_dn` is a parameter.
-/

namespace CambriconGst.Easybang.ResizeYuv420sp

open Lib Lib.Barrier

/-- `MAX_SEGMENT_HF`. -/
def maxSegmentHf : Nat := 4 * 1024

/-- `MAX_SEGMENT_SM_HF`. -/
def maxSegmentSmHf : Nat := 64 * 1024

/-- `BUFFER_SIZE`. -/
def bufferSize : Nat := maxSegment * 27 + 3 * 256

/-- Where `SV_r`, the last part of `buffer`, begins. -/
def svRStart : Nat := 27 * maxSegment + 2 * 256

/-- How results are rounded to halfs, which have 11 digits: in whatever direction. -/
structure HalfRounding where
  round : ℚ → ℚ
  natCast : ∀ n : Nat, n < 2 ^ 11 → round n = n
  rounds : Rounds (1 / 2 ^ 10) (1 / 2 ^ 24) (2 ^ 15) round

/-- To the nearest one. -/
def roundHalf (q : ℚ) : ℚ :=
  if q < 0 then -roundTo 11 (-q) else roundTo 11 q

theorem roundHalf_natCast (n : Nat) (hn : n < 2 ^ 11) : roundHalf n = n := by
  rw [roundHalf, if_neg (not_lt.mpr (Nat.cast_nonneg n)), (hasDigits_natCast hn).roundTo_eq]

theorem rounds_roundHalf : Rounds (1 / 2 ^ 10) (1 / 2 ^ 24) (2 ^ 15) roundHalf where
  u_nonneg := by norm_num
  η_nonneg := by norm_num
  near q _ := by
    unfold Near roundHalf
    split
    · next hneg =>
      have hle := abs_roundTo_sub_le 11 (neg_nonneg.mpr hneg.le)
      have habs : |-roundTo 11 (-q) - q| = |roundTo 11 (-q) - -q| := by
        rw [← abs_neg]
        congr 1
        ring
      rw [habs, abs_of_neg hneg]
      linarith
    · next hneg =>
      have hle := abs_roundTo_sub_le 11 (not_lt.mp hneg)
      rw [abs_of_nonneg (not_lt.mp hneg)]
      linarith

def HalfRounding.nearest : HalfRounding where
  round := roundHalf
  natCast := roundHalf_natCast
  rounds := rounds_roundHalf

/-- The planes of an image. -/
structure Image where
  y : Int → UInt8
  uv : Int → UInt8

/-- What the kernel is started with. -/
structure Kernel where
  sRow : Nat
  sCol : Nat
  srcStride0 : Nat
  srcStride1 : Nat
  /-- By `batchId`. -/
  image : Nat → Image
  dRow : Nat
  dCol : Nat
  batch : Nat
  coreDim : Nat
  clusterDim : Nat
  half : HalfRounding
  half2ucharDn : ℚ → UInt8

/-- What a core has in its NRAM. -/
structure Nram where
  src : Nat → UInt8
  weightX : Nat → ℚ
  wy0 : Nat → ℚ
  wy1 : Nat → ℚ
  /-- `sLine0`, `sLine1` and what is behind them. -/
  sLine : Nat → ℚ
  sLine0e : Nat → ℚ
  sLine1e : Nat → ℚ
  temp : Nat → ℚ
  /-- `sU0`, `sU1`, `sV0` and `sV1`. -/
  sUV : Nat → ℚ
  suR : Nat → ℚ
  svR : Nat → ℚ

/-- A row that is stored: in which plane of which image, where, and its bytes. -/
structure RowStore where
  plane : Plane
  batchId : Nat
  offset : Int
  byte : Nat → UInt8

abbrev Code := List (Instr Nat UInt8 Nram RowStore)

namespace Kernel

variable (k : Kernel)

def launch : Launch where
  sCol := k.sCol
  dRow := k.dRow
  dCol := k.dCol
  coreDim := k.coreDim

def dstDealNum : Nat :=
  dealNum k.dCol

def srcDealNum : Nat :=
  dealNum k.sCol

def padUv : Nat :=
  padUp (k.srcDealNum / 2) 64

def padUvR : Nat :=
  padUp (k.dstDealNum / 2) 64

def scaleY : Int :=
  scaleX k.sRow k.dRow

def rowLimit : Int :=
  k.sRow - 1

def colLimit : Int :=
  k.sCol - 1

/-! ## Positions and weights -/

/-- The whole part of a position, of those that are not negative. -/
def whole (p : Int) : Int :=
  (p >>> (16 : Nat)) * if p > 0 then 1 else 0

/-- The fraction of a position, in 15 digits. -/
def fraction (p : Int) : ℚ :=
  k.half.round (k.half.round (p % 65536 / 2 : Int) / 32768) * if p > 0 then 1 else 0

/-- `fx`. -/
def fx (posX : Int) : ℚ :=
  k.fraction posX * if whole posX < k.colLimit then 1 else 0

/-- `wx0` and `wx1`, and below `wy0` and `wy1`. -/
def weight0 (f : ℚ) : ℚ :=
  k.half.round (1 - f)

def weight1 (f : ℚ) : ℚ :=
  k.half.round (1 - k.weight0 f)

/-- `PY`. -/
def py (index : Int) (j : Nat) : Int :=
  k.scaleY / 2 - 32768 + index * k.scaleY + j * k.launch.rowseg * k.scaleY

/-- `fy`. -/
def fy (py : Int) : ℚ :=
  (k.fraction py * if whole py < k.rowLimit then 1 else 0) + if whole py = k.rowLimit then 1 else 0

/-- `sy`. -/
def sy (py : Int) : Int :=
  if whole py < k.rowLimit - 1 then whole py else k.rowLimit - 1

/-- The weights of `genMaskAndWeights`. -/
def genWeights (s : Nram) : Nram :=
  let pos j := (masks k.sCol k.dCol).positions.getD j 0
  { s with
    weightX := copyTo k.dstDealNum k.dCol (fun j => k.weight1 (k.fx (pos j)))
      (copyTo 0 k.dCol (fun j => k.weight0 (k.fx (pos j))) s.weightX) }

def maskX0 (i : Nat) : Bool :=
  (masks k.sCol k.dCol).buffer (maskX0Start + i) ≠ .zero

def maskX1 (i : Nat) : Bool :=
  (masks k.sCol k.dCol).buffer (maskX1Start + i) ≠ .zero

/-- `UVmask` and `UVmask1`. -/
def uvMask (i : Nat) : Bool :=
  i % 2 = 1

def uvMask1 (i : Nat) : Bool :=
  i % 2 = 0

/-! ## Loads -/

/-- `src_index`. -/
def srcIndex (posIndex j : Nat) : Int :=
  let lastRowSeg := k.launch.coreRowSeg j
  let last := lastRowSeg - if lastRowSeg < k.launch.rowseg then 1 else 0
  if posIndex < last then posIndex else last

/-- What is copied of a line of the source, for the row at `py`. -/
def lineByte (batchId : Nat) (py : Int) (line x : Nat) : UInt8 :=
  let image := k.image batchId
  let sy := k.sy py
  match line with
  | 0 => image.y (sy * k.srcStride0 + x)
  | 1 => image.y ((sy + 1) * k.srcStride0 + x)
  | 2 => image.uv (sy.tdiv 2 * k.srcStride1 + x)
  | _ => image.uv ((sy + 1).tdiv 2 * k.srcStride1 + x)

/-- The weights and the lines of the row that the core `j` has next. -/
def load (batchId : Nat) (parityS : Bool) (j : Nat) (py : Int) : Code :=
  .act (fun s => { s with
    wy0 := Function.update s.wy0 j (k.weight0 (k.fy py))
    wy1 := Function.update s.wy1 j (k.weight1 (k.fy py)) }) ::
  (List.range 4).flatMap fun line => (List.range k.srcDealNum).map fun x =>
    .write (parityS.toNat * maxSegmentSmHf + j * (4 * k.srcDealNum) + line * k.srcDealNum + x)
      (k.lineByte batchId py line x)

def loads (batchId : Nat) (parityS : Bool) (index : Nat → Int) : Code :=
  (List.range k.coreDim).flatMap fun j => k.load batchId parityS j (k.py (index j) j)

/-- `__memcpy` of the lines of the core. -/
def fetch (coreId : Nat) (parityS parityC : Bool) : Code :=
  (List.range (4 * k.srcDealNum)).map fun i =>
    .read (parityS.toNat * maxSegmentSmHf + coreId * 4 * k.srcDealNum + i) fun v s =>
      { s with src := Function.update s.src (parityC.toNat * 4 * maxSegmentHf + i) v }

/-! ## A row -/

/-- The places of `sU1`, `sV0` and `sV1` behind `sU0`. -/
def sU1 : Nat := 2 * maxSegment

def sV0 : Nat := 4 * maxSegment

def sV1 : Nat := 6 * maxSegment

/-- `convkernel`, `sumkernel0` and `sumkernel1` of `genKernel`. -/
def genKernel (even odd : Int) : Nat → Int :=
  writeCells (fun _ => 0) <| (List.range 32).flatMap fun i =>
    [(2 * i * 32 + i, even), ((2 * i + 1) * 32 + i, odd)]

/-- `__bang_half2int16_rd`, and `__bang_conv` of `n` of them. -/
def convHalf (filter : Nat → Int) (n : Nat) (src : Nat → ℚ) (i : Nat) : ℚ :=
  k.half.round (bangConv ci 1 (n / ci) (ci * 2) filter (fun j => ⌊src j⌋) i)

/-- The chroma of a line, each value twice, to `dst`. -/
def spread (mask : Nat → Bool) (line dst : Nat) (s : Nram) : Nram :=
  let temp := bangCollect 0 (fun i => s.sLine (line * k.srcDealNum + i)) mask k.srcDealNum s.temp
  { s with
    temp
    sUV := copyTo dst (2 * k.padUv) (k.convHalf (genKernel 1 1) k.padUv temp) s.sUV }

/-- The chromas of both lines. -/
def chroma (s : Nram) : Nram :=
  let s := k.spread uvMask 3 sU1 (k.spread uvMask 2 0 s)
  k.spread uvMask1 3 sV1 (k.spread uvMask1 2 sV0 s)

/-- An operation on `n` halfs at `i` and at `j`, to `i`. -/
def map2 (f : ℚ → ℚ → ℚ) (i j n : Nat) (buffer : Nat → ℚ) : Nat → ℚ :=
  copyTo i n (fun x => k.half.round (f (buffer (i + x)) (buffer (j + x)))) buffer

/-- What `__bang_collect` and `__bang_mul` of `resize` leave in `src_e0`, or in `src_e1`. -/
def columns (weightX src e : Nat → ℚ) : Nat → ℚ :=
  let n := k.srcDealNum
  let m := k.dstDealNum
  let e := bangCollect m src k.maskX1 n (bangCollect 0 src k.maskX0 n e)
  copyTo 0 (m * 2) (fun i => k.half.round (e i * weightX i)) e

/-- What `resize` leaves in the buffer, and in `src_e0` and `src_e1`. -/
def resize (weightX : Nat → ℚ) (wy0 wy1 : ℚ) (src0 src1 : Nat) (buffer e0 e1 : Nat → ℚ) :
    (Nat → ℚ) × (Nat → ℚ) × (Nat → ℚ) :=
  let m := k.dstDealNum
  let e0 := k.columns weightX (fun i => buffer (src0 + i)) e0
  let e1 := k.columns weightX (fun i => buffer (src1 + i)) e1
  let buffer := copyTo src0 m (fun i => k.half.round (e0 i + e0 (m + i))) buffer
  let buffer := copyTo src1 m (fun i => k.half.round (e1 i + e1 (m + i))) buffer
  let buffer := k.map2 (fun x _ => x * wy0) src0 src0 m buffer
  let buffer := k.map2 (fun x _ => x * wy1) src1 src1 m buffer
  (k.map2 (· + ·) src0 src1 m buffer, e0, e1)

def resizeLine (coreId : Nat) (s : Nram) : Nram :=
  let r := k.resize s.weightX (s.wy0 coreId) (s.wy1 coreId) 0 k.srcDealNum s.sLine s.sLine0e s.sLine1e
  { s with sLine := r.1, sLine0e := r.2.1, sLine1e := r.2.2 }

def resizeUV (coreId src0 src1 : Nat) (s : Nram) : Nram :=
  let r := k.resize s.weightX (s.wy0 coreId) (s.wy1 coreId) src0 src1 s.sUV s.sLine0e s.sLine1e
  { s with sUV := r.1, sLine0e := r.2.1, sLine1e := r.2.2 }

/-- `__bang_uchar2half`. -/
def convert (parityC : Bool) (s : Nram) : Nram :=
  { s with
    sLine := copyTo 0 (k.srcDealNum * 4)
      (fun i => (s.src (parityC.toNat * 4 * maxSegmentHf + i)).toNat) s.sLine }

/-- The copies for the first of two rows. -/
def keepFirst (parityC : Bool) (s : Nram) : Nram :=
  if parityC then
    { s with
      suR := copyTo 0 k.dstDealNum s.sUV s.suR
      svR := copyTo 0 k.dstDealNum (fun i => s.sUV (sV0 + i)) s.svR }
  else s

/-- From `__bang_uchar2half` to the copies for the first of two rows. -/
def compute (coreId : Nat) (parityC : Bool) (s : Nram) : Nram :=
  let s := k.resizeLine coreId (k.chroma (k.convert parityC s))
  k.keepFirst parityC (k.resizeUV coreId sV0 sV1 (k.resizeUV coreId 0 sU1 s))

/-- `__bang_half2uchar_dn` of what is less by 256 above 127. -/
def uchar (q : ℚ) : UInt8 :=
  k.half2ucharDn (k.half.round (q - if q > 127 then 256 else 0))

/-- The sums of the chromas of two rows. -/
def addRows (s : Nram) : Nram :=
  let m := k.dstDealNum
  { s with
    suR := copyTo 0 m (fun i => k.half.round (s.suR i + s.sUV i)) s.suR
    svR := copyTo 0 m (fun i => k.half.round (s.svR i + s.sUV (sV0 + i))) s.svR }

/-- Their odd and their even columns. -/
def splitColumns (s : Nram) : Nram :=
  let m := k.dstDealNum
  let sUV := bangCollect sV0 s.svR uvMask m (bangCollect 0 s.suR uvMask m s.sUV)
  { s with sUV := bangCollect sV1 s.svR uvMask1 m (bangCollect sU1 s.suR uvMask1 m sUV) }

/-- The quarters of the sums of both. -/
def average (s : Nram) : Nram :=
  let suR := copyTo 0 k.padUvR (fun i => k.half.round (s.sUV (sU1 + i) + s.sUV i)) s.suR
  let svR := copyTo 0 k.padUvR (fun i => k.half.round (s.sUV (sV1 + i) + s.sUV (sV0 + i))) s.svR
  let sUV := copyTo 0 k.padUvR (fun i => k.half.round (suR i * (1 / 4))) s.sUV
  { s with
    suR
    svR
    sUV := copyTo sV0 k.padUvR (fun i => k.half.round (svR i * (1 / 4))) sUV }

/-- Both chromas in one row. -/
def interleave (s : Nram) : Nram :=
  let suR := copyTo 0 (2 * k.padUvR) (k.convHalf (genKernel 0 1) k.padUvR s.sUV) s.suR
  let svR := copyTo 0 (2 * k.padUvR)
    (k.convHalf (genKernel 1 0) k.padUvR fun i => s.sUV (sV0 + i)) s.svR
  { s with
    suR := copyTo 0 k.dstDealNum (fun i => k.half.round (suR i + svR i)) suR
    svR }

/-- The chroma of two rows. -/
def computeUV (s : Nram) : Nram :=
  k.interleave (k.average (k.splitColumns (k.addRows s)))

def storeY (batchId coreId : Nat) (dstIndex : Int) (s : Nram) : RowStore where
  plane := .y
  batchId := batchId
  offset := (k.launch.yStore coreId dstIndex).offset
  byte i := k.uchar (s.sLine i)

def storeUV (batchId coreId : Nat) (uvIndex : Int) (s : Nram) : RowStore where
  plane := .uv
  batchId := batchId
  offset := (k.launch.uvStore coreId uvIndex).offset
  byte i := k.uchar (s.suR i)

/-- The second of two rows. -/
def pairUV (batchId coreId : Nat) (parityC : Bool) (uvIndex : Int) : Code :=
  if parityC = false then [.act k.computeUV, .store (k.storeUV batchId coreId uvIndex)] else []

/-! ## All rows -/

/-- A core in the middle of an image: its code up to there. -/
structure RowLoop where
  core : CoreState
  posIndex : Nat
  parityS : Bool
  code : Code

/-- What is before the loop. -/
def firstLoad (batchId : Nat) : RowLoop where
  core := .start
  posIndex := 1
  parityS := true
  code := k.loads batchId true (fun _ => 0) ++ [.sync]

/-- The body of the loop over `rowseg - 1` rows. -/
def rowBody (batchId coreId : Nat) (s : RowLoop) : RowLoop :=
  let dstIndex := if s.core.dstIndex < k.launch.coreRowSeg coreId - 1 then s.core.dstIndex
    else k.launch.coreRowSeg coreId - 1
  let parityC := !s.core.parityC
  let parityS := !s.parityS
  { core := k.launch.loopBody coreId s.core
    posIndex := s.posIndex + 1
    parityS
    code := s.code ++ k.fetch coreId s.parityS parityC ++ [.act (k.compute coreId parityC)] ++
      k.loads batchId parityS (k.srcIndex s.posIndex) ++ [.sync] ++
      [.store (k.storeY batchId coreId dstIndex)] ++
      k.pairUV batchId coreId parityC s.core.uvIndex }

/-- The row behind the loop. -/
def lastBody (batchId coreId : Nat) (s : RowLoop) : Code :=
  let parityC := !s.core.parityC
  s.code ++ k.fetch coreId s.parityS parityC ++ [.act (k.compute coreId parityC)] ++
    [.store (k.storeY batchId coreId s.core.dstIndex)] ++
    k.pairUV batchId coreId parityC s.core.uvIndex

/-- What a core does for an image; wide images are still to be done. -/
def imageCode (batchId coreId : Nat) : Code :=
  if k.launch.colseg ≠ 0 then []
  else if k.launch.rowseg ≠ 0 then
    k.lastBody batchId coreId ((k.rowBody batchId coreId)^[k.launch.rowseg - 1]
      (k.firstLoad batchId))
  else []

/-! ## All cores -/

/-- `start`. -/
def start (clusterId : Nat) : Nat :=
  clusterId * (k.batch / k.clusterDim) +
    if clusterId < k.batch % k.clusterDim then clusterId else k.batch % k.clusterDim

def batchNum (clusterId : Nat) : Nat :=
  k.batch / k.clusterDim + if k.batch % k.clusterDim > clusterId then 1 else 0

def coreCode (clusterId coreId : Nat) : Code :=
  .act k.genWeights :: (List.range' (k.start clusterId) (k.batchNum clusterId)).flatMap fun batchId =>
    k.imageCode batchId coreId

/-- No product of `int`s overflows, and no offset. -/
structure IntsFit : Prop where
  launch : k.launch.IntsFit
  batch : k.batch < 2 ^ 31
  position : k.sRow < 2 ^ 15
  src0 : k.sRow * k.srcStride0 < 2 ^ 31
  src1 : k.sRow * k.srcStride1 < 2 ^ 31
  dst : k.dRow * k.dCol < 2 ^ 31

/-- A cluster, whatever its memories hold. -/
def cluster (clusterId : Nat) (sram : Nat → UInt8) (nram : Fin k.coreDim → Nram) :
    Cores (Fin k.coreDim) Nat UInt8 Nram RowStore where
  memory := sram
  code coreId := k.coreCode clusterId coreId
  st := nram
  out := []

/-- The bytes that are stored to a plane of an image, and where, in their order. -/
def bytes (plane : Plane) (batchId : Nat) (out : List (Fin k.coreDim × RowStore)) :
    List (Nat × UInt8) :=
  (out.filter fun o => o.2.plane = plane ∧ o.2.batchId = batchId).flatMap fun o =>
    (List.range k.dCol).map fun i => ((o.2.offset + i).toNat, o.2.byte i)

end Kernel

end CambriconGst.Easybang.ResizeYuv420sp
