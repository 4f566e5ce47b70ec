import CambriconGst.Easybang.Half
import CambriconGst.Easybang.ResizeGeometry
import CambriconGst.Lib.WriteLog

/-!
# The tables of resize and convert

`getResizedConvertWorkspaceSize` and `prepareMaskAndWeights` of `resize_yuv2rgba.cpp`. Addresses are
offsets in the workspace, which the caller has filled with zeros. Positions and weights are a
parameter, `Columns`, until they are stored as halves; `TableKey.columns` has them exact. Offsets and
indices are natural numbers; `IntsFit` is what the code needs for them to be its own.
-/

namespace CambriconGst.Easybang

open Lib

def ltNum : Nat := 64

def multLimit : Nat := 64

/-- `mult`: how many slots of a mask a column of the source has. -/
def mult (w dstRoiW : Nat) : Nat :=
  if w < dstRoiW then (⌈3 / 2 * (dstRoiW : ℚ) / w + 1 / 2⌉ - 1).toNat else 1

/-! ## What a mask and a weight hold -/

/-- What the masks and the weights depend on; `parity` is `cur_roi_x % 2`. -/
structure TableKey where
  parity : Nat
  w : Nat
  dstRoiW : Nat
deriving DecidableEq, Repr

/-- `mask_pointer` and `weight_pointer`, two of each. -/
structure Tables where
  maskLeft : Nat
  maskRight : Nat
  weightLeft : Nat
  weightRight : Nat
deriving DecidableEq, Repr

inductive Datum where
  | int (n : Nat)
  | half (q : ℚ)
  | int8 (n : Nat)
  | ptr (address : Nat)
deriving DecidableEq, Repr

namespace TableKey

def mult (k : TableKey) : Nat :=
  Easybang.mult k.w k.dstRoiW

/-- `cur_roi_w_`. -/
def evenW (k : TableKey) : Nat :=
  (k.parity + k.w + 1) / 2 * 2

/-- `src_w_iter`, the column that the column `d` of the destination is taken from. -/
def srcWIter (k : TableKey) (d : Nat) : ℚ :=
  let scale : ℚ := k.w / k.dstRoiW
  min (max (d * scale + (1 / 2 * scale - 1 / 2)) 0) (k.w - 1)

/-- `src_w_iter_int`. -/
def srcWIterInt (k : TableKey) (d : Nat) : Nat :=
  ⌊k.srcWIter d⌋.toNat

def rightWeight (k : TableKey) (d : Nat) : ℚ :=
  k.srcWIter d - k.srcWIterInt d

def weightBytes (k : TableKey) : Nat :=
  k.dstRoiW * 4 * 2

end TableKey

/-- What the loop over `dst_w_iter` goes by, in the arithmetic of the host. -/
structure Columns extends TableKey where
  mult : Nat
  srcWIterInt : Nat → Nat
  leftWeight : Nat → ℚ
  rightWeight : Nat → ℚ

/-- With exact positions. -/
abbrev TableKey.columns (k : TableKey) : Columns where
  toTableKey := k
  mult := k.mult
  srcWIterInt := k.srcWIterInt
  leftWeight d := 1 - k.rightWeight d
  rightWeight := k.rightWeight

namespace Columns

/-- `mask_left_index`. -/
def maskLeftIndex (c : Columns) : Nat → Nat
  | 0 => (c.srcWIterInt 0 + c.parity) * c.mult
  | d + 1 =>
    if c.srcWIterInt (d + 1) = c.srcWIterInt d then c.maskLeftIndex d + 1
    else (c.srcWIterInt (d + 1) + c.parity) * c.mult

/-- `mask_right_index`. -/
def maskRightIndex (c : Columns) (d : Nat) : Nat :=
  c.maskLeftIndex d + c.mult

/-- Bytes of a mask: four channels of half precision for each slot. -/
def maskBytes (c : Columns) : Nat :=
  c.mult * c.evenW * 4 * 2

/-- The pointers, when the tables are laid down from `start` on. -/
def tablesAt (c : Columns) (start : Nat) : Tables where
  maskLeft := start
  maskRight := start + c.maskBytes
  weightLeft := start + c.maskBytes + c.maskBytes
  weightRight := start + c.maskBytes + c.maskBytes + c.weightBytes

def bytes (c : Columns) : Nat :=
  c.maskBytes + c.maskBytes + c.weightBytes + c.weightBytes

end Columns

namespace TableKey

abbrev maskLeftIndex (k : TableKey) : Nat → Nat :=
  k.columns.maskLeftIndex

abbrev maskRightIndex (k : TableKey) : Nat → Nat :=
  k.columns.maskRightIndex

abbrev maskBytes (k : TableKey) : Nat :=
  k.columns.maskBytes

abbrev bytes (k : TableKey) : Nat :=
  k.columns.bytes

end TableKey

/-- `half::operator=(float)` of a number that is not negative: what `float2half` makes of it. -/
def toHalf (q : ℚ) : Datum :=
  .half (binary16.cut q)

/-- The four channels of the pixel `index` of a table. -/
def pixel (table index : Nat) (q : ℚ) : List (Write Datum) :=
  (List.range 4).map fun c =>
    { offset := table + (index * 4 + c) * 2, size := 2, datum := toHalf q }

/-- The body of the loop over `dst_w_iter`. -/
def tableColumn (c : Columns) (t : Tables) (d : Nat) : List (Write Datum) :=
  pixel t.maskLeft (c.maskLeftIndex d) 1 ++
    (if c.maskRightIndex d < (c.w + c.parity) * c.mult then
      pixel t.maskRight (c.maskRightIndex d) 1
    else []) ++
    pixel t.weightLeft d (c.leftWeight d) ++
    pixel t.weightRight d (c.rightWeight d)

def tableWrites (c : Columns) (start : Nat) : List (Write Datum) :=
  (List.range c.dstRoiW).flatMap (tableColumn c (c.tablesAt start))

/-! ## The copy filter -/

def copyFilterBytes (mult : Nat) : Nat :=
  ltNum * mult * ltNum

def copyFilterWrites (mult start : Nat) : List (Write Datum) :=
  (List.range ltNum).flatMap fun lt =>
    (List.range (ltNum * mult / ltNum)).map fun idx =>
      let originIdx := lt + idx * ltNum
      let realIdx := lt * (ltNum * mult / ltNum) + idx
      let dataOffset := originIdx / (mult * 4) * 4 + originIdx % 4
      { offset := start + (realIdx * ltNum + dataOffset), size := 1, datum := .int8 1 }

/-! ## The size -/

/-- The entries of `src_roi_x_list`, `src_roi_w_list`, `dst_roi_w_list` and `mult_list`. -/
structure ListEntry where
  srcRoiX : Nat
  srcRoiW : Nat
  dstRoiW : Nat
  mult : Nat
deriving DecidableEq, Repr

def listEntry (keepAspectRatio : Bool) (dst : Dst) (roi : Roi) : ListEntry :=
  let dstRoiW := dstRoiW keepAspectRatio dst roi
  { srcRoiX := roi.x, srcRoiW := roi.w, dstRoiW, mult := mult roi.w dstRoiW }

def ListEntry.tableKey (e : ListEntry) : TableKey where
  parity := e.srcRoiX % 2
  w := e.srcRoiW
  dstRoiW := e.dstRoiW

/-- The space of `mult` and of the pointers. -/
def headerBytes (batchNum : Nat) : Nat :=
  batchNum * 4 + batchNum * 2 * 8 + batchNum * 2 * 8 + batchNum * 8

/-- A value of the type `int`. One that overflows is taken to wrap around. -/
def asInt (n : Nat) : Int :=
  (n : Int).bmod (2 ^ 32)

/-- An `int` as a `size_t`. -/
def intSize (n : Nat) : Nat :=
  (asInt n % 2 ^ 64).toNat

structure SizeState where
  tempSize : Nat
  prev : List ListEntry
deriving DecidableEq, Repr

/-- The body of the loop in `getResizedConvertWorkspaceSize`. -/
def sizeStep (s : SizeState) (e : ListEntry) : SizeState :=
  let maskSize := intSize (2 * e.mult * e.tableKey.evenW * 4) * 2
  let weightSize := intSize (2 * e.dstRoiW * 4) * 2
  let repeated := s.prev.any fun p =>
    e.srcRoiX = p.srcRoiX ∧ e.srcRoiW = p.srcRoiW ∧ e.dstRoiW = p.dstRoiW
  let copyFilterSize :=
    if e.mult < multLimit then
      if s.prev.any fun p => e.mult = p.mult then 0 else ltNum * e.mult * ltNum
    else 0
  { tempSize :=
      (s.tempSize + (if repeated then 0 else maskSize + weightSize) + copyFilterSize) % 2 ^ 64
    prev := s.prev ++ [e] }

def getResizedConvertWorkspaceSize (keepAspectRatio : Bool) (dst : Dst) (rois : List Roi) : Nat :=
  ((rois.map (listEntry keepAspectRatio dst)).foldl sizeStep
    { tempSize := headerBytes rois.length, prev := [] }).tempSize

/-! ## The layout -/

/-- What is stored for a batch element at the front of the workspace. -/
inductive Slot where
  | mult | maskLeft | maskRight | weightLeft | weightRight | copyFilter
deriving DecidableEq, Repr

namespace Slot

def offset (batchNum i : Nat) : Slot → Nat
  | mult => i * 4
  | maskLeft => batchNum * 4 + i * 2 * 8
  | maskRight => batchNum * 4 + (i * 2 + 1) * 8
  | weightLeft => batchNum * 4 + batchNum * 2 * 8 + i * 2 * 8
  | weightRight => batchNum * 4 + batchNum * 2 * 8 + (i * 2 + 1) * 8
  | copyFilter => batchNum * 4 + batchNum * 2 * 8 + batchNum * 2 * 8 + i * 8

def size : Slot → Nat
  | mult => 4
  | _ => 8

def write (batchNum i : Nat) (slot : Slot) (datum : Datum) : Write Datum where
  offset := slot.offset batchNum i
  size := slot.size
  datum := datum

end Slot

/-- What the earlier batch elements left: their entries in the lists, and their pointers. -/
structure Element extends ListEntry where
  tables : Tables
  copyFilter : Option Nat
deriving DecidableEq, Repr

structure Workspace where
  /-- `cur_cpu_ptr` and `cur_mlu_ptr`. -/
  cur : Nat
  elements : List Element
  writes : List (Write Datum)
deriving DecidableEq, Repr

namespace Workspace

def put (ws : Workspace) (batchNum i : Nat) (slot : Slot) (datum : Datum) : Workspace :=
  { ws with writes := ws.writes ++ [slot.write batchNum i datum] }

/-- The pointer to a copy filter, when there is one. -/
def putCopyFilter (ws : Workspace) (batchNum i : Nat) : Option Nat → Workspace
  | some p => ws.put batchNum i .copyFilter (.ptr p)
  | none => ws

/-- The tables of an earlier element of the same key, or new ones. -/
def maskAndWeights (columns : TableKey → Columns) (ws : Workspace) (k : TableKey) :
    Tables × Workspace :=
  match ws.elements.find? fun p =>
      k.parity = p.srcRoiX % 2 ∧ k.w = p.srcRoiW ∧ k.dstRoiW = p.dstRoiW with
  | some p => (p.tables, ws)
  | none =>
    ((columns k).tablesAt ws.cur,
      { ws with
        cur := ws.cur + (columns k).bytes
        writes := ws.writes ++ tableWrites (columns k) ws.cur })

/-- The filter of an earlier element with the same `mult`, or a new one. -/
def copyFilter (ws : Workspace) (mult : Nat) : Option Nat × Workspace :=
  if mult < multLimit then
    match ws.elements.find? fun p => mult = p.mult with
    | some p => (p.copyFilter, ws)
    | none =>
      (some ws.cur,
        { ws with
          cur := ws.cur + copyFilterBytes mult
          writes := ws.writes ++ copyFilterWrites mult ws.cur })
  else (none, ws)

/-- The body of the loop in `prepareMaskAndWeights`. -/
def prepareElement (columns : TableKey → Columns) (batchNum : Nat) (ws : Workspace)
    (e : ListEntry) : Workspace :=
  let i := ws.elements.length
  let ws := ws.put batchNum i .mult (.int e.mult)
  let (tables, ws) := ws.maskAndWeights columns e.tableKey
  let ws := ws.put batchNum i .maskLeft (.ptr tables.maskLeft)
  let ws := ws.put batchNum i .maskRight (.ptr tables.maskRight)
  let ws := ws.put batchNum i .weightLeft (.ptr tables.weightLeft)
  let ws := ws.put batchNum i .weightRight (.ptr tables.weightRight)
  let (copyFilter, ws) := ws.copyFilter e.mult
  let ws := ws.putCopyFilter batchNum i copyFilter
  { ws with elements := ws.elements ++ [{ e with tables, copyFilter }] }

end Workspace

/-- What is prepared for the entries of a batch. -/
def prepareEntries (columns : TableKey → Columns) (entries : List ListEntry) : Workspace :=
  entries.foldl (Workspace.prepareElement columns entries.length)
    { cur := headerBytes entries.length, elements := [], writes := [] }

def prepareMaskAndWeights (keepAspectRatio : Bool) (dst : Dst) (rois : List Roi) : Workspace :=
  prepareEntries TableKey.columns (rois.map (listEntry keepAspectRatio dst))

/-! ## The type `int` -/

/-- What `prepareMaskAndWeights` computes for a key in the type `int` does not overflow. -/
structure Columns.IntsFit (c : Columns) : Prop where
  curRoiW : c.parity + c.w + 1 < 2 ^ 31
  dstRoiW : c.dstRoiW < 2 ^ 31
  mult : c.mult < 2 ^ 31
  mask : c.mult * c.evenW * 4 < 2 ^ 31
  weight : c.dstRoiW * 4 < 2 ^ 31
  maskEnd : (c.w + c.parity) * c.mult < 2 ^ 31
  maskLeft : ∀ d < c.dstRoiW, c.maskLeftIndex d * 4 + 3 < 2 ^ 31
  maskRight : ∀ d < c.dstRoiW, c.maskRightIndex d < 2 ^ 31
  maskRightSet : ∀ d < c.dstRoiW, c.maskRightIndex d < (c.w + c.parity) * c.mult →
    c.maskRightIndex d * 4 + 3 < 2 ^ 31
  copyFilter : c.mult < multLimit → copyFilterBytes c.mult < 2 ^ 31

abbrev TableKey.IntsFit (k : TableKey) : Prop :=
  k.columns.IntsFit

/-- Nor does what the two functions compute for a batch: where that overflows, C++ says nothing. -/
structure EntriesFit (columns : TableKey → Columns) (entries : List ListEntry) : Prop where
  roiRect : ∀ batchIter < entries.length, batchIter * 4 + 3 < 2 ^ 31
  maskSize : ∀ e ∈ entries, 2 * e.mult * e.tableKey.evenW * 4 < 2 ^ 31
  weightSize : ∀ e ∈ entries, 2 * e.dstRoiW * 4 < 2 ^ 31
  tables : ∀ e ∈ entries, (columns e.tableKey).IntsFit

abbrev IntsFit (keepAspectRatio : Bool) (dst : Dst) (rois : List Roi) : Prop :=
  EntriesFit TableKey.columns (rois.map (listEntry keepAspectRatio dst))

end CambriconGst.Easybang
