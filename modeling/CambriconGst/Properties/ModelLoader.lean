import CambriconGst.Easyinfer.ModelLoader
import CambriconGst.Lib.Transition
import Mathlib.Data.List.OfFn
import Mathlib.Order.Basic

/-!
# Offline models

* `loadFunction_describes`: what is kept has one entry for each tensor
* `accessors_guarded_iff`: which models and indices are read and written inside
-/

namespace CambriconGst.Easyinfer

open Lib

/-! ## What is kept -/

/-- One entry for each tensor. -/
structure Describes (t : CnrtTensors) (ts : Tensors) : Prop where
  num : ts.num = t.dataSizes.length
  dataSizes : ts.dataSizes.length = ts.num
  mluLayouts : ts.mluLayouts.length = ts.num
  cpuLayouts : ts.cpuLayouts.length = ts.num
  shapexs : ts.shapexs = t.dims.map ShapeEx.mk

variable {α : Type} {t : CnrtTensors} {ts : Tensors} {i : Int}

theorem length_dims (t : CnrtTensors) : t.dims.length = t.dataSizes.length := by
  simp [CnrtTensors.dims]

theorem loadTensors_describes {wrongNum : String} (h : loadTensors t wrongNum = .ok ts) :
    Describes t ts := by
  unfold loadTensors at h
  by_cases hn : t.dtypes.length = t.dataSizes.length
  · rw [if_neg (not_not.mpr hn)] at h
    obtain ⟨dtypes, hcast, h⟩ := bind_eq_ok.mp h
    obtain rfl := Except.ok.inj h
    have hlen : t.dtypes.length = dtypes.length := (mapM_eq_ok.mp hcast).length_eq
    have hlt := t.length_lt
    have hnum : toUint32 t.dataSizes.length = t.dataSizes.length := by
      unfold toUint32
      omega
    constructor
    · exact hnum
    · exact hnum.symm
    · simp only [List.length_map, hnum]
      omega
    · simp only [List.length_replicate, hnum]
    · rfl
  · rw [if_pos hn] at h
    cases h

theorem loadFunction_describes {input output : CnrtTensors} {m : ModelLoader}
    (h : loadFunction input output = .ok m) :
    Describes input m.input ∧ Describes output m.output := by
  obtain ⟨tsIn, hi, h⟩ := bind_eq_ok.mp h
  obtain ⟨tsOut, ho, h⟩ := bind_eq_ok.mp h
  obtain rfl := Except.ok.inj h
  exact ⟨loadTensors_describes hi, loadTensors_describes ho⟩

/-- A setter changes one layout. -/
theorem Describes.setCpuLayout (h : Describes t ts) {outOfRange : String} {layout : DataLayout}
    {ts' : Tensors} (hs : ts.setCpuLayout outOfRange layout i = .ok ts') : Describes t ts' := by
  unfold Tensors.setCpuLayout at hs
  split at hs
  · cases hs
  · split at hs
    · cases hs
    · obtain ⟨layouts, hm, hs⟩ := bind_eq_ok.mp hs
      obtain rfl := Except.ok.inj hs
      obtain ⟨-, rfl⟩ := modifyAt_eq_ok.mp hm
      exact ⟨h.num, h.dataSizes, h.mluLayouts, by rw [List.length_modify]; exact h.cpuLayouts,
        h.shapexs⟩

/-- Models that have been loaded, with any layouts set since. -/
abbrev Loaded (input output : CnrtTensors) (m : ModelLoader) : Prop :=
  Reachable (fun m => loadFunction input output = .ok m)
    (fun m m' => ∃ layout i, m.setCpuInputLayout layout i = .ok m' ∨
      m.setCpuOutputLayout layout i = .ok m') m

theorem loaded_describes {input output : CnrtTensors} {m : ModelLoader}
    (h : Loaded input output m) :
    Describes input m.input ∧ Describes output m.output := by
  refine h.invariant (I := fun m => Describes input m.input ∧ Describes output m.output)
    (fun m => loadFunction_describes) ?_
  rintro m m' ⟨hi, ho⟩ ⟨layout, i, hs | hs⟩
  · obtain ⟨ts, hset, hs⟩ := bind_eq_ok.mp hs
    obtain rfl := Except.ok.inj hs
    exact ⟨hi.setCpuLayout hset, ho⟩
  · obtain ⟨ts, hset, hs⟩ := bind_eq_ok.mp hs
    obtain rfl := Except.ok.inj hs
    exact ⟨hi, ho.setCpuLayout hset⟩

/-! ## The dimensions -/

theorem writeDims_writes (dims : List Int) : (writeDims dims).writes = List.range dims.length := by
  have hrun : ∀ (ds : List (Int × Nat)) (v : DimValue),
      (ds.foldl (fun v d => DimValue.mk (v.values.set d.2 (toUint32 d.1)) (v.writes ++ [d.2]))
        v).writes = v.writes ++ ds.map Prod.snd := by
    intro ds
    induction ds with
    | nil => exact fun v => (List.append_nil _).symm
    | cons d ds ih =>
      intro v
      rw [List.foldl_cons, ih, List.append_assoc]
      rfl
  rw [writeDims, hrun, List.nil_append, List.zipIdx_map_snd, List.range_eq_range']

/-- Every tensor has at most four dimensions. -/
def CnrtTensors.FourDims (t : CnrtTensors) : Prop :=
  ∀ i < t.dataSizes.length, (t.dataShape i).length ≤ 4

theorem dimWrites_lt_iff : (∀ idx ∈ t.dimWrites, idx < 4) ↔ t.FourDims := by
  simp only [CnrtTensors.dimWrites, CnrtTensors.dims, List.mem_flatMap, List.mem_map,
    List.mem_range, writeDims_writes, CnrtTensors.FourDims]
  constructor
  · intro h i hi
    by_contra hlt
    exact absurd (h 4 ⟨_, ⟨i, hi, rfl⟩, by omega⟩) (by omega)
  · rintro h idx ⟨_, ⟨i, hi, rfl⟩, hidx⟩
    exact hidx.trans_le (h i hi)

/-! ## The accessors -/

/-- Nothing outside is accessed, and out of range there is an exception or the error value. -/
def Guarded (r : Except Fault α) (errorValue : Option α) (inRange : Prop) : Prop :=
  r ≠ .error .outOfBounds ∧
    (¬inRange → (∃ what, r = .error (.invalidArg what)) ∨ ∃ v, errorValue = some v ∧ r = .ok v)

/-- The index of a tensor. -/
def InRange (n : Nat) (dataIndex : Int) : Prop :=
  0 ≤ dataIndex ∧ dataIndex < n

theorem toInt32_of_lt {n : Nat} (h : n < 2 ^ 31) : toInt32 n = n := by
  unfold toInt32
  rw [Int.bmod_def]
  omega

theorem Describes.out_iff (h : Describes t ts) :
    (i < 0 ∨ i ≥ toInt32 ts.num) ↔ ¬InRange t.dataSizes.length i := by
  have hlt := t.length_lt
  have hnum : toInt32 ts.num = t.dataSizes.length := by
    rw [h.num, toInt32_of_lt hlt]
  rw [hnum]
  unfold InRange
  omega

theorem readAt_inRange {values : List α} (hlen : values.length = t.dataSizes.length)
    (hi : InRange t.dataSizes.length i) :
    ∃ v, readAt Fault.outOfBounds values i.toNat = .ok v := by
  have hlt : i.toNat < values.length := by
    obtain ⟨h0, hlt⟩ := hi
    omega
  exact ⟨_, readAt_of_lt hlt⟩

theorem Describes.get (h : Describes t ts) {values : List α} (hlen : values.length = ts.num)
    (errorValue : α) (i : Int) :
    Guarded (ts.get values errorValue i) (some errorValue) (InRange t.dataSizes.length i) := by
  unfold Tensors.get
  by_cases hi : InRange t.dataSizes.length i
  · obtain ⟨v, hv⟩ := readAt_inRange (hlen.trans h.num) hi
    rw [if_neg (mt h.out_iff.mp (not_not.mpr hi)), hv]
    exact ⟨by simp, fun hout => absurd hi hout⟩
  · rw [if_pos (h.out_iff.mpr hi)]
    exact ⟨by simp, fun _ => .inr ⟨errorValue, rfl, rfl⟩⟩

theorem Describes.setCpuLayout_guarded (h : Describes t ts) (hi : i < 2 ^ 31)
    (outOfRange : String) (layout : DataLayout) :
    Guarded (ts.setCpuLayout outOfRange layout i) none (InRange t.dataSizes.length i) := by
  have hout : (i < 0 ∨ toUint32 i ≥ ts.num) ↔ ¬InRange t.dataSizes.length i := by
    have hnum := h.num
    unfold InRange toUint32
    omega
  unfold Tensors.setCpuLayout
  by_cases hr : InRange t.dataSizes.length i
  · rw [if_neg (mt hout.mp (not_not.mpr hr))]
    refine ⟨?_, fun hn => absurd hr hn⟩
    split
    · simp
    · have hlt : i.toNat < ts.cpuLayouts.length := by
        have := h.cpuLayouts
        have := h.num
        obtain ⟨h0, hlt⟩ := hr
        omega
      rw [modifyAt, if_pos hlt]
      simp [bind, Except.bind, pure, Except.pure]
  · rw [if_pos (hout.mpr hr)]
    exact ⟨by simp, fun _ => .inl ⟨outOfRange, rfl⟩⟩

/-- The shape at the index that is the number of tensors is read outside. -/
theorem Describes.shape_guarded_iff (h : Describes t ts) (overflow : String) (index : Nat) :
    Guarded (ts.shape overflow index) none (index < t.dataSizes.length) ↔
      index ≠ t.dataSizes.length := by
  have hlen : ts.shapexs.length = t.dataSizes.length := by
    rw [h.shapexs, List.length_map, length_dims]
  unfold Tensors.shape
  rw [h.num]
  by_cases hgt : index > t.dataSizes.length
  · rw [if_pos hgt]
    exact ⟨fun _ => by omega, fun _ => ⟨by simp, fun _ => .inl ⟨overflow, rfl⟩⟩⟩
  · rw [if_neg hgt]
    constructor
    · rintro ⟨hin, -⟩ rfl
      refine hin ?_
      rw [readAt, List.getElem?_eq_none hlen.le]
    · intro hne
      have hlt : index < t.dataSizes.length := by omega
      rw [readAt_of_lt (hlen ▸ hlt)]
      exact ⟨by simp, fun hout => absurd hlt hout⟩

/-- The batch size of a shape without dimensions is read outside. -/
theorem Describes.dataBatchAlignSize_guarded_iff (h : Describes t ts) (i : Int) :
    Guarded (ts.dataBatchAlignSize i) (some 0) (InRange t.dataSizes.length i) ↔
      (InRange t.dataSizes.length i → t.dataShape i.toNat ≠ []) := by
  unfold Tensors.dataBatchAlignSize
  by_cases hi : InRange t.dataSizes.length i
  · have hlt : i.toNat < t.dataSizes.length := by
      obtain ⟨h0, hlt⟩ := hi
      omega
    have hout := mt h.out_iff.mp (not_not.mpr hi)
    have hshape : readAt Fault.outOfBounds ts.shapexs i.toNat = .ok ⟨t.dataShape i.toNat⟩ := by
      refine readAt_eq_ok.mpr ?_
      rw [h.shapexs, List.getElem?_map, CnrtTensors.dims, List.getElem?_map,
        List.getElem?_range hlt]
      rfl
    obtain ⟨size, hsize⟩ := readAt_inRange (h.dataSizes.trans h.num) hi
    rw [if_neg hout, Tensors.get, if_neg hout, hsize, hshape]
    simp only [bind, Except.bind]
    cases hdims : t.dataShape i.toNat with
    | nil => simp [Guarded, readAt, hi]
    | cons batch dims =>
      simp only [Guarded, readAt, List.getElem?_cons_zero]
      split <;> simp [hi]
  · rw [if_pos (h.out_iff.mpr hi)]
    exact ⟨fun _ hr => absurd hr hi, fun _ => ⟨by simp, fun _ => .inr ⟨0, rfl, rfl⟩⟩⟩

/-! ## All of them -/

/-- The accessors that take the index of a tensor, with it. -/
inductive Accessor where
  | inputDataSize (dataIndex : Int32)
  | outputDataSize (dataIndex : Int32)
  | getMluInputLayout (dataIndex : Int32)
  | getMluOutputLayout (dataIndex : Int32)
  | setCpuInputLayout (layout : DataLayout) (dataIndex : Int32)
  | setCpuOutputLayout (layout : DataLayout) (dataIndex : Int32)
  | getCpuInputLayout (dataIndex : Int32)
  | getCpuOutputLayout (dataIndex : Int32)
  | inputShape (index : UInt32)
  | outputShape (index : UInt32)
  | getInputDataBatchAlignSize (dataIndex : Int32)
  | getOutputDataBatchAlignSize (dataIndex : Int32)

namespace Accessor

variable (input output : CnrtTensors)

/-- The accessor is guarded against indices out of range. -/
def Right (m : ModelLoader) : Accessor → Prop
  | inputDataSize i =>
    Guarded (m.inputDataSize i.toInt) (some 0) (InRange input.dataSizes.length i.toInt)
  | outputDataSize i =>
    Guarded (m.outputDataSize i.toInt) (some 0) (InRange output.dataSizes.length i.toInt)
  | getMluInputLayout i =>
    Guarded (m.getMluInputLayout i.toInt) (some .empty) (InRange input.dataSizes.length i.toInt)
  | getMluOutputLayout i =>
    Guarded (m.getMluOutputLayout i.toInt) (some .empty) (InRange output.dataSizes.length i.toInt)
  | setCpuInputLayout layout i =>
    Guarded (m.setCpuInputLayout layout i.toInt) none (InRange input.dataSizes.length i.toInt)
  | setCpuOutputLayout layout i =>
    Guarded (m.setCpuOutputLayout layout i.toInt) none (InRange output.dataSizes.length i.toInt)
  | getCpuInputLayout i =>
    Guarded (m.getCpuInputLayout i.toInt) (some .empty) (InRange input.dataSizes.length i.toInt)
  | getCpuOutputLayout i =>
    Guarded (m.getCpuOutputLayout i.toInt) (some .empty) (InRange output.dataSizes.length i.toInt)
  | inputShape i => Guarded (m.inputShape i.toNat) none (i.toNat < input.dataSizes.length)
  | outputShape i => Guarded (m.outputShape i.toNat) none (i.toNat < output.dataSizes.length)
  | getInputDataBatchAlignSize i =>
    Guarded (m.getInputDataBatchAlignSize i.toInt) (some 0)
      (InRange input.dataSizes.length i.toInt)
  | getOutputDataBatchAlignSize i =>
    Guarded (m.getOutputDataBatchAlignSize i.toInt) (some 0)
      (InRange output.dataSizes.length i.toInt)

/-- The index is not the number of tensors, and the tensor has a dimension to divide by. -/
def InOrder : Accessor → Prop
  | inputShape i => i.toNat ≠ input.dataSizes.length
  | outputShape i => i.toNat ≠ output.dataSizes.length
  | getInputDataBatchAlignSize i =>
    InRange input.dataSizes.length i.toInt → input.dataShape i.toInt.toNat ≠ []
  | getOutputDataBatchAlignSize i =>
    InRange output.dataSizes.length i.toInt → output.dataShape i.toInt.toNat ≠ []
  | _ => True

end Accessor

/-- What is done with the result is of no account. -/
theorem guarded_map {β : Type} {r : Except Fault α} {f : α → β} {inRange : Prop}
    (h : Guarded r none inRange) : Guarded (r >>= fun a => pure (f a)) none inRange := by
  cases r with
  | ok a =>
    refine ⟨by simp [bind, Except.bind, pure, Except.pure], fun hout => ?_⟩
    rcases h.2 hout with ⟨what, he⟩ | ⟨v, he, -⟩
    · cases he
    · cases he
  | error e =>
    refine ⟨fun he => h.1 (congrArg Except.error (Except.error.inj he)), fun hout => ?_⟩
    rcases h.2 hout with ⟨what, he⟩ | ⟨v, he, -⟩
    · exact .inl ⟨what, congrArg Except.error (Except.error.inj he)⟩
    · cases he

theorem Accessor.right_iff {input output : CnrtTensors} {m : ModelLoader}
    (hi : Describes input m.input) (ho : Describes output m.output) (a : Accessor) :
    a.Right input output m ↔ a.InOrder input output := by
  cases a with
  | inputDataSize i => exact iff_of_true (hi.get hi.dataSizes 0 _) trivial
  | outputDataSize i => exact iff_of_true (ho.get ho.dataSizes 0 _) trivial
  | getMluInputLayout i => exact iff_of_true (hi.get hi.mluLayouts .empty _) trivial
  | getMluOutputLayout i => exact iff_of_true (ho.get ho.mluLayouts .empty _) trivial
  | setCpuInputLayout layout i =>
    exact iff_of_true (guarded_map (hi.setCpuLayout_guarded i.toInt_lt _ _)) trivial
  | setCpuOutputLayout layout i =>
    exact iff_of_true (guarded_map (ho.setCpuLayout_guarded i.toInt_lt _ _)) trivial
  | getCpuInputLayout i => exact iff_of_true (hi.get hi.cpuLayouts .empty _) trivial
  | getCpuOutputLayout i => exact iff_of_true (ho.get ho.cpuLayouts .empty _) trivial
  | inputShape i => exact hi.shape_guarded_iff _ _
  | outputShape i => exact ho.shape_guarded_iff _ _
  | getInputDataBatchAlignSize i => exact hi.dataBatchAlignSize_guarded_iff _
  | getOutputDataBatchAlignSize i => exact ho.dataBatchAlignSize_guarded_iff _

/--
**Which models and indices are read and written inside.**

Of a model that is loaded, with any layouts set since: the dimensions are written inside their array
and an accessor is guarded, just when no tensor has more than four dimensions, and the accessor is
not asked for the shape behind the last, nor for the batch size of a tensor without dimensions.
-/
theorem accessors_guarded_iff {input output : CnrtTensors} {m : ModelLoader}
    (h : Loaded input output m) (a : Accessor) :
    ((∀ idx ∈ input.dimWrites ++ output.dimWrites, idx < 4) ∧ a.Right input output m) ↔
      (input.FourDims ∧ output.FourDims) ∧ a.InOrder input output := by
  obtain ⟨hi, ho⟩ := loaded_describes h
  rw [a.right_iff hi ho, ← dimWrites_lt_iff, ← dimWrites_lt_iff]
  simp only [List.mem_append, or_imp, forall_and]

/-! ## Samples -/

/-- Two inputs, one with all four dimensions. -/
def sampleInput : CnrtTensors where
  dataSizes := [6, 192]
  dataShape i := if i = 0 then [2, 3] else [2, 1, 4, 6]
  dtypes := [.uint8, .float32]
  length_lt := by decide

def sampleOutput : CnrtTensors where
  dataSizes := [16, 48, 40]
  dataShape i := if i = 0 then [4] else if i = 1 then [2, 3, 2, 2] else [5, 2]
  dtypes := [.float32, .float16, .int32]
  length_lt := by decide

/-- The last tensor, and what is behind it, of a model with a layout that was set. -/
theorem accessors_guarded_sample : ∃ m, Loaded sampleInput sampleOutput m ∧
    (Accessor.inputShape 1).Right sampleInput sampleOutput m ∧
    (Accessor.outputShape 2).Right sampleInput sampleOutput m ∧
    (Accessor.outputShape 4).Right sampleInput sampleOutput m ∧
    (Accessor.outputDataSize 3).Right sampleInput sampleOutput m ∧
    (Accessor.getOutputDataBatchAlignSize 2).Right sampleInput sampleOutput m ∧
    (Accessor.getMluInputLayout (-1)).Right sampleInput sampleOutput m := by
  have hloaded : ∃ m, Loaded sampleInput sampleOutput m :=
    ⟨_, .tail (.of_init rfl) ⟨{ dtype := .float32, order := .nchw }, 2, .inr rfl⟩⟩
  obtain ⟨m, hm⟩ := hloaded
  have hin : ∀ i < 2, (sampleInput.dataShape i).length ≤ 4 := by decide
  have hout : ∀ i < 3, (sampleOutput.dataShape i).length ≤ 4 := by decide
  have hright (a : Accessor) (ha : a.InOrder sampleInput sampleOutput) :
      a.Right sampleInput sampleOutput m := ((accessors_guarded_iff hm a).mpr ⟨⟨hin, hout⟩, ha⟩).2
  have hlast : 1 ≠ 2 := by decide
  have hbehind : 4 ≠ 3 := by decide
  exact ⟨m, hm, hright _ hlast, hright _ (by decide : 2 ≠ 3), hright _ hbehind, hright _ trivial,
    hright _ fun _ => List.cons_ne_nil _ _, hright _ trivial⟩

/-- One tensor of 2 by 3 elements. -/
def sampleTensors : CnrtTensors where
  dataSizes := [24]
  dataShape _ := [2, 3]
  dtypes := [.float32]
  length_lt := by decide

/-- The shape behind the only one. -/
theorem shape_overflow : ¬∀ (input output : CnrtTensors) (m : ModelLoader), Loaded input output m →
    ∀ a : Accessor, (∀ idx ∈ input.dimWrites ++ output.dimWrites, idx < 4) ∧
      a.Right input output m := by
  intro h
  exact (h sampleTensors sampleTensors _ (.of_init rfl) (.inputShape 1)).2.1 rfl

end CambriconGst.Easyinfer
