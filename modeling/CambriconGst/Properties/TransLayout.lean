import CambriconGst.Easyinfer.MluMemoryOp
import CambriconGst.Lib.RowMajor
import Mathlib.Data.Fintype.Fin
import Mathlib.Tactic.FinCases
import Mathlib.Tactic.Ring

/-!
# The layout of data on the host and on the MLU

* `moves_nhwc_nchw`: elements go where they belong from NHWC to NCHW
* `trans_layout_iff`: for which dimensions they do so there and back
-/

namespace CambriconGst.Easyinfer

open Lib

/-! ## Logical positions -/

/-- The dimensions of an array, all of them positive. -/
structure Dims where
  n : Nat
  h : Nat
  w : Nat
  c : Nat
  n_pos : 0 < n
  h_pos : 0 < h
  w_pos : 0 < w
  c_pos : 0 < c

namespace Dims

variable (dims : Dims)

def shape : ShapeEx where
  data := [dims.n, dims.h, dims.w, dims.c]

/-- The number of elements. -/
def count : Nat :=
  dims.n * dims.h * dims.w * dims.c

/-- The place of an element. -/
def place (order : DimOrder) (n h w c : Nat) : Nat :=
  match order with
  | .nchw => RowMajor.index ![dims.n, dims.c, dims.h, dims.w] ![n, c, h, w]
  | _ => RowMajor.index ![dims.n, dims.h, dims.w, dims.c] ![n, h, w, c]

end Dims

theorem index_four (a b c d i j k l : Nat) :
    RowMajor.index ![a, b, c, d] ![i, j, k, l] = ((i * b + j) * c + k) * d + l := by
  simp [RowMajor.index, Fin.init, Fin.last]

theorem forall_four {P : Fin 4 → Prop} (h₀ : P 0) (h₁ : P 1) (h₂ : P 2) (h₃ : P 3) : ∀ k, P k := by
  intro k
  fin_cases k
  · exact h₀
  · exact h₁
  · exact h₂
  · exact h₃

theorem four_lt {a b c d i j k l : Nat} (hi : i < a) (hj : j < b) (hk : k < c) (hl : l < d) :
    ∀ m, ![i, j, k, l] m < ![a, b, c, d] m :=
  forall_four hi hj hk hl

variable {V : Type} {cnrt : Cnrt V} {dims : Dims} {dtype : DataType} {s d : DimOrder}

/-! ## What cnrt does -/

/--
The source is read as an array with the dimensions `dimValues`, the outermost first, and dimension
`k` of the array that is written is its dimension `dimOrder k`.
-/
def ReadsAsArray (cnrt : Cnrt V) : Prop :=
  ∀ (dimNum : Nat) (dtype : DataType) (dimValues : Fin dimNum → Nat)
    (dimOrder : Fin dimNum → Fin dimNum), Function.Bijective dimOrder →
    ∀ (src dst : Nat → V) (i : Fin dimNum → Nat), (∀ k, i k < dimValues k) →
      cnrt.transDataOrder dtype dimValues dimOrder src dst
        (RowMajor.index (dimValues ∘ dimOrder) (i ∘ dimOrder)) =
      src (RowMajor.index dimValues i)

/-- Every element is put at its own place. -/
def Moves (cnrt : Cnrt V) (dims : Dims) (dtype : DataType) (s d : DimOrder) : Prop :=
  ∀ src dst : Buffer V, src.len = dims.count → dst.len = dims.count →
    ∃ out, transLayout cnrt ⟨dtype, s⟩ ⟨dtype, d⟩ src dst dims.shape = .ok out ∧
      out.len = dims.count ∧
      ∀ n < dims.n, ∀ h < dims.h, ∀ w < dims.w, ∀ c < dims.c,
        out.cell (dims.place d n h w c) = src.cell (dims.place s n h w c)

/-- Data comes back as it was. -/
def ThereAndBack (cnrt : Cnrt V) (dims : Dims) (dtype : DataType) (s d : DimOrder) : Prop :=
  ∀ src mid dst : Buffer V, src.len = dims.count → mid.len = dims.count → dst.len = dims.count →
    ∃ there back, transLayout cnrt ⟨dtype, s⟩ ⟨dtype, d⟩ src mid dims.shape = .ok there ∧
      transLayout cnrt ⟨dtype, d⟩ ⟨dtype, s⟩ there dst dims.shape = .ok back ∧
      ∀ p < dims.count, back.cell p = src.cell p

/-! ## Places -/

/-- Every place is that of an element. -/
theorem Dims.exists_place (hs : s = .nhwc ∨ s = .nchw) {p : Nat} (hp : p < dims.count) :
    ∃ n < dims.n, ∃ h < dims.h, ∃ w < dims.w, ∃ c < dims.c, dims.place s n h w c = p := by
  rcases hs with rfl | rfl
  · have hprod : p < ∏ k, ![dims.n, dims.h, dims.w, dims.c] k := by
      rw [Fin.prod_univ_four]
      exact hp
    obtain ⟨hidx, hlt⟩ := RowMajor.index_unindex hprod
    refine ⟨_, hlt 0, _, hlt 1, _, hlt 2, _, hlt 3, ?_⟩
    refine (congrArg (RowMajor.index _) (funext ?_)).trans hidx
    exact forall_four rfl rfl rfl rfl
  · have hprod : p < ∏ k, ![dims.n, dims.c, dims.h, dims.w] k := by
      have hcount : dims.n * dims.c * dims.h * dims.w = dims.count := by
        unfold Dims.count
        ring
      rw [Fin.prod_univ_four]
      exact hp.trans_eq hcount.symm
    obtain ⟨hidx, hlt⟩ := RowMajor.index_unindex hprod
    refine ⟨_, hlt 0, _, hlt 2, _, hlt 3, _, hlt 1, ?_⟩
    refine (congrArg (RowMajor.index _) (funext ?_)).trans hidx
    exact forall_four rfl rfl rfl rfl

theorem Dims.place_lt (hs : s = .nhwc ∨ s = .nchw) {n h w c : Nat} (hn : n < dims.n)
    (hh : h < dims.h) (hw : w < dims.w) (hc : c < dims.c) : dims.place s n h w c < dims.count := by
  rcases hs with rfl | rfl
  · refine (RowMajor.index_lt (four_lt hn hh hw hc)).trans_eq ?_
    exact Fin.prod_univ_four _
  · refine (RowMajor.index_lt (four_lt hn hc hh hw)).trans_eq ?_
    rw [Fin.prod_univ_four]
    show dims.n * dims.c * dims.h * dims.w = dims.n * dims.h * dims.w * dims.c
    ring

theorem Moves.thereAndBack (hs : s = .nhwc ∨ s = .nchw) (hsd : Moves cnrt dims dtype s d)
    (hds : Moves cnrt dims dtype d s) : ThereAndBack cnrt dims dtype s d := by
  intro src mid dst hsrc hmid hdst
  obtain ⟨there, hthere, hlen, hput⟩ := hsd src mid hsrc hmid
  obtain ⟨back, hback, -, hput'⟩ := hds there dst hlen hdst
  refine ⟨there, back, hthere, hback, fun p hp => ?_⟩
  obtain ⟨n, hn, h, hh, w, hw, c, hc, rfl⟩ := Dims.exists_place hs hp
  rw [hput' n hn h hh w hw c hc, hput n hn h hh w hw c hc]

/-! ## The same order -/

theorem bmod_of_lt {x : Nat} (h : x < 2 ^ 63) : (x : Int).bmod (2 ^ 64) = x := by
  have h64 : (2 : Nat) ^ 64 = 18446744073709551616 := rfl
  apply Int.bmod_eq_of_le_mul_two
  · rw [h64]
    omega
  · rw [h64]
    omega

theorem batchDataCount_eq (h : dims.count < 2 ^ 63) : dims.shape.batchDataCount = dims.count := by
  have hc : dims.n * dims.h * dims.w ≤ dims.count := Nat.le_mul_of_pos_right _ dims.c_pos
  have hw : dims.n * dims.h ≤ dims.n * dims.h * dims.w := Nat.le_mul_of_pos_right _ dims.w_pos
  have hh : dims.n ≤ dims.n * dims.h := Nat.le_mul_of_pos_right _ dims.h_pos
  rw [ShapeEx.batchDataCount, Dims.shape, List.foldl_cons, List.foldl_cons, List.foldl_cons,
    List.foldl_cons, List.foldl_nil, one_mul, bmod_of_lt (by omega), ← Nat.cast_mul,
    bmod_of_lt (by omega), ← Nat.cast_mul, bmod_of_lt (by omega), ← Nat.cast_mul]
  exact bmod_of_lt h

theorem typeSize_cases (dtype : DataType) :
    typeSize dtype = 1 ∨ typeSize dtype = 2 ∨ typeSize dtype = 4 := by
  cases dtype <;> decide

theorem typeSize_pos (dtype : DataType) : 0 < typeSize dtype := by
  cases dtype <;> decide

theorem toInt32_bounds (n : Int) : -2 ^ 31 ≤ toInt32 n ∧ toInt32 n < 2 ^ 31 := by
  unfold toInt32
  rw [Int.bmod_def]
  omega

/-- The size of more elements than an `int` counts is not what is copied. -/
theorem memSize_ne {count t : Nat} {size : Int} (ht : t = 1 ∨ t = 2 ∨ t = 4)
    (hlo : -2 ^ 31 ≤ size) (hhi : size < 2 ^ 31) (hge : 2 ^ 31 ≤ count)
    (hmem : count * t < 2 ^ 63) : ((size * t) % 2 ^ 64).toNat ≠ count * t := by
  rcases ht with rfl | rfl | rfl <;> omega

theorem transLayout_same (hs : s = .nhwc ∨ s = .nchw) (src dst : Buffer V) (shape : ShapeEx) :
    transLayout cnrt ⟨dtype, s⟩ ⟨dtype, s⟩ src dst shape =
      memcpy src dst (typeSize dtype)
        ((toInt32 shape.batchDataCount * typeSize dtype) % 2 ^ 64).toNat := by
  have hok : ¬(s ≠ .nhwc ∧ s ≠ .nchw) := by tauto
  unfold transLayout
  simp only [if_neg hok, ne_eq, not_true, if_false]

theorem moves_same_iff [Nontrivial V] (cnrt : Cnrt V) (hmem : dims.count * typeSize dtype < 2 ^ 63)
    (hs : s = .nhwc ∨ s = .nchw) : Moves cnrt dims dtype s s ↔ dims.count < 2 ^ 31 := by
  have hpos := typeSize_pos dtype
  have hcount : dims.count < 2 ^ 63 := (Nat.le_mul_of_pos_right _ hpos).trans_lt hmem
  constructor
  · intro hmoves
    by_contra hge
    -- the last element is not copied, or the size is that of no memory
    obtain ⟨x, y, hxy⟩ := exists_pair_ne V
    obtain ⟨out, hout, -, hput⟩ := hmoves ⟨dims.count, fun _ => x⟩ ⟨dims.count, fun _ => y⟩ rfl rfl
    have hp : dims.count - 1 < dims.count := by omega
    obtain ⟨n, hn, h, hh, w, hw, c, hc, hplace⟩ := Dims.exists_place hs hp
    have hlast := hput n hn h hh w hw c hc
    rw [transLayout_same hs, memcpy] at hout
    split at hout
    · next hfits =>
      obtain rfl := Except.ok.inj hout
      obtain ⟨hlo, hhi⟩ := toInt32_bounds dims.shape.batchDataCount
      have hne := memSize_ne (typeSize_cases dtype) hlo hhi (by omega) hmem
      have hnot : ¬(dims.count - 1 + 1) * typeSize dtype ≤
          ((toInt32 dims.shape.batchDataCount * typeSize dtype) % 2 ^ 64).toNat := by
        rw [Nat.sub_add_cancel (by omega)]
        exact fun hall => hne (Nat.le_antisymm hfits.1 hall)
      rw [hplace] at hlast
      exact hxy (((if_neg hnot).symm.trans hlast).symm)
    · cases hout
  · intro hlt src dst hsrc hdst
    have hint : toInt32 dims.shape.batchDataCount = dims.count := by
      rw [batchDataCount_eq hcount, toInt32, Int.bmod_def]
      omega
    have hbytes : (((dims.count : Int) * typeSize dtype) % 2 ^ 64).toNat =
        dims.count * typeSize dtype := by
      rw [← Nat.cast_mul]
      omega
    rw [transLayout_same hs, hint, hbytes, memcpy, hsrc, hdst, if_pos ⟨le_rfl, le_rfl⟩]
    refine ⟨_, rfl, rfl, fun n hn h hh w hw c hc => if_pos ?_⟩
    exact Nat.mul_le_mul_right _ (Dims.place_lt hs hn hh hw hc)

/-! ## The other order -/

theorem transLayout_other (cnrt : Cnrt V) (dims : Dims) (dtype : DataType)
    (hs : s = .nhwc ∨ s = .nchw) (hd : d = .nhwc ∨ d = .nchw) (hne : s ≠ d) (src dst : Buffer V) :
    transLayout cnrt ⟨dtype, s⟩ ⟨dtype, d⟩ src dst dims.shape =
      .ok { dst with
        cell := cnrt.transDataOrder dtype ![dims.n, dims.h, dims.w, dims.c]
          (if d = .nhwc then ![0, 2, 3, 1] else ![0, 3, 1, 2]) src.cell dst.cell } := by
  have hs' : ¬(s ≠ .nhwc ∧ s ≠ .nchw) := by tauto
  have hd' : ¬(d ≠ .nhwc ∧ d ≠ .nchw) := by tauto
  unfold transLayout
  simp only [if_neg hs', if_neg hd', ne_eq, not_true, if_false, if_pos hne]
  rfl

/-- **From NHWC to NCHW elements go where they belong.** -/
theorem moves_nhwc_nchw (hc : ReadsAsArray cnrt) (dims : Dims) (dtype : DataType) :
    Moves cnrt dims dtype .nhwc .nchw := by
  intro src dst _ hdst
  refine ⟨_, transLayout_other cnrt dims dtype (.inl rfl) (.inr rfl) DimOrder.noConfusion src dst,
    hdst, ?_⟩
  intro n hn h hh w hw c hcc
  have hread := hc 4 dtype ![dims.n, dims.h, dims.w, dims.c] ![0, 3, 1, 2] (by decide) src.cell
    dst.cell ![n, h, w, c] (four_lt hn hh hw hcc)
  have hdims : ![dims.n, dims.h, dims.w, dims.c] ∘ ![0, 3, 1, 2] =
      ![dims.n, dims.c, dims.h, dims.w] := funext (forall_four rfl rfl rfl rfl)
  have hidx : ![n, h, w, c] ∘ ![0, 3, 1, 2] = ![n, c, h, w] := funext (forall_four rfl rfl rfl rfl)
  rw [hdims, hidx] at hread
  exact hread

/-- What is done from NCHW to NHWC. -/
theorem transLayout_nchw_nhwc (hc : ReadsAsArray cnrt) {src dst out : Buffer V}
    (h : transLayout cnrt ⟨dtype, .nchw⟩ ⟨dtype, .nhwc⟩ src dst dims.shape = .ok out)
    {n b w e : Nat} (hn : n < dims.n) (hb : b < dims.h) (hw : w < dims.w) (he : e < dims.c) :
    out.cell (((n * dims.w + w) * dims.c + e) * dims.h + b) =
      src.cell (((n * dims.h + b) * dims.w + w) * dims.c + e) := by
  rw [transLayout_other cnrt dims dtype (.inr rfl) (.inl rfl) DimOrder.noConfusion] at h
  obtain rfl := Except.ok.inj h
  have hread := hc 4 dtype ![dims.n, dims.h, dims.w, dims.c] ![0, 2, 3, 1] (by decide) src.cell
    dst.cell ![n, b, w, e] (four_lt hn hb hw he)
  have hdims : ![dims.n, dims.h, dims.w, dims.c] ∘ ![0, 2, 3, 1] =
      ![dims.n, dims.w, dims.c, dims.h] := funext (forall_four rfl rfl rfl rfl)
  have hidx : ![n, b, w, e] ∘ ![0, 2, 3, 1] = ![n, w, e, b] := funext (forall_four rfl rfl rfl rfl)
  rw [hdims, hidx, index_four, index_four] at hread
  exact hread

/-- As many channels as lines, or only one of all three but one. -/
def Dims.Interchangeable (dims : Dims) : Prop :=
  dims.h = dims.c ∨ (dims.h = 1 ∧ dims.w = 1) ∨ (dims.c = 1 ∧ dims.w = 1)

theorem moves_nchw_nhwc (hc : ReadsAsArray cnrt) (dtype : DataType) (hi : dims.Interchangeable) :
    Moves cnrt dims dtype .nchw .nhwc := by
  intro src dst _ hdst
  have hout := transLayout_other cnrt dims dtype (.inr rfl) (.inl rfl) DimOrder.noConfusion src dst
  refine ⟨_, hout, hdst, fun n hn h hh w hw c hcc => ?_⟩
  simp only [Dims.place, index_four]
  rcases hi with heq | ⟨hh1, hw1⟩ | ⟨hc1, hw1⟩
  · -- a line and a column make the column and the channel that are read
    have hpos := dims.c_pos
    have hlt : h * dims.w + w < dims.c * dims.w := by
      have := Nat.mul_le_mul_right dims.w (Nat.succ_le_of_lt (heq ▸ hh))
      rw [Nat.succ_mul] at this
      omega
    have hdiv : (h * dims.w + w) / dims.c < dims.w := Nat.div_lt_of_lt_mul hlt
    have hsum := Nat.div_add_mod' (h * dims.w + w) dims.c
    have hput := transLayout_nchw_nhwc hc hout hn (heq ▸ hcc) hdiv
      (e := (h * dims.w + w) % dims.c) (Nat.mod_lt _ hpos)
    have hdst : ((n * dims.w + (h * dims.w + w) / dims.c) * dims.c + (h * dims.w + w) % dims.c) *
        dims.h + c = ((n * dims.h + h) * dims.w + w) * dims.c + c := by
      rw [Nat.add_mul (n * dims.w), Nat.add_assoc, hsum, heq]
      ring
    have hsrc : ((n * dims.h + c) * dims.w + (h * dims.w + w) / dims.c) * dims.c +
        (h * dims.w + w) % dims.c = ((n * dims.c + c) * dims.h + h) * dims.w + w := by
      rw [Nat.add_mul ((n * dims.h + c) * dims.w), Nat.add_assoc, hsum, heq]
      ring
    rwa [hdst, hsrc] at hput
  · have hput := transLayout_nchw_nhwc hc hout hn hh hw hcc
    obtain rfl : h = 0 := by omega
    obtain rfl : w = 0 := by omega
    simpa [hh1, hw1] using hput
  · have hput := transLayout_nchw_nhwc hc hout hn hh hw hcc
    obtain rfl : c = 0 := by omega
    obtain rfl : w = 0 := by omega
    simpa [hc1, hw1] using hput

theorem eq_of_cells [Nontrivial V] {p q : Nat} (h : ∀ cell : Nat → V, cell p = cell q) : p = q := by
  obtain ⟨x, y, hxy⟩ := exists_pair_ne V
  by_contra hne
  have hcell := h fun k => if k = p then x else y
  rw [if_pos rfl, if_neg (Ne.symm hne)] at hcell
  exact hxy hcell

/-- Whatever is in the cells, they go from NCHW to NHWC where they belong. -/
theorem interchangeable_of_moves [Nontrivial V] (hc : ReadsAsArray cnrt) (dtype : DataType)
    (h : ∀ cell : Nat → V, ∃ src dst out : Buffer V,
      (∀ p < dims.count, src.cell p = cell p) ∧
      transLayout cnrt ⟨dtype, .nchw⟩ ⟨dtype, .nhwc⟩ src dst dims.shape = .ok out ∧
      ∀ n < dims.n, ∀ h < dims.h, ∀ w < dims.w, ∀ c < dims.c,
        out.cell (dims.place .nhwc n h w c) = src.cell (dims.place .nchw n h w c)) :
    dims.Interchangeable := by
  have hn := dims.n_pos
  have hh := dims.h_pos
  have hw := dims.w_pos
  have hcc := dims.c_pos
  have hchw : dims.h * dims.w * dims.c ≤ dims.count := by
    have hmul := Nat.le_mul_of_pos_left (dims.h * dims.w * dims.c) hn
    rwa [← Nat.mul_assoc, ← Nat.mul_assoc] at hmul
  by_cases hc1 : dims.c = 1
  · by_cases hh1 : dims.h = 1
    · exact .inl (hh1.trans hc1.symm)
    · -- the second line is read where the second column should be
      refine .inr (.inr ⟨hc1, ?_⟩)
      by_contra hw1
      have heq : dims.w = 1 := eq_of_cells fun cell : Nat → V => by
        obtain ⟨src, dst, out, hcell, hout, hput⟩ := h cell
        have hread := transLayout_nchw_nhwc hc hout hn (b := 1) (by omega) hw hcc
        have hwant := hput 0 hn 0 hh 1 (by omega) 0 hcc
        simp only [Dims.place, index_four, hc1, Nat.zero_mul, Nat.zero_add, Nat.one_mul,
          Nat.mul_one, Nat.add_zero] at hread hwant
        have hle : dims.h * dims.w ≤ dims.count := by rwa [hc1, Nat.mul_one] at hchw
        have hlt : 2 * dims.w ≤ dims.h * dims.w := Nat.mul_le_mul_right dims.w (by omega)
        rw [← hcell dims.w (by omega), ← hcell 1 (by omega)]
        exact hread.symm.trans hwant
      exact hw1 heq
  · by_cases hh1 : dims.h = 1
    · -- the second channel is read where the second channel should be, of other places
      refine .inr (.inl ⟨hh1, ?_⟩)
      refine eq_of_cells fun cell : Nat → V => ?_
      obtain ⟨src, dst, out, hcell, hout, hput⟩ := h cell
      have hread := transLayout_nchw_nhwc hc hout hn hh hw (e := 1) (by omega)
      have hwant := hput 0 hn 0 hh 0 hw 1 (by omega)
      simp only [Dims.place, index_four, hh1, Nat.zero_mul, Nat.zero_add, Nat.one_mul, Nat.mul_one,
        Nat.add_zero] at hread hwant
      have hle : dims.w * dims.c ≤ dims.count := by rwa [hh1, Nat.one_mul] at hchw
      have hlt : dims.w * 2 ≤ dims.w * dims.c := Nat.mul_le_mul_left dims.w (by omega)
      rw [← hcell dims.w (by omega), ← hcell 1 (by omega)]
      exact hwant.symm.trans hread
    · refine .inl ?_
      -- the second line is read where the second channel should be
      have heq : dims.w * dims.c = dims.h * dims.w := eq_of_cells fun cell : Nat → V => by
        obtain ⟨src, dst, out, hcell, hout, hput⟩ := h cell
        have hread := transLayout_nchw_nhwc hc hout hn (b := 1) (by omega) hw hcc
        have hwant := hput 0 hn 0 hh 0 hw 1 (by omega)
        simp only [Dims.place, index_four, Nat.zero_mul, Nat.zero_add, Nat.one_mul, Nat.add_zero]
          at hread hwant
        have hlt₁ : 2 * (dims.w * dims.c) ≤ dims.h * dims.w * dims.c := by
          rw [Nat.mul_assoc]
          exact Nat.mul_le_mul_right _ (by omega)
        have hlt₂ : dims.h * dims.w * 2 ≤ dims.h * dims.w * dims.c :=
          Nat.mul_le_mul_left _ (by omega)
        have hpos : 0 < dims.h * dims.w := Nat.mul_pos hh hw
        have hpos' : 0 < dims.w * dims.c := Nat.mul_pos hw hcc
        rw [← hcell _ (by omega), ← hcell _ (by omega)]
        exact hread.symm.trans hwant
      rw [Nat.mul_comm dims.h] at heq
      exact (Nat.eq_of_mul_eq_mul_left hw heq).symm

/-! ## Both -/

/-- The dimensions for which data goes there and back. -/
def LayoutsRight (dims : Dims) (s d : DimOrder) : Prop :=
  if s = d then dims.count < 2 ^ 31 else dims.Interchangeable

/-- Data that is put from NHWC to NCHW can be any. -/
theorem interchangeable_of_thereAndBack [Nontrivial V] (hc : ReadsAsArray cnrt)
    (h : ThereAndBack cnrt dims dtype .nhwc .nchw) : dims.Interchangeable := by
  refine interchangeable_of_moves hc dtype fun cell => ?_
  -- the data of which `cell` is the NCHW layout
  let src : Buffer V :=
    { len := dims.count
      cell := fun p =>
        let i := RowMajor.unindex ![dims.n, dims.h, dims.w, dims.c] p
        cell (dims.place .nchw (i 0) (i 1) (i 2) (i 3)) }
  have hsrc : ∀ n < dims.n, ∀ h < dims.h, ∀ w < dims.w, ∀ c < dims.c,
      src.cell (dims.place .nhwc n h w c) = cell (dims.place .nchw n h w c) := by
    intro n hn h hh w hw c hcc
    have hun : RowMajor.unindex ![dims.n, dims.h, dims.w, dims.c] (dims.place .nhwc n h w c) =
        ![n, h, w, c] := RowMajor.unindex_index (four_lt hn hh hw hcc)
    show cell (dims.place .nchw _ _ _ _) = _
    rw [hun]
    rfl
  obtain ⟨there, back, hthere, hback, hsame⟩ := h src src src rfl rfl rfl
  obtain ⟨there', hthere', -, hput⟩ := moves_nhwc_nchw hc dims dtype src src rfl rfl
  obtain rfl := Except.ok.inj (hthere'.symm.trans hthere)
  refine ⟨there', src, back, fun p hp => ?_, hback, fun n hn h hh w hw c hcc => ?_⟩
  · obtain ⟨n, hn, h, hh, w, hw, c, hcc, rfl⟩ := Dims.exists_place (.inr rfl) hp
    rw [hput n hn h hh w hw c hcc, hsrc n hn h hh w hw c hcc]
  · rw [hput n hn h hh w hw c hcc]
    exact hsame _ (Dims.place_lt (.inl rfl) hn hh hw hcc)

/--
**For which dimensions data is laid out right.**

Elements of one data type go to their own places, and come back, from one of the orders NHWC and
NCHW to the other just when there are as many lines as channels, or one line and one column, or one
channel and one column; from an order to itself just when an `int` counts them. From NHWC to NCHW
they always go to their own places. There is memory for the elements.
-/
theorem trans_layout_iff [Nontrivial V] (hc : ReadsAsArray cnrt) (dims : Dims) (dtype : DataType)
    (hmem : dims.count * typeSize dtype < 2 ^ 63) (hs : s = .nhwc ∨ s = .nchw)
    (hd : d = .nhwc ∨ d = .nchw) :
    (Moves cnrt dims dtype s d ∧ ThereAndBack cnrt dims dtype s d ↔ LayoutsRight dims s d) ∧
      Moves cnrt dims dtype .nhwc .nchw := by
  refine ⟨?_, moves_nhwc_nchw hc dims dtype⟩
  by_cases hsd : s = d
  · subst hsd
    rw [LayoutsRight, if_pos rfl, ← moves_same_iff cnrt hmem hs]
    exact ⟨And.left, fun h => ⟨h, h.thereAndBack hs h⟩⟩
  · rw [LayoutsRight, if_neg hsd]
    rcases hs with rfl | rfl
    · obtain rfl := hd.resolve_left (Ne.symm hsd)
      refine ⟨fun h => interchangeable_of_thereAndBack hc h.2, fun hi => ?_⟩
      have hthere := moves_nhwc_nchw hc dims dtype
      exact ⟨hthere, hthere.thereAndBack (.inl rfl) (moves_nchw_nhwc hc dtype hi)⟩
    · obtain rfl := hd.resolve_right (Ne.symm hsd)
      refine ⟨fun h => ?_, fun hi => ?_⟩
      · refine interchangeable_of_moves hc dtype fun cell => ?_
        obtain ⟨out, hout, -, hput⟩ := h.1 ⟨dims.count, cell⟩ ⟨dims.count, cell⟩ rfl rfl
        exact ⟨_, _, out, fun _ _ => rfl, hout, hput⟩
      · have hthere := moves_nchw_nhwc hc dtype hi
        exact ⟨hthere, hthere.thereAndBack (.inr rfl) (moves_nhwc_nchw hc dims dtype)⟩

/-! ## Two lines and three channels -/

/-- Elements are copied as numbers, whatever their types. -/
def plainCnrt : Cnrt Nat where
  castDataType _ _ _ src _ := src
  transDataOrder _ dimValues dimOrder src _ := RowMajor.permute dimValues dimOrder src
  transOrderAndCast _ _ dimValues dimOrder src _ := RowMajor.permute dimValues dimOrder src

theorem plainCnrt_readsAsArray : ReadsAsArray plainCnrt :=
  fun _ _ _ _ ho _ _ _ hi => RowMajor.permute_index ho hi

/-- Two lines and two channels. -/
def squareDims : Dims where
  n := 1
  h := 2
  w := 3
  c := 2
  n_pos := Nat.one_pos
  h_pos := Nat.two_pos
  w_pos := Nat.succ_pos 2
  c_pos := Nat.two_pos

/-- Two lines and three channels. -/
def unequalDims : Dims :=
  { squareDims with c := 3, c_pos := Nat.succ_pos 2 }

theorem trans_layout_square : Moves plainCnrt squareDims .float32 .nchw .nhwc :=
  ((trans_layout_iff plainCnrt_readsAsArray squareDims .float32 (by decide) (.inr rfl)
    (.inl rfl)).1.mpr (.inl rfl)).1

/-- The second channel of the first place is another. -/
theorem channels_mixed : ¬∀ (cnrt : Cnrt Nat) (dims : Dims) (dtype : DataType) (s d : DimOrder),
    ReadsAsArray cnrt → (s = .nhwc ∨ s = .nchw) → (d = .nhwc ∨ d = .nchw) →
    Moves cnrt dims dtype s d ∧ ThereAndBack cnrt dims dtype s d := by
  intro h
  obtain ⟨out, hout, -, hput⟩ := (h plainCnrt unequalDims .float32 .nchw .nhwc
    plainCnrt_readsAsArray (.inr rfl) (.inl rfl)).1 ⟨18, id⟩ ⟨18, id⟩ rfl rfl
  obtain rfl := Except.ok.inj hout
  exact absurd (hput 0 (by decide) 0 (by decide) 0 (by decide) 1 (by decide)) (by decide)

end CambriconGst.Easyinfer
