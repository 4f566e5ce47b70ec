import CambriconGst.Lib.CoversOnce
import Mathlib.Tactic.TypeStar

/-!
# Copies between blocks of memory

* `copyAll`: `memcpy` calls one after the other, undefined when a byte outside is reached
* `copied_byte`, `copied_written`: what a byte is in the end, and how often it was written
* `Rect`: a part of a block that lies in rows with padding; `Packed`: rectangles without it
* `packedFrom_of_perm`, `written_of_perm`: copies of rectangles pack them, each byte once
* `PackedFrom.trans`: packing in two steps, first with the padding
-/

namespace CambriconGst.Lib

/-- `written` counts the writes to a byte, for statements only. -/
structure Block (B : Type*) where
  size : Nat
  byte : Nat → B
  written : Nat → Nat

/-- A `memcpy` of `len` bytes, from the block with number `source`. -/
structure Memcpy where
  source : Nat
  dst : Nat
  src : Nat
  len : Nat
deriving DecidableEq, Repr

variable {B : Type*} {sources : Nat → Block B} {b out : Block B} {l l' : List Memcpy} {o : Nat}

namespace Memcpy

def Covers (c : Memcpy) (o : Nat) : Prop :=
  c.dst ≤ o ∧ o < c.dst + c.len

instance (c : Memcpy) (o : Nat) : Decidable (c.Covers o) := by
  unfold Covers
  infer_instance

/-- All bytes that are read and written exist. -/
def Fits (sources : Nat → Block B) (size : Nat) (c : Memcpy) : Prop :=
  c.len = 0 ∨ c.dst + c.len ≤ size ∧ c.src + c.len ≤ (sources c.source).size

instance (size : Nat) (c : Memcpy) : Decidable (c.Fits sources size) := by
  unfold Fits
  infer_instance

def run (sources : Nat → Block B) (b : Block B) (c : Memcpy) : Block B where
  size := b.size
  byte o := if c.Covers o then (sources c.source).byte (c.src + (o - c.dst)) else b.byte o
  written o := if c.Covers o then b.written o + 1 else b.written o

end Memcpy

def copyAll (sources : Nat → Block B) : List Memcpy → Block B → Option (Block B)
  | [], b => some b
  | c :: l, b => if c.Fits sources b.size then copyAll sources l (c.run sources b) else none

/-- The copies as if they all fit. -/
def copied (sources : Nat → Block B) (l : List Memcpy) (b : Block B) : Block B :=
  l.foldl (Memcpy.run sources) b

/-- How many copies write a byte. -/
def coverage (l : List Memcpy) (o : Nat) : Nat :=
  l.countP fun c => c.Covers o

/-! ## Runs -/

@[simp]
theorem copied_size : (copied sources l b).size = b.size := by
  unfold copied
  induction l generalizing b with
  | nil => rfl
  | cons c l ih => exact ih (b := c.run sources b)

theorem copyAll_eq_some_iff :
    copyAll sources l b = some out ↔
      (∀ c ∈ l, c.Fits sources b.size) ∧ out = copied sources l b := by
  induction l generalizing b with
  | nil => simp [copyAll, copied, eq_comm]
  | cons c l ih =>
    have hsize : (c.run sources b).size = b.size := rfl
    rw [copyAll, List.forall_mem_cons]
    split
    · next hfits =>
      rw [ih, hsize, and_iff_right hfits]
      exact Iff.rfl
    · next hnot => exact iff_of_false nofun fun h => hnot h.1.1

theorem copied_written : (copied sources l b).written o = b.written o + coverage l o := by
  unfold copied coverage
  induction l generalizing b with
  | nil => rfl
  | cons c l ih =>
    have hwritten : (c.run sources b).written o
        = if c.Covers o then b.written o + 1 else b.written o := rfl
    rw [List.foldl_cons, ih, List.countP_cons, hwritten]
    by_cases hc : c.Covers o
    · rw [if_pos hc, if_pos (decide_eq_true hc)]
      omega
    · rw [if_neg hc, if_neg (by simpa using hc), Nat.add_zero]

theorem copied_byte_of_coverage_zero (h : coverage l o = 0) :
    (copied sources l b).byte o = b.byte o := by
  unfold copied
  unfold coverage at h
  induction l generalizing b with
  | nil => rfl
  | cons c l ih =>
    rw [List.countP_cons] at h
    have hc : ¬c.Covers o := by
      intro hc
      rw [if_pos (decide_eq_true hc)] at h
      omega
    rw [List.foldl_cons, ih (by omega)]
    exact if_neg hc

/-- A byte that is written once is what that copy has brought. -/
theorem copied_byte {c : Memcpy} (hmem : c ∈ l) (hc : c.Covers o) (h : coverage l o = 1) :
    (copied sources l b).byte o = (sources c.source).byte (c.src + (o - c.dst)) := by
  induction l generalizing b with
  | nil => exact absurd hmem List.not_mem_nil
  | cons c' l ih =>
    have hsplit : coverage (c' :: l) o = coverage l o + if c'.Covers o then 1 else 0 := by
      unfold coverage
      rw [List.countP_cons]
      simp only [decide_eq_true_eq]
    rw [hsplit] at h
    rcases List.mem_cons.mp hmem with rfl | hmem
    · rw [if_pos hc] at h
      have hrest : (copied sources l (c.run sources b)).byte o = (c.run sources b).byte o :=
        copied_byte_of_coverage_zero (Nat.succ_inj.mp h)
      exact hrest.trans (if_pos hc)
    · have hone : 0 < coverage l o :=
        List.countP_pos_iff.mpr ⟨c, hmem, decide_eq_true hc⟩
      exact ih (b := c'.run sources b) hmem (by omega)

/-- What is true of all bytes that are copied, and of all that were there. -/
theorem copied_byte_forall {p : B → Prop}
    (hs : ∀ c ∈ l, ∀ k < c.len, p ((sources c.source).byte (c.src + k)))
    (hb : ∀ o, p (b.byte o)) : ∀ o, p ((copied sources l b).byte o) := by
  unfold copied
  induction l generalizing b with
  | nil => exact hb
  | cons c l ih =>
    obtain ⟨hc, hl⟩ := List.forall_mem_cons.mp hs
    refine ih (b := c.run sources b) hl fun o => ?_
    unfold Memcpy.run
    dsimp only
    split
    · next hcovers =>
      have hend : o < c.dst + c.len := hcovers.2
      exact hc _ (by have := hcovers.1; omega)
    · exact hb o

/-! ## Rectangles -/

/-- `rows` rows of `width` bytes, of which the first starts at `src`. -/
structure Rect where
  source : Nat
  src : Nat
  rows : Nat
  width : Nat
  stride : Nat
deriving DecidableEq, Repr

/-- Row `i` of `n` ends before the last one does. -/
theorem row_end_le {i n : Nat} (h : i < n) (s : Nat) : i * s + s ≤ n * s := by
  rw [← Nat.succ_mul]
  exact Nat.mul_le_mul_right s h

namespace Rect

/-- Row `i`, to where no byte is left between the rows. -/
def copy (r : Rect) (dst i : Nat) : Memcpy :=
  { source := r.source, dst := dst + i * r.width, src := r.src + i * r.stride, len := r.width }

def copies (r : Rect) (dst : Nat) : List Memcpy :=
  (List.range r.rows).map (r.copy dst)

/-- The last row ends in its block, too. -/
def Inside (sources : Nat → Block B) (r : Rect) : Prop :=
  ∀ i < r.rows, r.src + i * r.stride + r.width ≤ (sources r.source).size

theorem copies_coversOnce (r : Rect) (dst : Nat) :
    CoversOnce Memcpy.Covers (r.copies dst) fun o => dst ≤ o ∧ o < dst + r.rows * r.width := by
  obtain ⟨source, src, rows, width, stride⟩ := r
  unfold copies
  dsimp only
  induction rows with
  | zero =>
    refine CoversOnce.nil.congr fun o => ⟨fun ho => ?_, False.elim⟩
    rw [Nat.zero_mul] at ho
    omega
  | succ n ih =>
    rw [List.range_succ, List.map_append, List.map_singleton]
    refine (ih.append (CoversOnce.singleton _) fun o ho hlast => ?_).congr fun o => ?_
    · have hlo : dst + n * width ≤ o := hlast.1
      omega
    · unfold Memcpy.Covers Rect.copy
      dsimp only
      rw [Nat.succ_mul]
      omega

end Rect

def packedSize : List Rect → Nat
  | [] => 0
  | r :: rs => r.rows * r.width + packedSize rs

/-- The rectangles one after the other. -/
def packing : List Rect → Nat → List Memcpy
  | [], _ => []
  | r :: rs, dst => r.copies dst ++ packing rs (dst + r.rows * r.width)

/-- From `dst` on, the rectangles without padding. -/
def PackedFrom (sources : Nat → Block B) (out : Block B) : List Rect → Nat → Prop
  | [], _ => True
  | r :: rs, dst =>
    (∀ i < r.rows, ∀ c < r.width,
      out.byte (dst + i * r.width + c) = (sources r.source).byte (r.src + i * r.stride + c)) ∧
    PackedFrom sources out rs (dst + r.rows * r.width)

/-- The rectangles without padding, and nothing behind them. -/
def Packed (sources : Nat → Block B) (rs : List Rect) (out : Block B) : Prop :=
  out.size = packedSize rs ∧ PackedFrom sources out rs 0

theorem packing_coversOnce (rs : List Rect) (dst : Nat) :
    CoversOnce Memcpy.Covers (packing rs dst) fun o => dst ≤ o ∧ o < dst + packedSize rs := by
  induction rs generalizing dst with
  | nil =>
    refine CoversOnce.nil.congr fun o => ⟨fun ho => ?_, False.elim⟩
    rw [packedSize] at ho
    omega
  | cons r rs ih =>
    refine ((r.copies_coversOnce dst).append (ih _) fun o ho hrest => ?_).congr fun o => ?_
    · omega
    · simp only [packedSize]
      omega

theorem packedFrom_copied {rs : List Rect} {dst : Nat}
    (hmem : ∀ c ∈ packing rs dst, c ∈ l)
    (hcov : ∀ o, dst ≤ o → o < dst + packedSize rs → coverage l o = 1) :
    PackedFrom sources (copied sources l b) rs dst := by
  induction rs generalizing dst with
  | nil => exact trivial
  | cons r rs ih =>
    simp only [packedSize] at hcov
    constructor
    · intro i hi c hc
      have hrow := row_end_le hi r.width
      have hin := hmem _ (List.mem_append_left _ (List.mem_map.mpr ⟨i, List.mem_range.mpr hi, rfl⟩))
      have hcovers : (r.copy dst i).Covers (dst + i * r.width + c) := by
        unfold Memcpy.Covers Rect.copy
        dsimp only
        omega
      rw [copied_byte hin hcovers (hcov _ (by omega) (by omega))]
      unfold Rect.copy
      dsimp only
      rw [Nat.add_sub_cancel_left]
    · exact ih (fun c hc => hmem c (List.mem_append_right _ hc))
        fun o hlo hhi => hcov o (by omega) (by omega)

/-- Copies that are those of the rectangles, in whatever order. -/
theorem packedFrom_of_perm {rs : List Rect} (hperm : l.Perm (packing rs 0)) :
    PackedFrom sources (copied sources l b) rs 0 :=
  packedFrom_copied (fun _ hc => hperm.mem_iff.mpr hc) fun o hlo hhi =>
    (hperm.countP_eq _).trans ((packing_coversOnce rs 0 o).1 ⟨hlo, hhi⟩)

/-- They write each byte once. -/
theorem written_of_perm {rs : List Rect} (hperm : l.Perm (packing rs 0)) (ho : o < packedSize rs) :
    (copied sources l b).written o = b.written o + 1 := by
  have hone : coverage l o = 1 :=
    (hperm.countP_eq _).trans ((packing_coversOnce rs 0 o).1 ⟨Nat.zero_le o, by omega⟩)
  rw [copied_written, hone]

theorem packing_fits {rs : List Rect} {dst size : Nat} (hin : ∀ r ∈ rs, r.Inside sources)
    (hsize : dst + packedSize rs ≤ size) : ∀ c ∈ packing rs dst, c.Fits sources size := by
  induction rs generalizing dst with
  | nil => exact fun c hc => absurd hc List.not_mem_nil
  | cons r rs ih =>
    obtain ⟨hr, hrs⟩ := List.forall_mem_cons.mp hin
    rw [packedSize] at hsize
    intro c hc
    rcases List.mem_append.mp hc with hc | hc
    · obtain ⟨i, hi, rfl⟩ := List.mem_map.mp hc
      have hlt := List.mem_range.mp hi
      have hrow := row_end_le hlt r.width
      exact Or.inr ⟨by unfold Rect.copy; dsimp only; omega, hr i hlt⟩
    · exact ih hrs (by omega) c hc

/-! ## In two steps -/

/-- All of a rectangle, with the padding, as a single row. -/
def Rect.padded (r : Rect) : Rect :=
  { r with rows := 1, width := r.rows * r.stride }

/-- The rectangles in a block that has them with the padding one after the other. -/
def staged : List Rect → Nat → List Rect
  | [], _ => []
  | r :: rs, src => { r with source := 0, src := src } :: staged rs (src + r.rows * r.stride)

@[simp]
theorem packedSize_staged {rs : List Rect} {src : Nat} :
    packedSize (staged rs src) = packedSize rs := by
  induction rs generalizing src with
  | nil => rfl
  | cons r rs ih => rw [staged, packedSize, packedSize, ih]

theorem packedSize_padded_cons {r : Rect} {rs : List Rect} :
    packedSize ((r :: rs).map Rect.padded)
      = r.rows * r.stride + packedSize (rs.map Rect.padded) := by
  rw [List.map_cons, packedSize, Rect.padded, Nat.one_mul]

/-- The last row is not longer than the stride. -/
theorem staged_inside {rs : List Rect} {info : Block B} {src : Nat}
    (hle : ∀ r ∈ rs, r.width ≤ r.stride)
    (hsize : src + packedSize (rs.map Rect.padded) ≤ info.size) :
    ∀ r ∈ staged rs src, r.Inside fun _ => info := by
  induction rs generalizing src with
  | nil => exact fun r hr => absurd hr List.not_mem_nil
  | cons r rs ih =>
    obtain ⟨hr, hrs⟩ := List.forall_mem_cons.mp hle
    rw [packedSize_padded_cons] at hsize
    refine List.forall_mem_cons.mpr ⟨fun i hi => ?_, ih hrs (by omega)⟩
    have hrow : i * r.stride + r.stride ≤ r.rows * r.stride := row_end_le hi r.stride
    dsimp only
    omega

theorem PackedFrom.trans {rs : List Rect} {info : Block B} {src dst : Nat}
    (hle : ∀ r ∈ rs, r.width ≤ r.stride)
    (hin : PackedFrom sources info (rs.map Rect.padded) src)
    (hout : PackedFrom (fun _ => info) out (staged rs src) dst) :
    PackedFrom sources out rs dst := by
  induction rs generalizing src dst with
  | nil => exact trivial
  | cons r rs ih =>
    obtain ⟨hr, hrs⟩ := List.forall_mem_cons.mp hle
    obtain ⟨hrow, hin⟩ := hin
    obtain ⟨hbytes, hout⟩ := hout
    refine ⟨fun i hi c hc => ?_, ih hrs ?_ hout⟩
    · have hlast := row_end_le hi r.stride
      have hpadded := hrow 0 Nat.one_pos (i * r.stride + c) (by dsimp only [Rect.padded]; omega)
      simp only [Rect.padded, Nat.zero_mul, Nat.add_zero] at hpadded
      rw [hbytes i hi c hc]
      dsimp only
      rw [Nat.add_assoc, hpadded, Nat.add_assoc]
    · simpa only [Rect.padded, Nat.one_mul] using hin

/-- Rectangles without padding are packed already. -/
theorem PackedFrom.of_padded {rs : List Rect} {dst : Nat} (heq : ∀ r ∈ rs, r.width = r.stride)
    (h : PackedFrom sources out (rs.map Rect.padded) dst) : PackedFrom sources out rs dst := by
  induction rs generalizing dst with
  | nil => exact trivial
  | cons r rs ih =>
    obtain ⟨hr, hrs⟩ := List.forall_mem_cons.mp heq
    obtain ⟨hrow, hrest⟩ := h
    refine ⟨fun i hi c hc => ?_, ih hrs ?_⟩
    · have hlast := row_end_le hi r.stride
      have hpadded := hrow 0 Nat.one_pos (i * r.stride + c) (by dsimp only [Rect.padded]; omega)
      simp only [Rect.padded, Nat.zero_mul, Nat.add_zero] at hpadded
      rw [hr, Nat.add_assoc, hpadded, Nat.add_assoc]
    · simpa only [Rect.padded, Nat.one_mul, hr] using hrest

theorem packedSize_padded_of_eq {rs : List Rect} (heq : ∀ r ∈ rs, r.width = r.stride) :
    packedSize (rs.map Rect.padded) = packedSize rs := by
  induction rs with
  | nil => rfl
  | cons r rs ih =>
    obtain ⟨hr, hrs⟩ := List.forall_mem_cons.mp heq
    rw [packedSize_padded_cons, packedSize, ih hrs, hr]

/-- Rows without bytes. -/
theorem PackedFrom.of_width_zero {rs : List Rect} {dst : Nat} (h : ∀ r ∈ rs, r.width = 0) :
    PackedFrom sources out rs dst := by
  induction rs generalizing dst with
  | nil => exact trivial
  | cons r rs ih =>
    obtain ⟨hr, hrs⟩ := List.forall_mem_cons.mp h
    exact ⟨fun i _ c hc => absurd (hr ▸ hc) (Nat.not_lt_zero c), ih hrs⟩

theorem packedSize_of_width_zero {rs : List Rect} (h : ∀ r ∈ rs, r.width = 0) :
    packedSize rs = 0 := by
  induction rs with
  | nil => rfl
  | cons r rs ih =>
    obtain ⟨hr, hrs⟩ := List.forall_mem_cons.mp h
    rw [packedSize, ih hrs, hr, Nat.mul_zero]

end CambriconGst.Lib
