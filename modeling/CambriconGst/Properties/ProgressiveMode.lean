import CambriconGst.Easycodec.ProgressiveMode
import Mathlib.Data.List.Basic

/-!
# Properties of the progressive mode check

The loop goes from segment start to segment start, by the lengths it reads.

* `loop_induction`: what holds past the end, at a header it looks for, and before a segment when
  after it, holds of the loop
* `reads_in_bounds_iff`: the check reads inside the packet if and only if no segment start that it
  comes to is too close to the end
-/

namespace CambriconGst.Easycodec.CheckProgressiveMode

variable {data : Nat → UInt8} {length start i j : Nat}

/-! ## Words -/

theorem word_toNat : (word data i).toNat = 256 * (data i).toNat + (data (i + 1)).toNat := by
  have ha := (data i).toNat_lt
  have hb := (data (i + 1)).toNat_lt
  have hshift : ((data i).toUInt16 <<< 8).toNat = (data i).toNat <<< 8 := by
    rw [UInt16.toNat_shiftLeft, UInt8.toNat_toUInt16]
    refine Nat.mod_eq_of_lt ?_
    rw [show (8 : UInt16).toNat % 16 = 8 from rfl, Nat.shiftLeft_eq]
    omega
  rw [word, UInt16.toNat_or, hshift, UInt8.toNat_toUInt16,
    ← Nat.shiftLeft_add_eq_or_of_lt hb, Nat.shiftLeft_eq]
  omega

/-! ## The loop -/

theorem loop_of_ge (h : length ≤ i) : loop data length i = (0, []) := by
  rw [loop, if_neg (Nat.not_lt.mpr h)]

theorem loop_of_header (hi : i < length) (h : progressiveHeader (word data i) = true) :
    loop data length i = (1, [i, i + 1]) := by
  rw [loop, if_pos hi, if_pos h]

theorem loop_of_segment (hi : i < length) (h : progressiveHeader (word data i) = false) :
    loop data length i =
      ((loop data length (i + 2 + (word data (i + 2)).toNat)).1,
        [i, i + 1, i + 2, i + 3] ++ (loop data length (i + 2 + (word data (i + 2)).toNat)).2) := by
  rw [loop, if_pos hi, if_neg (by simp [h])]

/-- **The three ends of a pass.** -/
theorem loop_induction (data : Nat → UInt8) (length : Nat) {P : Nat → Prop}
    (hend : ∀ i, length ≤ i → P i)
    (hheader : ∀ i, i < length → progressiveHeader (word data i) = true → P i)
    (hsegment : ∀ i, i < length → progressiveHeader (word data i) = false →
      P (i + 2 + (word data (i + 2)).toNat) → P i) (i : Nat) : P i := by
  induction hn : length - i using Nat.strongRecOn generalizing i with
  | ind n ih =>
    by_cases hi : i < length
    · by_cases h : progressiveHeader (word data i) = true
      · exact hheader i hi h
      · refine hsegment i hi (by simpa using h) (ih _ ?_ _ rfl)
        omega
    · exact hend i (Nat.not_lt.mp hi)

/-- The indices that the loop comes to, from `start` on. -/
inductive Walked (data : Nat → UInt8) (length start : Nat) : Nat → Prop where
  | start : Walked data length start start
  | step {i : Nat} (h : Walked data length start i) (hi : i < length)
      (hheader : progressiveHeader (word data i) = false) :
      Walked data length start (i + 2 + (word data (i + 2)).toNat)

/-- A first pass, and the walk from where it ends. -/
theorem Walked.head (hi : i < length) (hheader : progressiveHeader (word data i) = false)
    (h : Walked data length (i + 2 + (word data (i + 2)).toNat) j) : Walked data length i j := by
  induction h with
  | start => exact .step .start hi hheader
  | step _ hk hseg ih => exact .step ih hk hseg

theorem Walked.eq_or_head (h : Walked data length i j) : i = j ∨
    i < length ∧ progressiveHeader (word data i) = false ∧
      Walked data length (i + 2 + (word data (i + 2)).toNat) j := by
  induction h with
  | start => exact .inl rfl
  | step _ hk hseg ih =>
    rcases ih with rfl | ⟨hi, hheader, hw⟩
    · exact .inr ⟨hk, hseg, .start⟩
    · exact .inr ⟨hi, hheader, .step hw hk hseg⟩

/-- The 64-bit index does not wrap, for packets that leave 65536 bytes to its range. -/
theorem Walked.le (h : Walked data length start j) (hs : start ≤ length + 65536) :
    j ≤ length + 65536 := by
  cases h with
  | start => exact hs
  | @step i _ hi _ =>
    have hstep := (word data (i + 2)).toNat_lt
    omega

theorem Walked.start_le (h : Walked data length start j) : start ≤ j := by
  induction h with
  | start => exact Nat.le_refl _
  | step _ _ _ ih => omega

/-- The indices that are read at a segment start. -/
def readsAt (data : Nat → UInt8) (i : Nat) : List Nat :=
  if progressiveHeader (word data i) then [i, i + 1] else [i, i + 1, i + 2, i + 3]

/-- **The reads of the loop** are those at the segment starts it comes to. -/
theorem mem_loop_reads {k : Nat} : k ∈ (loop data length i).2 ↔
    ∃ j, Walked data length i j ∧ j < length ∧ k ∈ readsAt data j := by
  refine loop_induction data length
    (P := fun i => k ∈ (loop data length i).2 ↔
      ∃ j, Walked data length i j ∧ j < length ∧ k ∈ readsAt data j) ?_ ?_ ?_ i
  · intro i hi
    rw [loop_of_ge hi]
    refine iff_of_false List.not_mem_nil ?_
    rintro ⟨j, hw, hj, -⟩
    rcases hw.eq_or_head with rfl | ⟨hlt, -⟩
    · omega
    · omega
  · intro i hi hheader
    rw [loop_of_header hi hheader]
    constructor
    · intro hk
      refine ⟨i, .start, hi, ?_⟩
      rwa [readsAt, if_pos hheader]
    · rintro ⟨j, hw, -, hk⟩
      rcases hw.eq_or_head with rfl | ⟨-, hseg, -⟩
      · rwa [readsAt, if_pos hheader] at hk
      · rw [hheader] at hseg
        cases hseg
  · intro i hi hseg ih
    rw [loop_of_segment hi hseg, List.mem_append, ih]
    constructor
    · rintro (hk | ⟨j, hw, hj, hk⟩)
      · refine ⟨i, .start, hi, ?_⟩
        rwa [readsAt, if_neg (by simp [hseg])]
      · exact ⟨j, hw.head hi hseg, hj, hk⟩
    · rintro ⟨j, hw, hj, hk⟩
      rcases hw.eq_or_head with rfl | ⟨-, -, hw⟩
      · rw [readsAt, if_neg (by simp [hseg])] at hk
        exact .inl hk
      · exact .inr ⟨j, hw, hj, hk⟩

/-- The result is 1 when the loop comes to a header that it looks for. -/
theorem loop_eq_one_iff : (loop data length i).1 = 1 ↔
    ∃ j, Walked data length i j ∧ j < length ∧ progressiveHeader (word data j) = true := by
  refine loop_induction data length
    (P := fun i => (loop data length i).1 = 1 ↔
      ∃ j, Walked data length i j ∧ j < length ∧ progressiveHeader (word data j) = true)
    ?_ ?_ ?_ i
  · intro i hi
    rw [loop_of_ge hi]
    refine iff_of_false (by decide) ?_
    rintro ⟨j, hw, hj, -⟩
    rcases hw.eq_or_head with rfl | ⟨hlt, -⟩
    · omega
    · omega
  · intro i hi hheader
    rw [loop_of_header hi hheader]
    exact iff_of_true rfl ⟨i, .start, hi, hheader⟩
  · intro i hi hseg ih
    rw [loop_of_segment hi hseg, ih]
    constructor
    · rintro ⟨j, hw, hj, hheader⟩
      exact ⟨j, hw.head hi hseg, hj, hheader⟩
    · rintro ⟨j, hw, hj, hheader⟩
      rcases hw.eq_or_head with rfl | ⟨-, -, hw⟩
      · rw [hseg] at hheader
        cases hheader
      · exact ⟨j, hw, hj, hheader⟩

/-- And it is 0 otherwise. -/
theorem loop_result (data : Nat → UInt8) (length i : Nat) :
    (loop data length i).1 = 1 ∨ (loop data length i).1 = 0 := by
  refine loop_induction data length
    (P := fun i => (loop data length i).1 = 1 ∨ (loop data length i).1 = 0) ?_ ?_ ?_ i
  · intro i hi
    rw [loop_of_ge hi]
    exact .inr rfl
  · intro i hi hheader
    rw [loop_of_header hi hheader]
    exact .inl rfl
  · intro i hi hseg ih
    rw [loop_of_segment hi hseg]
    exact ih

theorem loop_eq_zero_iff : (loop data length i).1 = 0 ↔
    ∀ j, Walked data length i j → j < length → progressiveHeader (word data j) = false := by
  constructor
  · intro hzero j hw hj
    rw [Bool.eq_false_iff]
    intro hheader
    have hone := loop_eq_one_iff.mpr ⟨j, hw, hj, hheader⟩
    rw [hzero] at hone
    cases hone
  · intro hnone
    refine (loop_result data length i).resolve_left fun hone => ?_
    obtain ⟨j, hw, hj, hheader⟩ := loop_eq_one_iff.mp hone
    rw [hnone j hw hj] at hheader
    cases hheader

/-! ## Bounds -/

/--
The segment starts that the check comes to leave room for what is read there: the header, and the
length too unless the header is one that it looks for.
-/
def RoomAtStarts (data : Nat → UInt8) (length : Nat) : Prop :=
  ∀ j, Walked data length 2 j → j < length →
    j + (if progressiveHeader (word data j) then 1 else 3) < length

theorem readsAt_lt_iff :
    (∀ k ∈ readsAt data i, k < length) ↔
      i + (if progressiveHeader (word data i) then 1 else 3) < length := by
  unfold readsAt
  split
  · simp only [List.mem_cons, List.not_mem_nil, or_false, forall_eq_or_imp, forall_eq]
    omega
  · simp only [List.mem_cons, List.not_mem_nil, or_false, forall_eq_or_imp, forall_eq]
    omega

theorem loop_in_bounds_iff :
    (∀ k ∈ (loop data length 2).2, k < length) ↔ RoomAtStarts data length := by
  simp only [mem_loop_reads]
  constructor
  · intro h j hw hj
    exact readsAt_lt_iff.mp fun k hk => h k ⟨j, hw, hj, hk⟩
  · rintro h k ⟨j, hw, hj, hk⟩
    exact readsAt_lt_iff.mpr (h j hw hj) k hk

theorem check_of_header (h : word data 0 = kJpegHeader) : checkProgressiveMode data length =
    ((loop data length 2).1, [0, 1] ++ (loop data length 2).2) := by
  unfold checkProgressiveMode
  rw [if_neg (not_not_intro h)]

theorem check_of_not_header (h : word data 0 ≠ kJpegHeader) :
    checkProgressiveMode data length = (-1, [0, 1]) := by
  unfold checkProgressiveMode
  rw [if_pos h]

/-- A packet is read past its end when a segment start is among its last three bytes. -/
theorem reads_past_end (h : word data 0 = kJpegHeader) (hw : Walked data length 2 i)
    (hi : i < length) (hend : length ≤ i + 3) (hheader : progressiveHeader (word data i) = false) :
    ∃ k ∈ (checkProgressiveMode data length).2, length ≤ k := by
  refine ⟨i + 3, ?_, hend⟩
  rw [check_of_header h]
  refine List.mem_append_right _ (mem_loop_reads.mpr ⟨i, hw, hi, ?_⟩)
  rw [readsAt, if_neg (by simp [hheader])]
  simp

/--
**The check reads inside the packet** if and only if the packet has two bytes and, when they are a
JPEG header, no segment start is too close to its end.
-/
theorem reads_in_bounds_iff (data : Nat → UInt8) (length : Nat) :
    (∀ k ∈ (checkProgressiveMode data length).2, k < length) ↔
      2 ≤ length ∧ (word data 0 = kJpegHeader → RoomAtStarts data length) := by
  have hfirst : (∀ k ∈ [0, 1], k < length) ↔ 2 ≤ length := by
    simp only [List.mem_cons, List.not_mem_nil, or_false, forall_eq_or_imp, forall_eq]
    omega
  by_cases h : word data 0 = kJpegHeader
  · rw [check_of_header h, List.forall_mem_append, hfirst, loop_in_bounds_iff]
    exact and_congr_right fun _ => ⟨fun hr _ => hr, fun hr => hr h⟩
  · rw [check_of_not_header h, hfirst]
    exact ⟨fun hl => ⟨hl, fun he => absurd he h⟩, And.left⟩

/-- `FF D8 FF D9`, with nothing after it: the length of the segment that EOI does not start. -/
theorem end_of_image_overread :
    ∃ k ∈ (checkProgressiveMode (fun i => [0xFF, 0xD8, 0xFF, 0xD9].getD i 0) 4).2, 4 ≤ k :=
  reads_past_end (by decide) .start (by decide) (by decide) (by decide)

end CambriconGst.Easycodec.CheckProgressiveMode
