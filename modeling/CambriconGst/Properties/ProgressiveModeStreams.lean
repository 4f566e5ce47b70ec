import CambriconGst.Lib.JpegStream
import CambriconGst.Properties.ProgressiveMode

/-!
# Properties of the progressive mode check on JPEG streams

Up to the first scan's header the loop goes from segment to segment, whatever their payloads; in the
entropy-coded data that follows there are no lengths, and it goes where the bytes lead it.

* `loop_head`: where the loop is after the first scan's header
* `classifies_iff`: a stream is classified rightly if and only if its frame is progressive or the
  loop meets no SOF2 or SOF10 from there on
* `classifies_of_marked`, `classifies_single_scan`: streams for which it does not
-/

namespace CambriconGst.Easycodec.CheckProgressiveMode

open Lib.Jpeg

variable {data : Nat → UInt8} {length i j : Nat}

/-! ## Segments -/

theorem word_eq_iff (hi lo : UInt8) {w : UInt16} (hw : w.toNat = 256 * hi.toNat + lo.toNat) :
    word data i = w ↔ data i = hi ∧ data (i + 1) = lo := by
  have h₁ := (data (i + 1)).toNat_lt
  have h₂ := lo.toNat_lt
  rw [← UInt16.toNat_inj, ← UInt8.toNat_inj, ← UInt8.toNat_inj, word_toNat, hw]
  constructor
  · intro h
    omega
  · rintro ⟨ha, hb⟩
    rw [ha, hb]

/-- What the loop looks for are the bytes of SOF2 and SOF10. -/
theorem progressiveHeader_iff : progressiveHeader (word data i) = true ↔
    data i = 0xFF ∧ (data (i + 1) = 0xC2 ∨ data (i + 1) = 0xCA) := by
  unfold progressiveHeader
  rw [decide_eq_true_iff, word_eq_iff 0xFF 0xC2 (by decide),
    word_eq_iff 0xFF 0xCA (by decide), and_or_left]

variable {k : Kind} {seg : Segment k}

theorem marker_of_holds (h : Holds data i seg.bytes) :
    data i = 0xFF ∧ data (i + 1) = seg.marker := by
  obtain ⟨hff, hrest⟩ := holds_cons.mp h
  exact ⟨hff, (holds_cons.mp hrest).1⟩

/-- The length that is read after a segment's marker leads to the end of the segment. -/
theorem length_of_holds (h : Holds data i seg.bytes) : (word data (i + 2)).toNat = seg.size := by
  obtain ⟨-, h₁⟩ := holds_cons.mp h
  obtain ⟨-, h₂⟩ := holds_cons.mp h₁
  obtain ⟨hhi, h₃⟩ := holds_cons.mp h₂
  obtain ⟨hlo, -⟩ := holds_cons.mp h₃
  have hlt : seg.size < 65536 := seg.length_lt
  rw [word_toNat, show i + 2 = i + 1 + 1 from rfl, hhi, hlo, UInt8.toNat_ofNat',
    UInt8.toNat_ofNat']
  omega

theorem loop_segment (h : Holds data i seg.bytes) (hi : i < length)
    (hmarker : seg.marker ≠ 0xC2 ∧ seg.marker ≠ 0xCA) :
    (loop data length i).1 = (loop data length (i + seg.bytes.length)).1 := by
  have hheader : progressiveHeader (word data i) = false := by
    rw [Bool.eq_false_iff]
    intro hp
    have hm := (progressiveHeader_iff.mp hp).2
    rw [(marker_of_holds h).2] at hm
    exact hm.elim hmarker.1 hmarker.2
  rw [loop_of_segment hi hheader, length_of_holds h, Segment.length_bytes]
  rw [show i + 2 + seg.size = i + (seg.size + 2) by omega]

/-- SOF2 and SOF10 are markers of frames. -/
theorem marker_ne_of_kind (hk : k ≠ .frame) : seg.marker ≠ 0xC2 ∧ seg.marker ≠ 0xCA := by
  constructor
  · intro hm
    have hkind := seg.marker_kind
    rw [hm] at hkind
    exact hk (Option.some.inj hkind).symm
  · intro hm
    have hkind := seg.marker_kind
    rw [hm] at hkind
    exact hk (Option.some.inj hkind).symm

theorem loop_segments {segs : List (Segment .other)}
    (h : Holds data i (segs.flatMap Segment.bytes))
    (hlen : i + (segs.flatMap Segment.bytes).length ≤ length) :
    (loop data length i).1 =
      (loop data length (i + (segs.flatMap Segment.bytes).length)).1 := by
  induction segs generalizing i with
  | nil => rfl
  | cons seg segs ih =>
    rw [List.flatMap_cons] at h hlen ⊢
    rw [List.length_append] at hlen ⊢
    obtain ⟨hseg, hsegs⟩ := holds_append.mp h
    have hpos : 0 < seg.bytes.length := by
      rw [Segment.length_bytes]
      omega
    rw [loop_segment hseg (by omega) (marker_ne_of_kind (by decide)), ih hsegs (by omega),
      Nat.add_assoc]

/-! ## Streams -/

variable {s : Stream}

theorem check_stream (h : Holds data 0 s.bytes) :
    (checkProgressiveMode data length).1 = (loop data length 2).1 := by
  have hbytes : s.bytes = 0xFF :: 0xD8 :: s.bytes.drop 2 := by
    simp [Stream.bytes, Stream.head]
  rw [hbytes, holds_cons, holds_cons] at h
  obtain ⟨hff, hsoi, -⟩ := h
  rw [check_of_header ((word_eq_iff 0xFF 0xD8 (by decide)).mpr ⟨hff, hsoi⟩)]

/-- The loop comes to the frame header, and past it when the frame is not progressive. -/
theorem loop_head (h : Holds data 0 s.bytes) :
    (s.progressive → (loop data s.bytes.length 2).1 = 1) ∧
      (¬ s.progressive → (loop data s.bytes.length 2).1 =
        (loop data s.bytes.length s.head.length).1) := by
  have hlen := s.length_head_le
  obtain ⟨hrest₃, hscan⟩ := holds_append.mp (holds_append.mp h).1
  obtain ⟨hrest₂, hmore⟩ := holds_append.mp hrest₃
  obtain ⟨hrest₁, hframe⟩ := holds_append.mp hrest₂
  obtain ⟨-, htables⟩ := holds_append.mp hrest₁
  simp only [Stream.head, List.length_append, Nat.zero_add] at hlen htables hframe hmore hscan ⊢
  have hsize := s.frame.length_bytes
  rw [show ([0xFF, 0xD8] : List UInt8).length = 2 from rfl] at *
  rw [loop_segments htables (by omega)]
  constructor
  · intro hp
    obtain ⟨hff, hmarker⟩ := marker_of_holds hframe
    rw [loop_of_header (by omega) (progressiveHeader_iff.mpr ⟨hff, hmarker ▸ hp⟩)]
  · intro hp
    rw [loop_segment hframe (by omega) (not_or.mp hp), loop_segments hmore (by omega),
      loop_segment hscan (by omega) (marker_ne_of_kind (by decide))]

/-- The result on the stream is the one that it should be. -/
def Classifies (s : Stream) (data : Nat → UInt8) : Prop :=
  (checkProgressiveMode data s.bytes.length).1 = if s.progressive then 1 else 0

theorem classifies_of_progressive (h : Holds data 0 s.bytes) (hp : s.progressive) :
    Classifies s data := by
  rw [Classifies, check_stream h, if_pos hp]
  exact (loop_head h).1 hp

theorem classifies_iff_of_not_progressive (h : Holds data 0 s.bytes) (hp : ¬ s.progressive) :
    Classifies s data ↔ ∀ j, Walked data s.bytes.length s.head.length j → j < s.bytes.length →
      ¬ (data j = 0xFF ∧ (data (j + 1) = 0xC2 ∨ data (j + 1) = 0xCA)) := by
  rw [Classifies, check_stream h, if_neg hp, (loop_head h).2 hp, loop_eq_zero_iff]
  simp only [← progressiveHeader_iff, Bool.not_eq_true]

/--
**A stream is classified rightly** if and only if its frame is progressive, or the loop, which goes
on into the first scan's entropy-coded data as if a segment started there, comes to no bytes of an
SOF2 or SOF10 marker. `beyond` is what memory holds after the stream.
-/
theorem classifies_iff (s : Stream) (beyond : Nat → UInt8) :
    Classifies s (memory s.bytes beyond) ↔ s.progressive ∨
      ∀ j, Walked (memory s.bytes beyond) s.bytes.length s.head.length j → j < s.bytes.length →
        ¬ (memory s.bytes beyond j = 0xFF ∧
          (memory s.bytes beyond (j + 1) = 0xC2 ∨ memory s.bytes beyond (j + 1) = 0xCA)) := by
  have h := holds_memory s.bytes beyond
  by_cases hp : s.progressive
  · exact iff_of_true (classifies_of_progressive h hp) (.inl hp)
  · rw [classifies_iff_of_not_progressive h hp, or_iff_right hp]

/-! ## Streams that are classified rightly -/

/-- No two bytes after the first scan's header look like an SOF2 or SOF10 marker. -/
theorem classifies_of_marked (h : Holds data 0 s.bytes)
    (hm : Marked (fun b => b ≠ 0xC2 ∧ b ≠ 0xCA) s.tail) : Classifies s data := by
  by_cases hp : s.progressive
  · exact classifies_of_progressive h hp
  · rw [classifies_iff_of_not_progressive h hp]
    rintro j hw hj ⟨hff, hmarker⟩
    have htail : Holds data s.head.length s.tail := by
      have htail := (holds_append.mp h).2
      rwa [Nat.zero_add] at htail
    have hlen : s.bytes.length = s.head.length + s.tail.length := List.length_append
    obtain ⟨k, rfl⟩ := Nat.exists_eq_add_of_le hw.start_le
    have hk := htail.getElem? (k := k) (by omega)
    rw [hff] at hk
    by_cases hlast : k + 1 < s.tail.length
    · obtain ⟨hC2, hCA⟩ := hm.getElem hk (htail.getElem? hlast)
      exact hmarker.elim hC2 hCA
    · rw [Stream.getElem?_tail (by omega)] at hk
      cases hk

/-- A stream of one scan, with nothing after it. -/
theorem classifies_single_scan (h : Holds data 0 s.bytes) (hafter : s.first.after = [])
    (hothers : s.others = []) : Classifies s data := by
  refine classifies_of_marked h ?_
  have htail : s.tail = s.first.coded.flatMap Coded.bytes ++ [0xFF, 0xD9] := by
    simp [Stream.tail, Scan.body, hafter, hothers]
  rw [htail]
  refine marked_coded (by decide) (by decide) ⟨fun _ => by decide, trivial⟩

/-! ## A stream that is not -/

/--
A baseline frame of 8 by 8 samples, entropy-coded data that starts with two bytes other than
`FF C2` and the length 6, and a comment `FF C2`.
-/
def commentedBaseline : Stream where
  tables := []
  frame :=
    { marker := 0xC0
      payload := [8, 0, 8, 0, 8, 1, 1, 0x11, 0]
      marker_kind := rfl
      length_lt := by decide }
  more := []
  first :=
    { header :=
        { marker := 0xDA
          payload := [1, 1, 0, 0, 63, 0]
          marker_kind := rfl
          length_lt := by decide }
      coded := [.byte 0 (by decide), .byte 0 (by decide), .byte 0 (by decide), .byte 6 (by decide)]
      after :=
        [{ marker := 0xFE
           payload := [0xFF, 0xC2]
           marker_kind := rfl
           length_lt := by decide }] }
  others := []

/-- The loop lands on the comment and takes the baseline stream for a progressive one. -/
theorem comment_taken_for_frame : ¬ commentedBaseline.progressive ∧
    (checkProgressiveMode (memory commentedBaseline.bytes fun _ => 0)
      commentedBaseline.bytes.length).1 = 1 := by
  have hp : ¬ commentedBaseline.progressive := by decide
  have h := holds_memory commentedBaseline.bytes fun _ => 0
  refine ⟨hp, ?_⟩
  rw [check_stream h, (loop_head h).2 hp, loop_eq_one_iff]
  exact ⟨_, .step .start (by decide) (by decide), by decide, by decide⟩

end CambriconGst.Easycodec.CheckProgressiveMode
