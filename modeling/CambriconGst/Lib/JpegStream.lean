import Mathlib.Data.List.Basic

/-!
# JPEG streams

The marker structure of a JPEG stream with one frame: segments that carry their length, and scans of
entropy-coded data, in which a byte `0xFF` is followed by a zero byte or is that of a restart marker.
What the payloads say is left open.
-/

namespace CambriconGst.Lib.Jpeg

/-- The markers that start a segment, less those of nested frames. -/
inductive Kind where
  | frame
  | scan
  | other
deriving DecidableEq, Repr

/-- The kind of segment that follows a marker. -/
def kind (marker : UInt8) : Option Kind :=
  -- `0x00` and `0xFF` are no markers, TEM, RSTn, SOI and EOI have no segment
  if marker = 0x00 ∨ marker = 0x01 ∨ marker = 0xFF ∨ 0xD0 ≤ marker ∧ marker ≤ 0xD9 then none
  else if marker = 0xDA then some .scan
  -- DHT, JPG and DAC lie between the SOFn
  else if 0xC0 ≤ marker ∧ marker ≤ 0xCF ∧ marker ≠ 0xC4 ∧ marker ≠ 0xC8 ∧ marker ≠ 0xCC then
    some .frame
  else some .other

structure Segment (k : Kind) where
  marker : UInt8
  payload : List UInt8
  marker_kind : kind marker = some k
  length_lt : payload.length + 2 < 65536

/-- A piece of entropy-coded data. -/
inductive Coded where
  | byte (b : UInt8) (h : b ≠ 0xFF)
  | stuffed
  | restart (n : Fin 8)

structure Scan where
  header : Segment .scan
  coded : List Coded
  after : List (Segment .other)

structure Stream where
  tables : List (Segment .other)
  frame : Segment .frame
  more : List (Segment .other)
  first : Scan
  others : List Scan

/-! ## Bytes -/

namespace Segment

variable {k : Kind}

/-- The bytes after the marker, with those of the length. -/
def size (s : Segment k) : Nat :=
  s.payload.length + 2

def bytes (s : Segment k) : List UInt8 :=
  0xFF :: s.marker :: UInt8.ofNat (s.size / 256) :: UInt8.ofNat (s.size % 256) :: s.payload

@[simp]
theorem length_bytes (s : Segment k) : s.bytes.length = s.size + 2 := by
  simp [bytes, size]

end Segment

namespace Coded

def bytes : Coded → List UInt8
  | .byte b _ => [b]
  | .stuffed => [0xFF, 0x00]
  | .restart n => [0xFF, 0xD0 + UInt8.ofNat n.val]

end Coded

/-- What follows the header. -/
def Scan.body (s : Scan) : List UInt8 :=
  s.coded.flatMap Coded.bytes ++ s.after.flatMap Segment.bytes

namespace Stream

/-- SOFn of a progressive frame: SOF2, SOF10. -/
def progressive (s : Stream) : Prop :=
  s.frame.marker = 0xC2 ∨ s.frame.marker = 0xCA

instance (s : Stream) : Decidable s.progressive := by
  unfold progressive
  infer_instance

/-- The stream up to the first scan's header, and with it. -/
def head (s : Stream) : List UInt8 :=
  [0xFF, 0xD8] ++ s.tables.flatMap Segment.bytes ++ s.frame.bytes ++
    s.more.flatMap Segment.bytes ++ s.first.header.bytes

/-- The stream from the first scan's entropy-coded data on. -/
def tail (s : Stream) : List UInt8 :=
  s.first.body ++ s.others.flatMap (fun scan => scan.header.bytes ++ scan.body) ++ [0xFF, 0xD9]

def bytes (s : Stream) : List UInt8 :=
  s.head ++ s.tail

theorem length_head_le (s : Stream) : s.head.length + 2 ≤ s.bytes.length := by
  simp only [bytes, tail, List.length_append, List.length_cons, List.length_nil]
  omega

end Stream

/-- A stream ends with EOI. -/
theorem Stream.getElem?_tail {s : Stream} {i : Nat} (h : i + 1 = s.tail.length) :
    s.tail[i]? = some 0xD9 := by
  rw [tail, List.length_append] at h
  rw [tail, List.getElem?_append_right (by simp only [List.length_cons, List.length_nil] at h; omega)]
  rw [show i - _ = 1 by simp only [List.length_cons, List.length_nil] at h; omega]
  rfl

/-! ## Byte pairs -/

/-- No byte `0xFF` is followed by one that fails `p`. -/
def Marked (p : UInt8 → Prop) : List UInt8 → Prop
  | [] => True
  | [_] => True
  | a :: b :: xs => (a = 0xFF → p b) ∧ Marked p (b :: xs)

variable {p : UInt8 → Prop}

theorem Marked.getElem {xs : List UInt8} (h : Marked p xs) {i : Nat} {b : UInt8}
    (ha : xs[i]? = some 0xFF) (hb : xs[i + 1]? = some b) : p b := by
  induction xs generalizing i with
  | nil => cases ha
  | cons x xs ih =>
    cases xs with
    | nil => simp at hb
    | cons y ys =>
      cases i with
      | zero =>
        simp only [List.getElem?_cons_zero, List.getElem?_cons_succ, Option.some.injEq] at ha hb
        exact hb ▸ h.1 ha
      | succ i => exact ih h.2 (by simpa using ha) (by simpa using hb)

/-- After entropy-coded data, `0xFF` is that of stuffing or of a restart marker. -/
theorem marked_coded (hzero : p 0x00) (hrst : ∀ n : Fin 8, p (0xD0 + UInt8.ofNat n.val))
    {cs : List Coded} {xs : List UInt8} (h : Marked p xs) :
    Marked p (cs.flatMap Coded.bytes ++ xs) := by
  have hcons : ∀ (a : UInt8) (ys : List UInt8), Marked p ys → a ≠ 0xFF → Marked p (a :: ys) := by
    intro a ys hys ha
    cases ys with
    | nil => trivial
    | cons b ys => exact ⟨fun he => absurd he ha, hys⟩
  induction cs with
  | nil => exact h
  | cons c cs ih =>
    rw [List.flatMap_cons, List.append_assoc]
    cases c with
    | byte b hb => exact hcons b _ ih hb
    | stuffed => exact ⟨fun _ => hzero, hcons _ _ ih (by decide)⟩
    | restart n =>
      have hne : ∀ n : Fin 8, (0xD0 : UInt8) + UInt8.ofNat n.val ≠ 0xFF := by decide
      exact ⟨fun _ => hrst n, hcons _ _ ih (hne n)⟩

/-! ## Streams in memory -/

/-- The bytes are in memory from the index on. -/
def Holds (data : Nat → UInt8) (i : Nat) (xs : List UInt8) : Prop :=
  ∀ k (h : k < xs.length), data (i + k) = xs.get ⟨k, h⟩

variable {data : Nat → UInt8} {i : Nat} {xs ys : List UInt8}

theorem holds_append :
    Holds data i (xs ++ ys) ↔ Holds data i xs ∧ Holds data (i + xs.length) ys := by
  constructor
  · intro h
    refine ⟨fun k hk => ?_, fun k hk => ?_⟩
    · have hlt : k < (xs ++ ys).length := by
        rw [List.length_append]
        omega
      rw [h k hlt]
      simp [List.getElem_append_left hk]
    · have hlt : xs.length + k < (xs ++ ys).length := by
        rw [List.length_append]
        omega
      rw [Nat.add_assoc, h _ hlt]
      simp
  · rintro ⟨hx, hy⟩ k hk
    by_cases hlt : k < xs.length
    · rw [hx k hlt]
      simp [List.getElem_append_left hlt]
    · have hk' : k - xs.length < ys.length := by
        rw [List.length_append] at hk
        omega
      have hy' := hy _ hk'
      rw [show i + xs.length + (k - xs.length) = i + k by omega] at hy'
      rw [hy']
      simp [List.getElem_append_right (Nat.le_of_not_lt hlt)]

theorem Holds.getElem? (h : Holds data i xs) {k : Nat} (hk : k < xs.length) :
    xs[k]? = some (data (i + k)) := by
  rw [h k hk]
  exact List.getElem?_eq_getElem hk

/-- Memory with the bytes at its start, and anything beyond them. -/
def memory (xs : List UInt8) (beyond : Nat → UInt8) (i : Nat) : UInt8 :=
  xs.getD i (beyond i)

theorem holds_memory (xs : List UInt8) (beyond : Nat → UInt8) : Holds (memory xs beyond) 0 xs := by
  intro k hk
  rw [memory, Nat.zero_add, List.getD_eq_getElem?_getD, List.getElem?_eq_getElem hk]
  rfl

theorem holds_cons {x : UInt8} :
    Holds data i (x :: xs) ↔ data i = x ∧ Holds data (i + 1) xs := by
  have happ : Holds data i ([x] ++ xs) ↔ Holds data i [x] ∧ Holds data (i + 1) xs := holds_append
  have hone : Holds data i [x] ↔ data i = x := by
    constructor
    · intro h
      exact h 0 Nat.one_pos
    · intro h k hk
      obtain rfl : k = 0 := by simpa using hk
      exact h
  rw [hone] at happ
  exact happ

end CambriconGst.Lib.Jpeg
