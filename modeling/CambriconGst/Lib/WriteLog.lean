import Mathlib.Tactic.TypeStar

/-!
# Logs of writes to a memory

A memory that starts as zeros and is written datum by datum, each of some bytes.

* `load`: what lies at an offset in the end; a datum that was overwritten in part is torn
* `WrittenTo`: a part of a log that was written to a range of its own
-/

namespace CambriconGst.Lib

structure Write (β : Type*) where
  offset : Nat
  size : Nat
  datum : β
deriving DecidableEq, Repr

inductive Loaded (β : Type*) where
  | zero
  | datum (b : β)
  | torn
deriving DecidableEq, Repr

variable {β : Type*} {w : Write β} {ws log : List (Write β)} {o n start len : Nat}

namespace Write

/-- Some byte of the range is written. -/
def Overlaps (w : Write β) (o n : Nat) : Prop :=
  w.offset < o + n ∧ o < w.offset + w.size

instance (w : Write β) (o n : Nat) : Decidable (w.Overlaps o n) := by
  unfold Overlaps
  infer_instance

/-- All of what is written lies in the range. -/
def Inside (w : Write β) (start len : Nat) : Prop :=
  start ≤ w.offset ∧ w.offset + w.size ≤ start + len

def Outside (w : Write β) (start len : Nat) : Prop :=
  w.offset + w.size ≤ start ∨ start + len ≤ w.offset

/-- The write that is `k` bytes further on. -/
def shift (k : Nat) (w : Write β) : Write β :=
  { w with offset := k + w.offset }

theorem Outside.not_overlaps (h : w.Outside start len) (ho : start ≤ o)
    (hn : o + n ≤ start + len) : ¬w.Overlaps o n := by
  unfold Outside at h
  unfold Overlaps
  omega

theorem overlaps_shift {k : Nat} : (w.shift k).Overlaps (k + o) n ↔ w.Overlaps o n := by
  unfold Overlaps shift
  dsimp only
  omega

end Write

/-- What lies in the `n` bytes at `o` after the writes of the log. -/
def load (log : List (Write β)) (o n : Nat) : Loaded β :=
  match log.reverse.find? fun w => w.Overlaps o n with
  | none => .zero
  | some w => if w.offset = o ∧ w.size = n then .datum w.datum else .torn

theorem load_eq_zero (h : ∀ w ∈ log, ¬w.Overlaps o n) : load log o n = .zero := by
  have hnone : log.reverse.find? (fun w => w.Overlaps o n) = none :=
    List.find?_eq_none.mpr fun w hw => by simpa using h w (List.mem_reverse.mp hw)
  rw [load, hnone]

/-- Only one write is there. -/
theorem load_eq_datum (hw : w ∈ log) (hn : 0 < w.size)
    (h : ∀ w' ∈ log, w'.Overlaps w.offset w.size → w' = w) :
    load log w.offset w.size = .datum w.datum := by
  unfold load
  cases hfind : log.reverse.find? fun w' => w'.Overlaps w.offset w.size with
  | none =>
    have hover : w.Overlaps w.offset w.size := ⟨by omega, by omega⟩
    have hnot := List.find?_eq_none.mp hfind w (List.mem_reverse.mpr hw)
    exact absurd hover (by simpa using hnot)
  | some w' =>
    have hmem := List.mem_reverse.mp (List.mem_of_find?_eq_some hfind)
    have hover : w'.Overlaps w.offset w.size := by simpa using List.find?_some hfind
    rw [h w' hmem hover]
    exact if_pos ⟨rfl, rfl⟩

theorem load_append_left (h : ∀ w ∈ ws, ¬w.Overlaps o n) : load (log ++ ws) o n = load log o n := by
  have hnone : ws.reverse.find? (fun w => w.Overlaps o n) = none :=
    List.find?_eq_none.mpr fun w hw => by simpa using h w (List.mem_reverse.mp hw)
  unfold load
  rw [List.reverse_append, List.find?_append, hnone, Option.none_or]

theorem load_append_right (h : ∀ w ∈ log, ¬w.Overlaps o n) : load (log ++ ws) o n = load ws o n := by
  have hnone : log.reverse.find? (fun w => w.Overlaps o n) = none :=
    List.find?_eq_none.mpr fun w hw => by simpa using h w (List.mem_reverse.mp hw)
  unfold load
  rw [List.reverse_append, List.find?_append, hnone, Option.or_none]

theorem load_shift (k : Nat) : load (log.map (Write.shift k)) (k + o) n = load log o n := by
  have hfun : (fun w : Write β => decide (w.Overlaps (k + o) n)) ∘ Write.shift k
      = fun w => decide (w.Overlaps o n) :=
    funext fun w => decide_eq_decide.mpr Write.overlaps_shift
  unfold load
  rw [← List.map_reverse, List.find?_map, hfun]
  cases log.reverse.find? fun w => w.Overlaps o n with
  | none => rfl
  | some w => simp [Write.shift]

/-- A part of the log that was written to a range of its own. -/
def WrittenTo (log block : List (Write β)) (start len : Nat) : Prop :=
  ∃ before after, log = before ++ block ++ after ∧
    (∀ w ∈ before, w.Outside start len) ∧ ∀ w ∈ after, w.Outside start len

namespace WrittenTo

variable {block : List (Write β)}

theorem of_append (h : ∀ w ∈ log, w.Outside start len) :
    WrittenTo (log ++ block) block start len :=
  ⟨log, [], (List.append_nil _).symm, h, fun _ hw => absurd hw List.not_mem_nil⟩

/-- Writes elsewhere leave the part alone. -/
theorem append (h : WrittenTo log block start len) (hw : ∀ w ∈ ws, w.Outside start len) :
    WrittenTo (log ++ ws) block start len := by
  obtain ⟨before, after, rfl, hb, ha⟩ := h
  refine ⟨before, after ++ ws, by simp only [List.append_assoc], hb, fun w hmem => ?_⟩
  rcases List.mem_append.mp hmem with hmem | hmem
  · exact ha w hmem
  · exact hw w hmem

/-- What lies in the range is what the part wrote there. -/
theorem load_eq (h : WrittenTo log block start len) (ho : start ≤ o) (hn : o + n ≤ start + len) :
    load log o n = load block o n := by
  obtain ⟨before, after, rfl, hb, ha⟩ := h
  rw [load_append_left fun w hw => (ha w hw).not_overlaps ho hn,
    load_append_right fun w hw => (hb w hw).not_overlaps ho hn]

end WrittenTo

end CambriconGst.Lib
