import Mathlib.Data.List.Basic

/-!
# Batches of a queue

Elements wait in a queue and leave it in batches of `n`; a batch for which too few wait is filled up
with copies of the first.

* `Accounts.push`, `Accounts.take`: the batches without their padding, and then the queue, are the
  elements in the order in which they came
-/

namespace CambriconGst.Lib.Batching

variable {α : Type*}

/-- A batch, with the number of elements that were waiting when it was taken. -/
structure Batch (α : Type*) where
  slots : List α
  pending : Nat
deriving DecidableEq, Repr

/-- The elements of a batch that are not padding. -/
def Batch.inputs (b : Batch α) : List α :=
  b.slots.take b.pending

/-- The queue filled up to `n` with copies of its first element. -/
def pad (n : Nat) (queue : List α) : List α :=
  queue ++ (queue.head?.map fun a => List.replicate (n - queue.length) a).getD []

/-- The batch that is taken. -/
def next (n : Nat) (queue : List α) : Batch α where
  slots := (pad n queue).take n
  pending := queue.length

/-- A full batch, with copies of its first element for those that were missing. -/
structure Padded (n : Nat) (b : Batch α) : Prop where
  length_slots : b.slots.length = n
  pending_pos : 0 < b.pending
  padding : ∀ first, b.slots.head? = some first →
    b.slots.drop b.pending = List.replicate (n - b.pending) first

/-- The elements given are those of the batches, and then those that wait. -/
def Accounts (given : List α) (batches : List (Batch α)) (queue : List α) : Prop :=
  batches.flatMap Batch.inputs ++ queue = given

variable {n : Nat} {queue given : List α} {batches : List (Batch α)} {a : α}

theorem pad_of_le (h : n ≤ queue.length) : pad n queue = queue := by
  unfold pad
  rw [Nat.sub_eq_zero_of_le h]
  cases queue.head? <;> simp

theorem pad_cons {rest : List α} :
    pad n (a :: rest) = a :: rest ++ List.replicate (n - (rest.length + 1)) a :=
  rfl

theorem length_pad (h : queue ≠ []) : (pad n queue).length = max queue.length n := by
  obtain ⟨a, rest, rfl⟩ := List.exists_cons_of_ne_nil h
  rw [pad_cons, List.length_append, List.length_replicate, List.length_cons]
  omega

/-- What waits after a batch was taken. -/
theorem drop_pad : (pad n queue).drop n = queue.drop n := by
  cases queue with
  | nil => rfl
  | cons a rest =>
    by_cases hn : n ≤ (a :: rest).length
    · rw [pad_of_le hn]
    · have hlen := length_pad (n := n) (List.cons_ne_nil a rest)
      rw [List.drop_eq_nil_of_le (by omega), List.drop_eq_nil_of_le (by omega)]

theorem inputs_next : (next n queue).inputs = queue.take n := by
  cases queue with
  | nil => simp [Batch.inputs, next, pad]
  | cons a rest =>
    rw [Batch.inputs, next, pad_cons, List.take_take, Nat.min_comm, ← List.take_take,
      List.take_left]

theorem next_padded (h : queue ≠ []) : Padded n (next n queue) where
  length_slots := by
    rw [next, List.length_take, length_pad h]
    omega
  pending_pos := List.length_pos_of_ne_nil h
  padding := by
    obtain ⟨a, rest, rfl⟩ := List.exists_cons_of_ne_nil h
    intro first hfirst
    have ha : a = first := by
      cases n with
      | zero => cases hfirst
      | succ n => exact Option.some.inj hfirst
    rw [next, pad_cons, List.drop_take, List.drop_left' rfl, ha, List.take_replicate,
      List.length_cons, Nat.min_self]

theorem accounts_nil : Accounts ([] : List α) [] [] :=
  rfl

theorem Accounts.push (h : Accounts given batches queue) :
    Accounts (given ++ [a]) batches (queue ++ [a]) := by
  unfold Accounts at h ⊢
  rw [← h, List.append_assoc]

theorem Accounts.take (h : Accounts given batches queue) :
    Accounts given (batches ++ [next n queue]) ((pad n queue).drop n) := by
  unfold Accounts at h ⊢
  rw [List.flatMap_append, List.flatMap_singleton, inputs_next, drop_pad, List.append_assoc,
    List.take_append_drop, h]

end CambriconGst.Lib.Batching
