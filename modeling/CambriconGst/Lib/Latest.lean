import Mathlib.Data.List.Infix

/-!
# The latest items

A list to which items are appended, and which drops its oldest item when it then has more than `n`.

* `push_suffix`: the list stays a last part of all that was appended
* `length_push_le_iff`: one item is dropped at most, so a list that is too long stays too long
-/

namespace CambriconGst.Lib.Latest

variable {α β : Type*} {n : Nat} {xs history : List α} {x : α}

def push (n : Nat) (xs : List α) (x : α) : List α :=
  if (xs ++ [x]).length > n then (xs ++ [x]).tail else xs ++ [x]

theorem push_map (f : α → β) : (push n xs x).map f = push n (xs.map f) (f x) := by
  unfold push
  rw [apply_ite (List.map f), List.map_tail, List.map_append, List.length_append,
    List.length_append, List.length_map]
  rfl

theorem push_suffix (h : xs <:+ history) : push n xs x <:+ history ++ [x] := by
  obtain ⟨front, rfl⟩ := h
  have happ : xs ++ [x] <:+ front ++ xs ++ [x] := by
    rw [List.append_assoc]
    exact List.suffix_append front (xs ++ [x])
  unfold push
  split
  · exact (List.tail_suffix _).trans happ
  · exact happ

theorem length_push_le_iff : (push n xs x).length ≤ n ↔ xs.length ≤ n := by
  unfold push
  split
  · rw [List.length_tail, List.length_append, List.length_singleton, Nat.add_sub_cancel]
  · next h =>
    rw [List.length_append, List.length_singleton] at h ⊢
    omega

end CambriconGst.Lib.Latest
