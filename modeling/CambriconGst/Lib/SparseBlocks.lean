import Mathlib.Data.List.Basic
import Mathlib.Tactic.TypeStar

/-!
# Arrays as blocks

A list in which most entries are the same value `z` is kept as blocks of the others, each with its
offset.

* `placeAll`: the list up to the end of the last block, `z` in the gaps
* `Holds`: blocks for the first entries of a list, which `Holds.snoc` and `Holds.append` extend
-/

namespace CambriconGst.Lib

variable {α : Type*} {z : α} {xs done : List α} {i n : Nat}

structure SparseBlock (α : Type*) where
  offset : Nat
  data : List α

namespace SparseBlock

/-- Go on to a block that is not behind. -/
def place (z : α) (done : List α) (b : SparseBlock α) : Option (List α) :=
  if done.length ≤ b.offset then
    some (done ++ List.replicate (b.offset - done.length) z ++ b.data)
  else none

def placeAll (z : α) (bs : List (SparseBlock α)) (done : List α) : Option (List α) :=
  bs.foldlM (place z) done

variable {b : SparseBlock α} {bs : List (SparseBlock α)}

theorem place_eq_some {out : List α} :
    b.place z done = some out ↔ done.length ≤ b.offset ∧
      done ++ List.replicate (b.offset - done.length) z ++ b.data = out := by
  unfold place
  split
  · next h => simp [h]
  · next h => simp [h]

/-- What is placed stays. -/
theorem prefix_of_place {out : List α} (h : b.place z done = some out) : done <+: out := by
  obtain ⟨-, rfl⟩ := place_eq_some.mp h
  exact ⟨_, (List.append_assoc _ _ _).symm⟩

theorem prefix_of_placeAll {out : List α} (h : placeAll z bs done = some out) : done <+: out := by
  induction bs generalizing done with
  | nil =>
    obtain rfl := Option.some.inj h
    exact List.prefix_rfl
  | cons b bs ih =>
    obtain ⟨mid, hb, h⟩ := Option.bind_eq_some_iff.mp h
    exact (prefix_of_place hb).trans (ih h)

theorem placeAll_concat :
    placeAll z (bs ++ [b]) done = (placeAll z bs done).bind (b.place z) := by
  simp [placeAll, List.foldlM_append]

/-- With the blocks placed only `z` is missing from the first `n` entries of `xs`. -/
structure Holds (z : α) (xs : List α) (n : Nat) (bs : List (SparseBlock α)) (done : List α) :
    Prop where
  placed : placeAll z bs [] = some done
  length_le : done.length ≤ n
  rest : done ++ List.replicate (n - done.length) z = xs.take n

namespace Holds

theorem nil (z : α) (xs : List α) : Holds z xs 0 [] [] :=
  ⟨rfl, Nat.le_refl 0, rfl⟩

/-- The next entry is `z`. -/
theorem snoc (h : Holds z xs n bs done) (hn : xs[n]? = some z) :
    Holds z xs (n + 1) bs done := by
  have hle := h.length_le
  refine ⟨h.placed, by omega, ?_⟩
  rw [Nat.sub_add_comm hle, List.replicate_succ', ← List.append_assoc, h.rest,
    List.take_add_one, hn]
  rfl

/-- The next entries are a block. -/
theorem append (h : Holds z xs n bs done) (hk : n + i ≤ xs.length) :
    Holds z xs (n + i) (bs ++ [⟨n, (xs.drop n).take i⟩]) (xs.take (n + i)) := by
  have hlen : (xs.take (n + i)).length = n + i := List.length_take_of_le hk
  refine ⟨?_, Nat.le_of_eq hlen, ?_⟩
  · rw [placeAll_concat, h.placed]
    refine place_eq_some.mpr ⟨h.length_le, ?_⟩
    rw [h.rest]
    exact List.take_add.symm
  · rw [hlen, Nat.sub_self]
    exact List.append_nil _

/-- All entries are there, but for `z` at the end. -/
theorem fill (h : Holds z xs xs.length bs done) :
    done ++ List.replicate (xs.length - done.length) z = xs := by
  rw [h.rest, List.take_length]

end Holds

end SparseBlock

end CambriconGst.Lib
