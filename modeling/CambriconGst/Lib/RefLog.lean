import Mathlib.Data.List.Count
import Mathlib.Data.List.Infix

/-!
# Logs of reference counting

References are added and released, on objects of any type, and what is added and not released yet is
held.

* `Balanced`: every reference that was added is released once or held, and none is released that was
  not added before
-/

namespace CambriconGst.Lib

inductive RefOp (α : Type*) where
  | add (a : α)
  | release (a : α)
deriving DecidableEq, Repr

variable {α : Type*} [DecidableEq α] {ops : List (RefOp α)} {held : List α} {a : α}

/-- At every moment no reference was released more often than added; in the end the others are
held. -/
structure Balanced (ops : List (RefOp α)) (held : List α) : Prop where
  matched : ∀ a, ops.count (.add a) = ops.count (.release a) + held.count a
  ordered : ∀ p, p <+: ops → ∀ a, p.count (.release a) ≤ p.count (.add a)

namespace Balanced

theorem nil : Balanced ([] : List (RefOp α)) [] where
  matched := fun _ => rfl
  ordered := fun p hp a => by
    rw [List.prefix_nil.mp hp]
    exact Nat.le_refl 0

/-- In a log that goes on by one operation, what holds of the whole holds of each part. -/
theorem concat (h : Balanced ops held) {op : RefOp α} {held' : List α}
    (hm : ∀ a, (ops ++ [op]).count (.add a) = (ops ++ [op]).count (.release a) + held'.count a) :
    Balanced (ops ++ [op]) held' where
  matched := hm
  ordered := fun p hp b => by
    rcases List.prefix_concat_iff.mp hp with rfl | hp
    · rw [hm b]
      exact Nat.le_add_right _ _
    · exact h.ordered p hp b

theorem add (h : Balanced ops held) : Balanced (ops ++ [.add a]) (a :: held) := by
  refine h.concat fun b => ?_
  have hb := h.matched b
  simp only [List.count_append, List.count_cons, List.count_nil, beq_iff_eq, RefOp.add.injEq,
    reduceCtorEq, if_false]
  omega

theorem release (h : Balanced ops (a :: held)) : Balanced (ops ++ [.release a]) held := by
  refine h.concat fun b => ?_
  have hb := h.matched b
  simp only [List.count_append, List.count_cons, List.count_nil, beq_iff_eq,
    RefOp.release.injEq, reduceCtorEq, if_false] at hb ⊢
  omega

theorem perm (h : Balanced ops held) {held' : List α} (hp : held.Perm held') :
    Balanced ops held' where
  matched := fun b => by rw [h.matched b, hp.count_eq b]
  ordered := h.ordered

/-- What is released without being given up is one release too many. -/
theorem not_release (h : Balanced ops held) : ¬Balanced (ops ++ [.release a]) held := by
  intro hr
  have ha := h.matched a
  have hra := hr.matched a
  simp only [List.count_append, List.count_cons, List.count_nil, beq_iff_eq, reduceCtorEq,
    if_false, if_true] at hra
  omega

end Balanced

end CambriconGst.Lib
