import Mathlib.Data.List.Basic

/-!
# Where elements go when a list is filtered

`keptAt p xs i` is the index in `xs.filter p` of the element at index `i` of `xs`.
-/

namespace CambriconGst.Lib

universe u

variable {α : Type u} {p : α → Bool}

/-- The index after filtering; none for an element that is dropped. -/
def keptAt (p : α → Bool) : List α → Nat → Option Nat
  | [], _ => none
  | x :: _, 0 => if p x then some 0 else none
  | x :: xs, i + 1 => (keptAt p xs i).map fun j => if p x then j + 1 else j

theorem keptAt_eq_some {xs : List α} : ∀ {i j : Nat}, keptAt p xs i = some j →
    ∃ a, xs[i]? = some a ∧ p a = true ∧ (xs.filter p)[j]? = some a := by
  induction xs with
  | nil =>
    intro i j h
    simp [keptAt] at h
  | cons x xs ih =>
    intro i j h
    cases i with
    | zero =>
      unfold keptAt at h
      by_cases hx : p x
      · rw [if_pos hx] at h
        obtain rfl := Option.some.inj h
        exact ⟨x, rfl, hx, by rw [List.filter_cons_of_pos hx]; rfl⟩
      · rw [if_neg hx] at h
        simp at h
    | succ i =>
      obtain ⟨j', hj', rfl⟩ := Option.map_eq_some_iff.mp h
      obtain ⟨a, ha, hp, hget⟩ := ih hj'
      refine ⟨a, ha, hp, ?_⟩
      by_cases hx : p x
      · simpa [hx] using hget
      · simpa [hx] using hget

theorem keptAt_eq_none {xs : List α} {i : Nat} {a : α} (h : xs[i]? = some a) (hp : p a = false) :
    keptAt p xs i = none := by
  rcases hk : keptAt p xs i with _ | j
  · rfl
  · obtain ⟨a', ha', hp', -⟩ := keptAt_eq_some hk
    obtain rfl : a = a' := Option.some.inj (h.symm.trans ha')
    rw [hp] at hp'
    exact Bool.noConfusion hp'

/-- An element that is not dropped has an index. -/
theorem exists_keptAt {xs : List α} : ∀ {i : Nat} {a : α}, xs[i]? = some a → p a = true →
    ∃ j, keptAt p xs i = some j := by
  induction xs with
  | nil =>
    intro i a h
    simp at h
  | cons x xs ih =>
    intro i a h hp
    cases i with
    | zero =>
      obtain rfl := Option.some.inj h
      exact ⟨0, if_pos hp⟩
    | succ i =>
      obtain ⟨j, hj⟩ := ih h hp
      exact ⟨_, Option.map_eq_some_iff.mpr ⟨j, hj, rfl⟩⟩

/-- Every element of the filtered list comes from an index. -/
theorem exists_of_filter_getElem? {xs : List α} : ∀ {j : Nat} {a : α},
    (xs.filter p)[j]? = some a → ∃ i, xs[i]? = some a ∧ keptAt p xs i = some j := by
  induction xs with
  | nil =>
    intro j a h
    simp at h
  | cons x xs ih =>
    intro j a h
    by_cases hx : p x
    · rw [List.filter_cons_of_pos hx] at h
      cases j with
      | zero => exact ⟨0, h, if_pos hx⟩
      | succ j =>
        obtain ⟨i, hi, hk⟩ := ih h
        exact ⟨i + 1, hi, Option.map_eq_some_iff.mpr ⟨j, hk, if_pos hx⟩⟩
    · rw [List.filter_cons_of_neg hx] at h
      obtain ⟨i, hi, hk⟩ := ih h
      exact ⟨i + 1, hi, Option.map_eq_some_iff.mpr ⟨j, hk, if_neg hx⟩⟩

end CambriconGst.Lib
