import Mathlib.Data.Finset.Card
import Mathlib.Logic.Function.Basic

/-!
# Values held by owners

A set that is kept beside the owners of its values: each value of the set has one owner, and no
other value has one.

* `Mirrors.release`, `Mirrors.claim`: an owner gives its value back, or takes one that is free
* `exists_not_mem_of_injective`: one of more values than the set has is free
-/

namespace CambriconGst.Lib.Registry

variable {ι α : Type*}

/-- The set is the set of the values held, and no value is held twice. -/
structure Mirrors (set : Finset α) (held : ι → Option α) : Prop where
  mem_iff : ∀ a, a ∈ set ↔ ∃ i, held i = some a
  eq_of_eq : ∀ i j a, held i = some a → held j = some a → i = j

namespace Mirrors

variable {set : Finset α} {held : ι → Option α} {i : ι} {a : α}

theorem empty : Mirrors (∅ : Finset α) (fun _ : ι => none) where
  mem_iff := by simp
  eq_of_eq := by simp

variable [DecidableEq ι] [DecidableEq α]

theorem release (h : Mirrors set held) (hi : held i = some a) :
    Mirrors (set.erase a) (Function.update held i none) where
  mem_iff := by
    intro b
    rw [Finset.mem_erase, h.mem_iff]
    constructor
    · rintro ⟨hne, j, hj⟩
      have hji : j ≠ i := by
        rintro rfl
        exact hne (Option.some.inj (hj.symm.trans hi))
      exact ⟨j, by rw [Function.update_of_ne hji, hj]⟩
    · rintro ⟨j, hj⟩
      have hji : j ≠ i := by
        rintro rfl
        simp at hj
      rw [Function.update_of_ne hji] at hj
      refine ⟨?_, j, hj⟩
      rintro rfl
      exact hji (h.eq_of_eq j i b hj hi)
  eq_of_eq := by
    intro j k b hj hk
    have hji : j ≠ i := by
      rintro rfl
      simp at hj
    have hki : k ≠ i := by
      rintro rfl
      simp at hk
    rw [Function.update_of_ne hji] at hj
    rw [Function.update_of_ne hki] at hk
    exact h.eq_of_eq j k b hj hk

theorem claim (h : Mirrors set held) (hi : held i = none) (ha : a ∉ set) :
    Mirrors (insert a set) (Function.update held i (some a)) where
  mem_iff := by
    intro b
    rw [Finset.mem_insert, h.mem_iff]
    constructor
    · rintro (rfl | ⟨j, hj⟩)
      · exact ⟨i, Function.update_self i _ _⟩
      · have hji : j ≠ i := by
          rintro rfl
          rw [hi] at hj
          cases hj
        exact ⟨j, by rw [Function.update_of_ne hji, hj]⟩
    · rintro ⟨j, hj⟩
      by_cases hji : j = i
      · subst hji
        rw [Function.update_self] at hj
        exact .inl (Option.some.inj hj).symm
      · rw [Function.update_of_ne hji] at hj
        exact .inr ⟨j, hj⟩
  eq_of_eq := by
    -- the value is free, so nobody but `i` holds it afterwards
    have hfree : ∀ j, held j ≠ some a := fun j hj => ha ((h.mem_iff a).mpr ⟨j, hj⟩)
    intro j k b hj hk
    by_cases hji : j = i
    · by_cases hki : k = i
      · rw [hji, hki]
      · subst hji
        rw [Function.update_self, Option.some.injEq] at hj
        rw [Function.update_of_ne hki] at hk
        exact absurd (hj ▸ hk) (hfree k)
    · rw [Function.update_of_ne hji] at hj
      by_cases hki : k = i
      · subst hki
        rw [Function.update_self, Option.some.injEq] at hk
        exact absurd (hk ▸ hj) (hfree j)
      · rw [Function.update_of_ne hki] at hk
        exact h.eq_of_eq j k b hj hk

/-- A value that somebody else holds is not free when its owner is left alone. -/
theorem mem_erase_iff (h : Mirrors set held) (hi : held i = some a) {b : α} :
    b ∈ set.erase a ↔ ∃ j, j ≠ i ∧ held j = some b := by
  rw [(h.release hi).mem_iff]
  refine exists_congr fun j => ?_
  by_cases hji : j = i
  · subst hji
    simp
  · rw [Function.update_of_ne hji]
    exact ⟨fun hj => ⟨hji, hj⟩, And.right⟩

end Mirrors

/-- One of more values than the set has is not in it. -/
theorem exists_not_mem_of_injective [DecidableEq α] {set : Finset α} {n : Nat} {f : Nat → α}
    (hf : ∀ i < n, ∀ j < n, f i = f j → i = j) (hn : set.card < n) : ∃ i < n, f i ∉ set := by
  by_contra hall
  have hsub : (Finset.range n).image f ⊆ set := by
    intro a ha
    obtain ⟨i, hi, rfl⟩ := Finset.mem_image.mp ha
    by_contra hia
    exact hall ⟨i, Finset.mem_range.mp hi, hia⟩
  have hcard : ((Finset.range n).image f).card = n := by
    rw [Finset.card_image_of_injOn, Finset.card_range]
    intro i hi j hj
    exact hf i (by simpa using hi) j (by simpa using hj)
  have hle := Finset.card_le_card hsub
  omega

end CambriconGst.Lib.Registry
