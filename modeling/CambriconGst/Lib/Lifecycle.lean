import Mathlib.Data.List.Basic

/-!
# A life by observations

Something observed at regular times is tentative until it has been seen a number of times in a row
from the start, then confirmed; a tentative one is gone when it is missed, a confirmed one when it
is missed too often in a row. Observations are listed from the newest on.

* `phase_confirmed_iff`: who is not gone is confirmed just when it was seen at the first times
* `next_confirmed_gone_iff`: a confirmed one is gone after more misses in a row than the limit
-/

namespace CambriconGst.Lib

namespace Lifecycle

inductive Phase where
  | tentative (hits : Nat)
  | confirmed (misses : Nat)
  | gone
deriving DecidableEq

variable (hits limit : Nat)

/-- One more observation. -/
def Phase.next : Phase → Bool → Phase
  | .tentative k, true => if hits ≤ k + 1 then .confirmed 0 else .tentative (k + 1)
  | .tentative _, false => .gone
  | .confirmed _, true => .confirmed 0
  | .confirmed k, false => if k + 1 ≤ limit then .confirmed (k + 1) else .gone
  | .gone, _ => .gone

/-- The phase after observations. -/
def phase : List Bool → Phase
  | [] => .tentative 0
  | b :: h => (phase h).next hits limit b

/-- The misses in a row up to now. -/
def misses (h : List Bool) : Nat :=
  (h.takeWhile fun b => !b).length

/-- It was seen at each of the first `hits` times. -/
def SeenFirst (h : List Bool) : Prop :=
  hits ≤ h.length ∧ ∀ b ∈ h.reverse.take hits, b = true

variable {hits limit}

@[simp] theorem misses_nil : misses [] = 0 := rfl

@[simp] theorem misses_seen (h : List Bool) : misses (true :: h) = 0 := rfl

@[simp] theorem misses_missed (h : List Bool) : misses (false :: h) = misses h + 1 := rfl

theorem seenFirst_cons {b : Bool} {h : List Bool} (hs : SeenFirst hits h) :
    SeenFirst hits (b :: h) := by
  obtain ⟨hl, hall⟩ := hs
  refine ⟨by rw [List.length_cons]; omega, ?_⟩
  rwa [List.reverse_cons, List.take_append_of_le_length (by rwa [List.length_reverse])]

/-- What a phase says of the observations. -/
def Explains (hits limit : Nat) (h : List Bool) : Phase → Prop
  | .tentative k => k < hits ∧ h = List.replicate k true
  | .confirmed k => SeenFirst hits h ∧ k = misses h ∧ k ≤ limit
  | .gone => True

theorem seenFirst_replicate : SeenFirst hits (List.replicate hits true) := by
  refine ⟨Nat.le_of_eq List.length_replicate.symm, fun b hb => ?_⟩
  rw [List.reverse_replicate] at hb
  exact List.eq_of_mem_replicate (List.mem_of_mem_take hb)

theorem explains_next {h : List Bool} {φ : Phase} (he : Explains hits limit h φ) (b : Bool) :
    Explains hits limit (b :: h) (φ.next hits limit b) := by
  cases φ with
  | tentative k =>
    obtain ⟨hk, rfl⟩ := he
    cases b with
    | true =>
      unfold Phase.next
      by_cases hc : hits ≤ k + 1
      · simp only [if_pos hc]
        obtain rfl : hits = k + 1 := by omega
        exact ⟨seenFirst_replicate, rfl, Nat.zero_le _⟩
      · simp only [if_neg hc]
        exact ⟨by omega, rfl⟩
    | false => trivial
  | confirmed k =>
    obtain ⟨hs, rfl, hk⟩ := he
    cases b with
    | true => exact ⟨seenFirst_cons hs, rfl, Nat.zero_le _⟩
    | false =>
      unfold Phase.next
      by_cases hc : misses h + 1 ≤ limit
      · simp only [if_pos hc]
        exact ⟨seenFirst_cons hs, rfl, hc⟩
      · simp only [if_neg hc]
        trivial
  | gone => trivial

/-- The phase after observations explains them. -/
theorem explains_phase (hpos : 0 < hits) (h : List Bool) :
    Explains hits limit h (phase hits limit h) := by
  induction h with
  | nil => exact ⟨hpos, rfl⟩
  | cons b h ih => exact explains_next ih b

theorem phase_confirmed_iff (hpos : 0 < hits) {h : List Bool} (hg : phase hits limit h ≠ .gone) :
    (∃ k, phase hits limit h = .confirmed k) ↔ SeenFirst hits h := by
  have he : Explains hits limit h (phase hits limit h) := explains_phase hpos h
  constructor
  · rintro ⟨k, hk⟩
    rw [hk] at he
    exact he.1
  · intro hs
    cases hφ : phase hits limit h with
    | tentative k =>
      rw [hφ] at he
      obtain ⟨hk, rfl⟩ := he
      have := hs.1
      rw [List.length_replicate] at this
      omega
    | confirmed k => exact ⟨k, rfl⟩
    | gone => exact absurd hφ hg

theorem next_confirmed_gone_iff (hpos : 0 < hits) {h : List Bool} {k : Nat}
    (hφ : phase hits limit h = .confirmed k) (b : Bool) :
    phase hits limit (b :: h) = .gone ↔ limit < misses (b :: h) := by
  have he : Explains hits limit h (phase hits limit h) := explains_phase hpos h
  rw [hφ] at he
  obtain ⟨-, rfl, -⟩ := he
  rw [phase, hφ]
  cases b with
  | true =>
    rw [misses_seen]
    exact ⟨fun hc => Phase.noConfusion hc, fun hc => absurd hc (Nat.not_lt_zero _)⟩
  | false =>
    rw [misses_missed]
    unfold Phase.next
    by_cases hc : misses h + 1 ≤ limit
    · simp only [if_pos hc]
      exact ⟨fun hc' => Phase.noConfusion hc', fun hc' => absurd hc (Nat.not_le.mpr hc')⟩
    · simp only [if_neg hc, true_iff]
      exact Nat.not_le.mp hc

end Lifecycle

end CambriconGst.Lib
