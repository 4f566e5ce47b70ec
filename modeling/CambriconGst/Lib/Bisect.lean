import CambriconGst.Lib.Transition

/-!
# Halving an interval from its upper end

A search for a large number that passes a test. The lower end is taken to pass, and the upper end is
the first to be tried; `none` is a test that has no outcome.

* `run_start_le`: an interval without inside is not searched
* `run_start_stuck`, `run_start_top`: the upper end has no outcome, or passes
* `run_start_below`: otherwise the result is the lower end or passes
-/

namespace CambriconGst.Lib

structure Bisect where
  lower : Nat
  upper : Nat
  limit : Nat
deriving DecidableEq, Repr

namespace Bisect

def start (upper : Nat) : Bisect where
  lower := 1
  upper := upper
  limit := upper

def step (test : Nat → Option Bool) (s : Bisect) : Outcome Bisect Nat :=
  if s.lower < s.upper - 1 then
    match test s.limit with
    | some true => .next { s with lower := s.limit, limit := (s.limit + s.upper) / 2 }
    | some false => .next { s with upper := s.limit, limit := (s.lower + s.limit) / 2 }
    | none => .stuck
  else .halt s.limit

variable {test : Nat → Option Bool} {upper fuel : Nat}

theorem run_start_le (h : upper ≤ 2) (fuel : Nat) :
    runMachine (step test) (fuel + 1) (start upper) = some upper := by
  have hdone : ¬(start upper).lower < (start upper).upper - 1 := by
    simp only [start]
    omega
  rw [runMachine, step, if_neg hdone]
  rfl

theorem run_start_stuck (h : 3 ≤ upper) (htest : test upper = none) (fuel : Nat) :
    runMachine (step test) fuel (start upper) = none := by
  have hmore : (start upper).lower < (start upper).upper - 1 := by
    simp only [start]
    omega
  cases fuel with
  | zero => rfl
  | succ fuel =>
    rw [runMachine, step, if_pos hmore]
    simp only [start, htest]

theorem run_start_top (h : 3 ≤ upper) (htest : test upper = some true) (fuel : Nat) :
    runMachine (step test) (fuel + 2) (start upper) = some upper := by
  have hmore : (start upper).lower < (start upper).upper - 1 := by
    simp only [start]
    omega
  have hmid : (upper + upper) / 2 = upper := by omega
  rw [runMachine, step, if_pos hmore]
  simp only [start, htest, hmid]
  rw [runMachine, step, if_neg (by dsimp only; omega)]

/-- Once the upper end has failed: the limit is in the middle of what is left. -/
structure Inside (test : Nat → Option Bool) (upper : Nat) (s : Bisect) : Prop where
  lt : s.lower < s.upper
  le : s.upper ≤ upper
  limit : s.limit = (s.lower + s.upper) / 2
  one_le : 1 ≤ s.lower
  lower : s.lower = 1 ∨ test s.lower = some true

theorem run_inside (htest : ∀ l, 1 < l → l < upper → test l ≠ none) {s : Bisect}
    (hs : Inside test upper s) :
    ∃ l, runMachine (step test) (upper + 1) s = some l ∧
      1 ≤ l ∧ l < upper ∧ (l = 1 ∨ test l = some true) := by
  refine runMachine_of_measure (I := Inside test upper) (fun s => s.upper - s.lower) ?_ ?_ ?_ _ s hs
    (by have hlt := hs.lt; have hle := hs.le; omega)
  · intro s hs
    obtain ⟨hlt, hle, hlimit, hone, -⟩ := hs
    unfold step
    split
    · have hsome := htest s.limit (by omega) (by omega)
      split <;> simp_all
    · exact nofun
  · intro s r hs hstep
    obtain ⟨hlt, hle, hlimit, hone, hlower⟩ := hs
    unfold step at hstep
    split at hstep
    · split at hstep <;> exact absurd hstep nofun
    · obtain rfl := Outcome.halt.inj hstep
      have heq : s.limit = s.lower := by omega
      rw [heq]
      exact ⟨hone, by omega, hlower⟩
  · intro s s' hs hstep
    obtain ⟨hlt, hle, hlimit, hone, hlower⟩ := hs
    unfold step at hstep
    split at hstep
    · split at hstep
      · next hpass =>
        obtain rfl := Outcome.next.inj hstep
        exact ⟨⟨by dsimp only; omega, hle, rfl, by dsimp only; omega, .inr hpass⟩,
          by dsimp only; omega⟩
      · obtain rfl := Outcome.next.inj hstep
        exact ⟨⟨by dsimp only; omega, by dsimp only; omega, rfl, hone, hlower⟩,
          by dsimp only; omega⟩
      · exact absurd hstep nofun
    · exact absurd hstep nofun

theorem run_start_below (h : 3 ≤ upper) (htop : test upper = some false)
    (htest : ∀ l, 1 < l → l < upper → test l ≠ none) :
    ∃ l, runMachine (step test) (upper + 2) (start upper) = some l ∧
      1 ≤ l ∧ l < upper ∧ (l = 1 ∨ test l = some true) := by
  have hmore : (start upper).lower < (start upper).upper - 1 := by
    simp only [start]
    omega
  rw [runMachine, step, if_pos hmore]
  simp only [start, htop]
  exact run_inside htest ⟨by dsimp only; omega, Nat.le_refl upper, rfl, Nat.le_refl 1, .inl rfl⟩

end Bisect

end CambriconGst.Lib
