import Mathlib.Logic.Relation

/-!
# Transition systems

Invariants over whole runs and termination of deterministic machines.

* `Reachable.invariant`: what holds initially and survives one step holds in every
  reachable state
* `runMachine_simulates`: what a machine that another one simulates returns, the other returns
* `runMachine_of_measure`: a machine whose measure drops at every step halts, and an
  invariant of its steps holds where it halts
-/

namespace CambriconGst.Lib

variable {σ : Type*}

/-- A state some run reaches from an initial state. -/
def Reachable (init : σ → Prop) (step : σ → σ → Prop) (s : σ) : Prop :=
  ∃ s₀, init s₀ ∧ Relation.ReflTransGen step s₀ s

namespace Reachable

variable {init : σ → Prop} {step : σ → σ → Prop}

theorem of_init {s : σ} (h : init s) : Reachable init step s :=
  ⟨s, h, Relation.ReflTransGen.refl⟩

theorem tail {s t : σ} (h : Reachable init step s) (hst : step s t) :
    Reachable init step t := by
  obtain ⟨s₀, h₀, hr⟩ := h
  exact ⟨s₀, h₀, hr.tail hst⟩

/-- **The invariant rule.** -/
theorem invariant {I : σ → Prop} (h₀ : ∀ s, init s → I s)
    (hstep : ∀ s t, I s → step s t → I t) {s : σ} (h : Reachable init step s) : I s := by
  obtain ⟨s₀, hi, hr⟩ := h
  induction hr with
  | refl => exact h₀ s₀ hi
  | tail _ hst ih => exact hstep _ _ ih hst

end Reachable

/-! ## Deterministic machines with a result -/

/-- A machine that either halts with a result, moves on, or gets stuck. -/
inductive Outcome (σ ρ : Type*) where
  | halt (r : ρ)
  | next (s : σ)
  | stuck

variable {ρ : Type*}

def Outcome.map {σ' ρ' : Type*} (f : σ → σ') (g : ρ → ρ') : Outcome σ ρ → Outcome σ' ρ'
  | halt r => halt (g r)
  | next s => next (f s)
  | stuck => stuck

/-- At most `fuel` steps of the machine; `none` when they do not reach a result. -/
def runMachine (step : σ → Outcome σ ρ) : Nat → σ → Option ρ
  | 0, _ => none
  | fuel + 1, s =>
    match step s with
    | .halt r => some r
    | .next s' => runMachine step fuel s'
    | .stuck => none

/-- More steps lead to the same result. -/
theorem runMachine_unique {step : σ → Outcome σ ρ} {fuel fuel' : Nat} {s : σ} {r r' : ρ}
    (h : runMachine step fuel s = some r) (h' : runMachine step fuel' s = some r') : r = r' := by
  induction fuel generalizing fuel' s with
  | zero => exact absurd h nofun
  | succ fuel ih =>
    cases fuel' with
    | zero => exact absurd h' nofun
    | succ fuel' =>
      rw [runMachine] at h h'
      cases hst : step s with
      | halt r₀ =>
        rw [hst] at h h'
        exact Option.some.inj (h.symm.trans h')
      | next t =>
        rw [hst] at h h'
        exact ih h h'
      | stuck =>
        rw [hst] at h
        exact absurd h nofun

/-- A machine that makes its steps on the states `f` leads to makes its runs there. -/
theorem runMachine_map {σ' ρ' : Type*} {step : σ → Outcome σ ρ} {step' : σ' → Outcome σ' ρ'}
    {f : σ → σ'} {g : ρ → ρ'} (h : ∀ s, step' (f s) = (step s).map f g) (fuel : Nat) (s : σ) :
    runMachine step' fuel (f s) = (runMachine step fuel s).map g := by
  induction fuel generalizing s with
  | zero => rfl
  | succ fuel ih =>
    rw [runMachine, runMachine, h]
    cases step s with
    | halt r => rfl
    | next s' => exact ih s'
    | stuck => rfl

/--
**The simulation rule.**

When each step of the first machine that is not stuck has a step of the second from related states
to related states, the second has a related result whenever the first has one.
-/
theorem runMachine_simulates {σ' ρ' : Type*} {step : σ → Outcome σ ρ}
    {step' : σ' → Outcome σ' ρ'} {T : σ → σ' → Prop} {Q : ρ → ρ' → Prop}
    (hhalt : ∀ s s' r, T s s' → step s = .halt r → ∃ r', step' s' = .halt r' ∧ Q r r')
    (hnext : ∀ s s' t, T s s' → step s = .next t → ∃ t', step' s' = .next t' ∧ T t t')
    {fuel : Nat} {s : σ} {s' : σ'} {r : ρ} (hs : T s s') (h : runMachine step fuel s = some r) :
    ∃ r', runMachine step' fuel s' = some r' ∧ Q r r' := by
  induction fuel generalizing s s' with
  | zero => exact absurd h nofun
  | succ fuel ih =>
    rw [runMachine] at h ⊢
    cases hst : step s with
    | halt r₀ =>
      rw [hst] at h
      obtain ⟨r', hr', hq⟩ := hhalt s s' r₀ hs hst
      obtain rfl := Option.some.inj h
      exact ⟨r', by rw [hr'], hq⟩
    | next t =>
      rw [hst] at h
      obtain ⟨t', ht', ht⟩ := hnext s s' t hs hst
      rw [ht']
      exact ih ht h
    | stuck =>
      rw [hst] at h
      exact absurd h nofun

/--
**The total-correctness rule.**

When the invariant excludes being stuck, survives each step, gives the postcondition at a
halt, and the measure drops at each step, more fuel than the measure always gives a result,
and the result satisfies the postcondition.
-/
theorem runMachine_of_measure {step : σ → Outcome σ ρ} {I : σ → Prop} {Q : ρ → Prop}
    (μ : σ → Nat) (hstuck : ∀ s, I s → step s ≠ .stuck)
    (hhalt : ∀ s r, I s → step s = .halt r → Q r)
    (hnext : ∀ s s', I s → step s = .next s' → I s' ∧ μ s' < μ s) :
    ∀ (fuel : Nat) (s : σ), I s → μ s < fuel →
      ∃ r, runMachine step fuel s = some r ∧ Q r := by
  intro fuel
  induction fuel with
  | zero => intro s _ hμ; exact absurd hμ (Nat.not_lt_zero _)
  | succ fuel ih =>
    intro s hs hμ
    rw [runMachine]
    cases hst : step s with
    | halt r => exact ⟨r, rfl, hhalt s r hs hst⟩
    | next s' =>
      obtain ⟨hs', hlt⟩ := hnext s s' hs hst
      exact ih s' hs' (by omega)
    | stuck => exact absurd hst (hstuck s hs)

end CambriconGst.Lib
