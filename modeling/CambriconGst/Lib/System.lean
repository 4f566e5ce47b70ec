import Mathlib.Algebra.Ring.Nat
import CambriconGst.Lib.Transition

/-!
# Runs of labelled systems

A system is a partial step function: a label names the step, and `none` says that the step is not
possible in the state.

* `System.run`: the state after a list of steps
* `System.StepWhere`: the steps that meet a condition
* `System.run_invariant`: what steps that meet a condition keep, runs of such steps keep
* `System.run_work`: how many steps a run can take, of those that use up work
-/

namespace CambriconGst.Lib.System

variable {σ α : Type*} {next : σ → α → Option σ}

def run (next : σ → α → Option σ) : σ → List α → Option σ
  | s, [] => some s
  | s, l :: ls => (next s l).bind fun t => run next t ls

/-- A step that meets the condition `C`, which sees the state before and the label. -/
def StepWhere (next : σ → α → Option σ) (C : σ → α → Prop) (s t : σ) : Prop :=
  ∃ l, C s l ∧ next s l = some t

/-- Any step. -/
def Step (next : σ → α → Option σ) : σ → σ → Prop :=
  StepWhere next fun _ _ => True

@[simp]
theorem run_nil {s : σ} : run next s [] = some s :=
  rfl

theorem run_cons {s u : σ} {l : α} {ls : List α} :
    run next s (l :: ls) = some u ↔ ∃ t, next s l = some t ∧ run next t ls = some u :=
  Option.bind_eq_some_iff

theorem run_append {s u : σ} {ls ms : List α} :
    run next s (ls ++ ms) = some u ↔ ∃ t, run next s ls = some t ∧ run next t ms = some u := by
  induction ls generalizing s with
  | nil => simp
  | cons l ls ih =>
    rw [List.cons_append, run_cons]
    constructor
    · rintro ⟨t, hl, hr⟩
      obtain ⟨v, hls, hms⟩ := ih.mp hr
      exact ⟨v, run_cons.mpr ⟨t, hl, hls⟩, hms⟩
    · rintro ⟨v, hls, hms⟩
      obtain ⟨t, hl, hr⟩ := run_cons.mp hls
      exact ⟨t, hl, ih.mpr ⟨v, hr, hms⟩⟩

/-- What every step keeps, every run keeps. -/
theorem run_invariant {I : σ → Prop} (hstep : ∀ s l t, I s → next s l = some t → I t) {s t : σ}
    {ls : List α} (h : run next s ls = some t) (hs : I s) : I t := by
  induction ls generalizing s with
  | nil =>
    cases h
    exact hs
  | cons l ls ih =>
    obtain ⟨u, hu, hr⟩ := run_cons.mp h
    exact ih hr (hstep s l u hs hu)

/-- Every step of a run meets the condition `C`. -/
def Meets (next : σ → α → Option σ) (C : σ → α → Prop) : σ → List α → Prop
  | _, [] => True
  | s, l :: ls => C s l ∧ ((next s l).map fun t => Meets next C t ls).getD True

theorem meets_of_forall {C : σ → α → Prop} (h : ∀ s l, C s l) (s : σ) (ls : List α) :
    Meets next C s ls := by
  induction ls generalizing s with
  | nil => trivial
  | cons l ls ih =>
    refine ⟨h s l, ?_⟩
    cases next s l with
    | none => trivial
    | some t => exact ih t

/-- Work that steps take from and add to: what a run takes is what there was and what it adds. -/
theorem run_work {C : σ → α → Prop} {I : σ → Prop} (work : σ → Nat) (spent gained : α → Nat)
    (hI : ∀ s l t, I s → C s l → next s l = some t → I t)
    (hstep : ∀ s l t, I s → C s l → next s l = some t → work t + spent l ≤ work s + gained l)
    {s t : σ} {ls : List α} (hs : I s) (hm : Meets next C s ls) (h : run next s ls = some t) :
    work t + (ls.map spent).sum ≤ work s + (ls.map gained).sum := by
  induction ls generalizing s with
  | nil =>
    cases h
    exact Nat.le_refl _
  | cons l ls ih =>
    obtain ⟨u, hu, hr⟩ := run_cons.mp h
    obtain ⟨hc, hrest⟩ := hm
    rw [hu] at hrest
    have hfirst := hstep s l u hs hc hu
    have hlater := ih (hI s l u hs hc hu) hrest hr
    rw [List.map_cons, List.map_cons, List.sum_cons, List.sum_cons]
    omega

/-! ## Reachable states -/

/-- A run of steps that meet a condition is a run. -/
theorem reachable_of_stepWhere {init : σ → Prop} {C : σ → α → Prop} {s : σ}
    (h : Reachable init (StepWhere next C) s) : Reachable init (Step next) s := by
  refine h.invariant (fun _ h₀ => .of_init h₀) ?_
  rintro s t hs ⟨l, -, hl⟩
  exact hs.tail ⟨l, trivial, hl⟩

theorem reachable_of_meets {init : σ → Prop} {C : σ → α → Prop} {s t : σ} {ls : List α}
    (hs : Reachable init (StepWhere next C) s) (h : run next s ls = some t)
    (hm : Meets next C s ls) : Reachable init (StepWhere next C) t := by
  induction ls generalizing s with
  | nil =>
    cases h
    exact hs
  | cons l ls ih =>
    obtain ⟨u, hu, hr⟩ := run_cons.mp h
    obtain ⟨hc, hrest⟩ := hm
    rw [hu] at hrest
    exact ih (hs.tail ⟨l, hc, hu⟩) hr hrest

end CambriconGst.Lib.System
