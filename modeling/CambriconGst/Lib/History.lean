import CambriconGst.Lib.System
import Mathlib.Logic.Function.Basic

/-!
# Histories of an object that threads share

What the steps of a run show: calls of operations, where they take effect, and their returns.

* `System.trace_invariant`: what each step keeps of the state and of what has been shown so far
* `Linearized`: the operations take effect in an order that is legal, each between its call and its
  return
* `Linearized.move`: what a step of one thread keeps
-/

namespace CambriconGst.Lib

namespace System

variable {σ α β : Type*}

/-- What the steps of a run show. -/
def trace (next : σ → α → Option σ) (shows : σ → α → Option β) : σ → List α → List β
  | _, [] => []
  | s, l :: ls => (shows s l).toList ++ ((next s l).map fun t => trace next shows t ls).getD []

variable {next : σ → α → Option σ} {shows : σ → α → Option β}

theorem trace_invariant {I : σ → List β → Prop}
    (hstep : ∀ s h l t, I s h → next s l = some t → I t (h ++ (shows s l).toList)) {s t : σ}
    {ls : List α} (hrun : run next s ls = some t) {h : List β} (hs : I s h) :
    I t (h ++ trace next shows s ls) := by
  induction ls generalizing s h with
  | nil =>
    cases hrun
    rwa [trace, List.append_nil]
  | cons l ls ih =>
    obtain ⟨u, hu, hr⟩ := run_cons.mp hrun
    rw [trace, hu, Option.map_some, Option.getD_some, ← List.append_assoc]
    exact ih hr (hstep s h l u hs hu)

end System

/-- What a thread shows: it calls an operation, the operation takes effect, it returns. -/
inductive Event (τ ι ρ : Type*) where
  | call (t : τ) (op : ι)
  | effect (t : τ) (op : ι) (r : ρ)
  | ret (t : τ) (r : ρ)
deriving DecidableEq, Repr

variable {τ ι ρ S : Type*} [DecidableEq τ]

namespace Event

/-- The operations, as they take effect. -/
def effects : List (Event τ ι ρ) → List (ι × ρ) :=
  List.filterMap fun
    | effect _ op r => some (op, r)
    | _ => none

def callsOf (t : τ) : List (Event τ ι ρ) → List ι :=
  List.filterMap fun
    | call u op => if u = t then some op else none
    | _ => none

def effectsOf (t : τ) : List (Event τ ι ρ) → List (ι × ρ) :=
  List.filterMap fun
    | effect u op r => if u = t then some (op, r) else none
    | _ => none

def retsOf (t : τ) : List (Event τ ι ρ) → List ρ :=
  List.filterMap fun
    | ret u r => if u = t then some r else none
    | _ => none

end Event

/-- Where a thread is: it runs no operation, one that has not taken effect, or one that has. -/
inductive Phase (ι ρ : Type*) where
  | idle
  | called (op : ι)
  | done (op : ι) (r : ρ)
deriving DecidableEq, Repr

namespace Phase

def uncommitted : Phase ι ρ → List ι
  | called op => [op]
  | _ => []

def unreturned : Phase ι ρ → List ρ
  | done _ r => [r]
  | _ => []

/-- The event that leads from a phase to another one of the thread. -/
inductive Follows (t : τ) : Phase ι ρ → Option (Event τ ι ρ) → Phase ι ρ → Prop
  | stay (p : Phase ι ρ) : Follows t p none p
  | call (op : ι) : Follows t .idle (some (.call t op)) (.called op)
  | effect (op : ι) (r : ρ) : Follows t (.called op) (some (.effect t op r)) (.done op r)
  | ret (op : ι) (r : ρ) : Follows t (.done op r) (some (.ret t r)) .idle

end Phase

/-- The state after operations with these results, when they are legal one after the other. -/
def replay (apply : S → ι → ρ → Option S) : S → List (ι × ρ) → Option S
  | s, [] => some s
  | s, (op, r) :: ops => (apply s op r).bind fun t => replay apply t ops

theorem replay_concat {apply : S → ι → ρ → Option S} {s t : S} {ops : List (ι × ρ)}
    (h : replay apply s ops = some t) (op : ι) (r : ρ) :
    replay apply s (ops ++ [(op, r)]) = apply t op r := by
  induction ops generalizing s with
  | nil =>
    cases h
    simp [replay]
  | cons o ops ih =>
    obtain ⟨u, hu, hrest⟩ := Option.bind_eq_some_iff.mp h
    rw [List.cons_append, replay, hu, Option.bind_some]
    exact ih hrest

/--
The operations have taken effect in an order in which the object, started in `s₀`, gives the same
results and ends in `s`. Each thread's operations took effect after their calls and before their
returns, which have those results.
-/
structure Linearized (apply : S → ι → ρ → Option S) (s₀ s : S) (phase : τ → Phase ι ρ)
    (h : List (Event τ ι ρ)) : Prop where
  legal : replay apply s₀ (Event.effects h) = some s
  calls : ∀ t, Event.callsOf t h =
    (Event.effectsOf t h).map Prod.fst ++ (phase t).uncommitted
  rets : ∀ t, (Event.effectsOf t h).map Prod.snd = Event.retsOf t h ++ (phase t).unreturned

theorem Linearized.nil (apply : S → ι → ρ → Option S) (s₀ : S) :
    Linearized (τ := τ) apply s₀ s₀ (fun _ => .idle) [] where
  legal := rfl
  calls _ := rfl
  rets _ := rfl

/-- The event of a thread that no other thread shows. -/
def Event.thread : Event τ ι ρ → τ
  | call t _ => t
  | effect t _ _ => t
  | ret t _ => t

/-- Only an effect changes the object. -/
def Changes (apply : S → ι → ρ → Option S) (s : S) : Option (Event τ ι ρ) → S → Prop
  | some (.effect _ op r), s' => apply s op r = some s'
  | _, s' => s' = s

/-- **The linearization rule**, for a step. -/
theorem Linearized.step {apply : S → ι → ρ → Option S} {s₀ s s' : S} {phase phase' : τ → Phase ι ρ}
    {h : List (Event τ ι ρ)} (hl : Linearized apply s₀ s phase h) {e : Option (Event τ ι ρ)}
    (hstate : Changes apply s e s')
    (hphase : ∀ t, (phase t).Follows t e (phase' t) ∨
      phase' t = phase t ∧ ∀ e' ∈ e, e'.thread ≠ t) :
    Linearized apply s₀ s' phase' (h ++ e.toList) := by
  refine ⟨?_, fun t => ?_, fun t => ?_⟩
  · cases e with
    | none =>
      subst hstate
      simpa using hl.legal
    | some e =>
      cases e with
      | effect t op r =>
        have hlast := replay_concat hl.legal op r
        rw [hstate] at hlast
        simpa [Event.effects] using hlast
      | call t op =>
        subst hstate
        simpa [Event.effects] using hl.legal
      | ret t r =>
        subst hstate
        simpa [Event.effects] using hl.legal
  · have hcalls := hl.calls t
    unfold Event.callsOf Event.effectsOf at hcalls ⊢
    rw [List.filterMap_append, List.filterMap_append, hcalls]
    rcases hphase t with hfollows | ⟨hsame, hother⟩
    · cases hp : phase t <;> cases hp' : phase' t <;> rw [hp, hp'] at hfollows <;>
        cases hfollows <;> simp [Phase.uncommitted]
    · rw [hsame]
      cases e with
      | none => simp
      | some e =>
        have hne := hother e rfl
        cases e <;> simp_all [Event.thread]
  · have hrets := hl.rets t
    unfold Event.retsOf Event.effectsOf at hrets ⊢
    rw [List.filterMap_append, List.filterMap_append, List.map_append, hrets]
    rcases hphase t with hfollows | ⟨hsame, hother⟩
    · cases hp : phase t <;> cases hp' : phase' t <;> rw [hp, hp'] at hfollows <;>
        cases hfollows <;> simp [Phase.unreturned]
    · rw [hsame]
      cases e with
      | none => simp
      | some e =>
        have hne := hother e rfl
        cases e <;> simp_all [Event.thread]

omit [DecidableEq τ] in
theorem Phase.Follows.thread_eq {t : τ} {p q : Phase ι ρ} {e : Option (Event τ ι ρ)}
    (h : p.Follows t e q) : ∀ e' ∈ e, e'.thread = t := by
  cases h <;> simp [Event.thread]

/-- **One thread moves.** -/
theorem Linearized.move {apply : S → ι → ρ → Option S} {s₀ s s' : S} {phase : τ → Phase ι ρ}
    {h : List (Event τ ι ρ)} (hl : Linearized apply s₀ s phase h) {t : τ} {p : Phase ι ρ}
    {e : Option (Event τ ι ρ)} (hfollows : (phase t).Follows t e p)
    (hstate : Changes apply s e s') :
    Linearized apply s₀ s' (Function.update phase t p) (h ++ e.toList) := by
  refine hl.step hstate fun u => ?_
  by_cases hu : u = t
  · subst hu
    rw [Function.update_self]
    exact .inl hfollows
  · rw [Function.update_of_ne hu]
    exact .inr ⟨rfl, fun e' he' heq => hu (heq.symm.trans (hfollows.thread_eq e' he'))⟩

end CambriconGst.Lib
