import Mathlib.Tactic.TypeStar

/-!
# Components that are called

A component is a function from a state and a call to the state after it and the answer.

* `Allowed.append`: an allowed sequence of calls can be continued
* `allowed_of_invariant`: calls of one kind, under an invariant
* `refines`: what holds of each call holds of every sequence
-/

namespace CambriconGst.Lib.Calls

variable {σ τ α ρ : Type*} {call : σ → α → σ × ρ} {call' : τ → α → τ × ρ} {C : σ → α → Prop}

/-- The state after a sequence of calls. -/
def after (call : σ → α → σ × ρ) (s : σ) (as : List α) : σ :=
  as.foldl (fun s a => (call s a).1) s

def answers (call : σ → α → σ × ρ) : σ → List α → List ρ
  | _, [] => []
  | s, a :: as => (call s a).2 :: answers call (call s a).1 as

/-- Every call of the sequence is made in a state in which the condition `C` allows it. -/
def Allowed (call : σ → α → σ × ρ) (C : σ → α → Prop) : σ → List α → Prop
  | _, [] => True
  | s, a :: as => C s a ∧ Allowed call C (call s a).1 as

@[simp]
theorem after_cons {s : σ} {a : α} {as : List α} :
    after call s (a :: as) = after call (call s a).1 as :=
  rfl

theorem Allowed.append {s : σ} {as bs : List α} (h : Allowed call C s as)
    (h' : Allowed call C (after call s as) bs) : Allowed call C s (as ++ bs) := by
  induction as generalizing s with
  | nil => exact h'
  | cons a as ih => exact ⟨h.1, ih h.2 h'⟩

theorem allowed_of_invariant {I : σ → Prop} {P : α → Prop} (hC : ∀ s a, I s → P a → C s a)
    (hI : ∀ s a, I s → P a → I (call s a).1) {s : σ} {as : List α} (hs : I s)
    (has : ∀ a ∈ as, P a) : Allowed call C s as := by
  induction as generalizing s with
  | nil => trivial
  | cons a as ih =>
    have ha := has a List.mem_cons_self
    refine ⟨hC s a hs ha, ih (hI s a hs ha) ?_⟩
    exact fun b hb => has b (List.mem_cons_of_mem a hb)

/-- **Allowed calls give the same answers in related states, and lead to related states.** -/
theorem refines {R : σ → τ → Prop}
    (h : ∀ s t a, R s t → C s a → R (call s a).1 (call' t a).1 ∧ (call s a).2 = (call' t a).2)
    {s : σ} {t : τ} {as : List α} (hs : R s t) (has : Allowed call C s as) :
    R (after call s as) (after call' t as) ∧ answers call s as = answers call' t as := by
  induction as generalizing s t with
  | nil => exact ⟨hs, rfl⟩
  | cons a as ih =>
    obtain ⟨hstate, hanswer⟩ := h s t a hs has.1
    obtain ⟨hlast, hrest⟩ := ih hstate has.2
    refine ⟨hlast, ?_⟩
    rw [answers, answers, hanswer, hrest]

end CambriconGst.Lib.Calls
