import Mathlib.Data.List.Basic
import CambriconGst.Lib.Checked

/-!
# Computations that keep their state when they fail

A program that throws leaves its objects as far as it got.

`Attempt.Simulates` relates such a computation to a pure one: a view of the state does not see what
the computation changes (a cache, say), and the result is a function of the view.

`Attempt.AgreeOn` relates two computations that do the same from the states of an invariant.
-/

namespace CambriconGst.Lib

universe u

variable {ε σ τ α β : Type u}

abbrev Attempt (ε σ : Type u) := ExceptT ε (StateM σ)

namespace Attempt

/-- The result and the state reached. -/
def exec (x : Attempt ε σ α) (s : σ) : Except ε α × σ :=
  x.run.run s

def ofExec (f : σ → Except ε α × σ) : Attempt ε σ α :=
  ExceptT.mk f

/-- Look at the state. -/
def look (f : σ → Except ε α) : Attempt ε σ α :=
  ofExec fun s => (f s, s)

@[simp] theorem exec_ofExec (f : σ → Except ε α × σ) (s : σ) : (ofExec f).exec s = f s :=
  rfl

@[simp] theorem exec_look (f : σ → Except ε α) (s : σ) : (look f).exec s = (f s, s) :=
  rfl

@[simp] theorem exec_pure (a : α) (s : σ) : (pure a : Attempt ε σ α).exec s = (.ok a, s) :=
  rfl

theorem exec_bind (x : Attempt ε σ α) (f : α → Attempt ε σ β) (s : σ) :
    (x >>= f).exec s = ExceptT.bindCont f (x.exec s).1 (x.exec s).2 :=
  rfl

theorem exec_bind_ok {x : Attempt ε σ α} {f : α → Attempt ε σ β} {s s' : σ} {a : α}
    (h : x.exec s = (.ok a, s')) : (x >>= f).exec s = (f a).exec s' := by
  rw [exec_bind, h]
  rfl

theorem exec_bind_error {x : Attempt ε σ α} {f : α → Attempt ε σ β} {s s' : σ} {e : ε}
    (h : x.exec s = (.error e, s')) : (x >>= f).exec s = (.error e, s') := by
  rw [exec_bind, h]
  rfl

/-- A bind succeeds when both parts do. -/
theorem bind_eq_ok {x : Attempt ε σ α} {f : α → Attempt ε σ β} {s s' : σ} {b : β}
    (h : (x >>= f).exec s = (.ok b, s')) :
    ∃ a s₁, x.exec s = (.ok a, s₁) ∧ (f a).exec s₁ = (.ok b, s') := by
  rcases hx : x.exec s with ⟨_ | a, s₁⟩
  · rw [exec_bind_error hx] at h
    simp at h
  · rw [exec_bind_ok hx] at h
    exact ⟨a, s₁, rfl, h⟩

/-! ## Simulation by a pure computation -/

/-- Seen through `view`, the computation leaves the state and returns what `f` does. -/
def Simulates (view : σ → τ) (x : Attempt ε σ α) (f : τ → Except ε α) : Prop :=
  ∀ s, (x.exec s).1 = f (view s) ∧ view (x.exec s).2 = view s

namespace Simulates

variable {view : σ → τ}

theorem of_pure (a : α) : Simulates (ε := ε) view (pure a) fun _ => .ok a :=
  fun _ => ⟨rfl, rfl⟩

theorem of_look {f : σ → Except ε α} {g : τ → Except ε α} (h : ∀ s, f s = g (view s)) :
    Simulates view (look f) g :=
  fun s => ⟨h s, rfl⟩

theorem bind {x : Attempt ε σ α} {f : α → Attempt ε σ β} {g : τ → Except ε α}
    {h : α → τ → Except ε β} (hx : Simulates view x g) (hf : ∀ a, Simulates view (f a) (h a)) :
    Simulates view (x >>= f) fun t => g t >>= fun a => h a t := by
  intro s
  obtain ⟨hr, hv⟩ := hx s
  show _ = g (view s) >>= (fun a => h a (view s)) ∧ _
  rcases he : x.exec s with ⟨e | a, s₁⟩
  · rw [he] at hr hv
    rw [exec_bind_error he, ← hr]
    exact ⟨rfl, hv⟩
  · rw [he] at hr hv
    obtain ⟨hr', hv'⟩ := hf a s₁
    rw [exec_bind_ok he, ← hr, hr', hv', ← hv]
    exact ⟨rfl, rfl⟩

theorem mapM {x : α → Attempt ε σ β} {f : α → τ → Except ε β}
    (h : ∀ a, Simulates view (x a) (f a)) (as : List α) :
    Simulates view (as.mapM x) fun t => as.mapM fun a => f a t := by
  induction as with
  | nil => exact of_pure []
  | cons a as ih =>
    simp only [List.mapM_cons]
    exact (h a).bind fun b => ih.bind fun bs => of_pure (b :: bs)

/-- The result when it succeeds. -/
theorem eq_ok {x : Attempt ε σ α} {f : τ → Except ε α} (h : Simulates view x f) {s s' : σ} {a : α}
    (hx : x.exec s = (.ok a, s')) : f (view s) = .ok a ∧ view s' = view s := by
  have := h s
  rw [hx] at this
  exact ⟨this.1.symm, this.2⟩

end Simulates

/-! ## Agreement under an invariant -/

/-- From states of the invariant both do the same, and stay in it. -/
def AgreeOn (I : σ → Prop) (x y : Attempt ε σ α) : Prop :=
  ∀ s, I s → x.exec s = y.exec s ∧ I (y.exec s).2

namespace AgreeOn

variable {I : σ → Prop}

theorem of_keeps {x : Attempt ε σ α} (h : ∀ s, I s → I (x.exec s).2) : AgreeOn I x x :=
  fun s hs => ⟨rfl, h s hs⟩

theorem of_pure (a : α) : AgreeOn I (pure a : Attempt ε σ α) (pure a) :=
  of_keeps fun _ hs => hs

theorem of_look (f : σ → Except ε α) : AgreeOn I (look f) (look f) :=
  of_keeps fun _ hs => hs

theorem bind {x y : Attempt ε σ α} {f g : α → Attempt ε σ β} (hx : AgreeOn I x y)
    (hf : ∀ s a s', I s → y.exec s = (.ok a, s') → AgreeOn I (f a) (g a)) :
    AgreeOn I (x >>= f) (y >>= g) := by
  intro s hs
  obtain ⟨hr, hI⟩ := hx s hs
  rcases he : y.exec s with ⟨e | a, s₁⟩
  · rw [he] at hr hI
    rw [exec_bind_error he, exec_bind_error hr]
    exact ⟨rfl, hI⟩
  · rw [he] at hr hI
    rw [exec_bind_ok he, exec_bind_ok hr]
    exact hf s a s₁ hs he s₁ hI

theorem mapM {f g : α → Attempt ε σ β} {as : List α} (h : ∀ a ∈ as, AgreeOn I (f a) (g a)) :
    AgreeOn I (as.mapM f) (as.mapM g) := by
  induction as with
  | nil => exact of_pure []
  | cons a as ih =>
    simp only [List.mapM_cons]
    refine (h a List.mem_cons_self).bind fun _ b _ _ _ => ?_
    exact (ih fun a' ha' => h a' (List.mem_cons_of_mem a ha')).bind fun _ bs _ _ _ =>
      of_pure (b :: bs)

end AgreeOn

end Attempt

end CambriconGst.Lib
