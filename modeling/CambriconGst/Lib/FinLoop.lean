import Mathlib.Algebra.BigOperators.Group.Finset.Basic
import Mathlib.Algebra.BigOperators.Fin
import Mathlib.Data.List.FinRange

/-!
# Loops over `Fin n`

Invariants of loops that count up or down, loops over parts of a state, and loops that subtract a
sum.
-/

namespace CambriconGst.Lib

variable {σ : Type*}

/-- A loop counting up: `I k` holds before index `k`. -/
theorem foldl_finRange_invariant {n : Nat} {f : σ → Fin n → σ} {I : Nat → σ → Prop} {s : σ}
    (h₀ : I 0 s) (hstep : ∀ (i : Fin n) s, I i s → I (i + 1) (f s i)) :
    I n ((List.finRange n).foldl f s) := by
  induction n generalizing s with
  | zero => exact h₀
  | succ n ih =>
    rw [List.finRange_succ_last, List.foldl_append, List.foldl_map]
    exact hstep (Fin.last n) _ (ih h₀ fun i s h => hstep i.castSucc s h)

/-- A loop counting down: `I k` holds when the indices left are those below `k`. -/
theorem foldl_finRange_reverse_invariant {n : Nat} {f : σ → Fin n → σ} {I : Nat → σ → Prop}
    {s : σ} (h₀ : I n s) (hstep : ∀ (i : Fin n) s, I (i + 1) s → I i (f s i)) :
    I 0 ((List.finRange n).reverse.foldl f s) := by
  induction n generalizing s with
  | zero => exact h₀
  | succ n ih =>
    rw [List.finRange_succ_last, List.reverse_append, List.reverse_singleton,
      List.singleton_append, List.foldl_cons, ← List.map_reverse, List.foldl_map]
    exact ih (hstep (Fin.last n) s h₀) fun i s h => hstep i.castSucc s h

/-- A loop whose steps change a part each, by what is there. -/
theorem foldl_parts {ι β : Type*} [DecidableEq ι] (p : σ → ι → β) {f : σ → ι → σ} {G : ι → β → β}
    (h : ∀ s i j, p (f s i) j = if j = i then G i (p s i) else p s j) {is : List ι}
    (hn : is.Nodup) (s : σ) (j : ι) :
    p (is.foldl f s) j = if j ∈ is then G j (p s j) else p s j := by
  induction is generalizing s with
  | nil => simp
  | cons i is ih =>
    obtain ⟨hi, hrest⟩ := List.nodup_cons.mp hn
    rw [List.foldl_cons, ih hrest, h]
    by_cases hj : j = i
    · subst hj
      rw [if_neg hi, if_pos rfl, if_pos List.mem_cons_self]
    · simp only [hj, if_false, List.mem_cons, false_or]

theorem foldl_finRange_parts {n : Nat} {β : Type*} (p : σ → Fin n → β) {f : σ → Fin n → σ}
    {G : Fin n → β → β} (h : ∀ s i j, p (f s i) j = if j = i then G i (p s i) else p s j) (s : σ)
    (j : Fin n) : p ((List.finRange n).foldl f s) j = G j (p s j) := by
  rw [foldl_parts p h (List.nodup_finRange n), if_pos (List.mem_finRange j)]

/-- A loop whose steps add adds the sum. -/
theorem foldl_eq_add_sum {K ι : Type*} [AddCommMonoid K] {g : K → ι → K} {f : ι → K}
    (hg : ∀ x i, g x i = x + f i) (is : List ι) (x : K) :
    is.foldl g x = x + (is.map f).sum := by
  induction is generalizing x with
  | nil => simp
  | cons i is ih => rw [List.foldl_cons, List.map_cons, List.sum_cons, ih, hg, add_assoc]

/-- Subtracting in a loop subtracts the sum. -/
theorem foldl_sub_ite {K : Type*} [AddCommGroup K] {ι : Type*} (p : ι → Prop) [DecidablePred p]
    (f : ι → K) (is : List ι) (x : K) :
    is.foldl (fun acc i => if p i then acc - f i else acc) x
      = x - (is.map fun i => if p i then f i else 0).sum := by
  induction is generalizing x with
  | nil => simp
  | cons i is ih =>
    rw [List.foldl_cons, List.map_cons, List.sum_cons, ih]
    split <;> simp [sub_sub]

end CambriconGst.Lib
