import Mathlib.Algebra.BigOperators.Fin
import Mathlib.Data.Fin.Tuple.Basic

/-!
# Arrays in row-major order

The place of an element of an array with several dimensions, the outermost first.

* `unindex_index`, `index_unindex`: places and indices inside are one to one
* `permute`: the array with its dimensions in another order
-/

namespace CambriconGst.Lib.RowMajor

variable {V : Type*} {n : Nat}

/-- The place of the element at `i` in an array with dimensions `d`. -/
def index : {n : Nat} → (d i : Fin n → Nat) → Nat
  | 0, _, _ => 0
  | _ + 1, d, i => index (Fin.init d) (Fin.init i) * d (Fin.last _) + i (Fin.last _)

/-- The element at a place. -/
def unindex : {n : Nat} → (d : Fin n → Nat) → Nat → Fin n → Nat
  | 0, _, _ => Fin.elim0
  | _ + 1, d, p =>
    Fin.snoc (α := fun _ => Nat) (unindex (Fin.init d) (p / d (Fin.last _))) (p % d (Fin.last _))

variable {d i : Fin n → Nat} {p : Nat}

theorem index_lt (h : ∀ k, i k < d k) : index d i < ∏ k, d k := by
  induction n with
  | zero => simp [index]
  | succ n ih =>
    have hinit := ih fun k => h k.castSucc
    have hmul : (index (Fin.init d) (Fin.init i) + 1) * d (Fin.last n) ≤
        (∏ k, d (Fin.castSucc k)) * d (Fin.last n) :=
      Nat.mul_le_mul_right (d (Fin.last n)) hinit
    rw [Nat.succ_mul] at hmul
    have hlast := h (Fin.last n)
    rw [Fin.prod_univ_castSucc, index]
    omega

theorem unindex_index (h : ∀ k, i k < d k) : unindex d (index d i) = i := by
  induction n with
  | zero => exact funext fun k => k.elim0
  | succ n ih =>
    have hlast := h (Fin.last n)
    have hdiv : index d i / d (Fin.last n) = index (Fin.init d) (Fin.init i) := by
      rw [index, Nat.mul_comm, Nat.mul_add_div (by omega), Nat.div_eq_of_lt hlast, Nat.add_zero]
    have hmod : index d i % d (Fin.last n) = i (Fin.last n) := by
      rw [index, Nat.mul_comm, Nat.mul_add_mod, Nat.mod_eq_of_lt hlast]
    rw [unindex, hdiv, hmod, ih (d := Fin.init d) (i := Fin.init i) fun k => h k.castSucc]
    exact Fin.snoc_init_self i

theorem index_unindex (h : p < ∏ k, d k) :
    index d (unindex d p) = p ∧ ∀ k, unindex d p k < d k := by
  induction n generalizing p with
  | zero =>
    rw [Finset.univ_eq_empty, Finset.prod_empty] at h
    exact ⟨(Nat.lt_one_iff.mp h).symm, fun k => k.elim0⟩
  | succ n ih =>
    rw [Fin.prod_univ_castSucc] at h
    have hlast : 0 < d (Fin.last n) := Nat.pos_of_ne_zero fun h0 => by simp [h0] at h
    obtain ⟨hinit, hlt⟩ := ih (d := Fin.init d) (Nat.div_lt_of_lt_mul (Nat.mul_comm _ _ ▸ h))
    refine ⟨?_, Fin.lastCases ?_ fun k => ?_⟩
    · rw [index, unindex, Fin.init_snoc, Fin.snoc_last, hinit]
      exact Nat.div_add_mod' p (d (Fin.last n))
    · rw [unindex, Fin.snoc_last]
      exact Nat.mod_lt _ hlast
    · rw [unindex, Fin.snoc_castSucc]
      exact hlt k

/-- Which of the dimensions is put at `k`. -/
def position (order : Fin n → Fin n) (k : Fin n) : Fin n :=
  ((List.finRange n).find? fun j => order j = k).getD k

theorem position_order {order : Fin n → Fin n} (h : Function.Injective order) (k : Fin n) :
    position order (order k) = k := by
  unfold position
  cases hfind : (List.finRange n).find? fun j => order j = order k with
  | none => exact absurd (List.find?_eq_none.mp hfind k (List.mem_finRange k)) (by simp)
  | some j => exact h (by simpa using List.find?_some hfind)

/-- The array whose dimension `k` is the dimension `order k` of `src`. -/
def permute (d : Fin n → Nat) (order : Fin n → Fin n) (src : Nat → V) (p : Nat) : V :=
  src (index d fun k => unindex (d ∘ order) p (position order k))

theorem permute_index {order : Fin n → Fin n} (ho : Function.Bijective order) {src : Nat → V}
    (h : ∀ k, i k < d k) :
    permute d order src (index (d ∘ order) (i ∘ order)) = src (index d i) := by
  unfold permute
  rw [unindex_index (d := d ∘ order) (i := i ∘ order) fun k => h (order k)]
  congr 2
  funext k
  obtain ⟨j, rfl⟩ := ho.surjective k
  exact congrArg i (congrArg order (position_order ho.injective j))

end CambriconGst.Lib.RowMajor
