import Mathlib.Algebra.Order.BigOperators.Group.Finset
import Mathlib.Data.Fintype.Prod

/-!
# Assignments and their duals

A matching picks pairs with no row and no column used twice. `cost_le_of_duals` is the
certificate of optimality: potentials that leave every reduced cost nonnegative, and the
matching's own at zero, make it a cheapest matching of its size.

The matching need not cover all rows or all columns. What it leaves out must have the highest
potential on its side.
-/

namespace CambriconGst.Lib

variable {ι κ K : Type*}

/-- No row and no column is used twice. -/
structure IsMatching (M : Finset (ι × κ)) : Prop where
  row : ∀ p ∈ M, ∀ q ∈ M, p.1 = q.1 → p = q
  col : ∀ p ∈ M, ∀ q ∈ M, p.2 = q.2 → p = q

namespace IsMatching

variable {M : Finset (ι × κ)}

theorem card_image_fst [DecidableEq ι] (h : IsMatching M) : (M.image Prod.fst).card = M.card :=
  Finset.card_image_of_injOn fun p hp q hq he => h.row p hp q hq he

theorem card_image_snd [DecidableEq κ] (h : IsMatching M) : (M.image Prod.snd).card = M.card :=
  Finset.card_image_of_injOn fun p hp q hq he => h.col p hp q hq he

theorem card_le_left [DecidableEq ι] [Fintype ι] (h : IsMatching M) : M.card ≤ Fintype.card ι := by
  rw [← h.card_image_fst]
  exact Finset.card_le_univ _

theorem card_le_right [DecidableEq κ] [Fintype κ] (h : IsMatching M) : M.card ≤ Fintype.card κ := by
  rw [← h.card_image_snd]
  exact Finset.card_le_univ _

theorem sum_fst [DecidableEq ι] [AddCommMonoid K] (h : IsMatching M) (u : ι → K) :
    ∑ p ∈ M, u p.1 = ∑ i ∈ M.image Prod.fst, u i :=
  (Finset.sum_image fun p hp q hq he => h.row p hp q hq he).symm

theorem sum_snd [DecidableEq κ] [AddCommMonoid K] (h : IsMatching M) (v : κ → K) :
    ∑ p ∈ M, v p.2 = ∑ j ∈ M.image Prod.snd, v j :=
  (Finset.sum_image fun p hp q hq he => h.col p hp q hq he).symm

end IsMatching

/-! ## Assignment vectors -/

/--
An assignment vector for `r` rows and `c` columns: one entry a row, -1 or a column, no column
twice.
-/
structure ValidAssignment (r c : Nat) (a : List Int) : Prop where
  length : a.length = r
  range : ∀ x ∈ a, x = -1 ∨ (0 ≤ x ∧ x < c)
  distinct : ∀ (i j : Nat) (hi : i < a.length) (hj : j < a.length),
    a[i] = a[j] → 0 ≤ a[i] → i = j

/-- The pairs an assignment vector names. -/
def assignedPairs (r c : Nat) (a : List Int) : Finset (Fin r × Fin c) :=
  Finset.univ.filter fun p => a[p.1.val]? = some (p.2.val : Int)

theorem mem_assignedPairs {r c : Nat} {a : List Int} {p : Fin r × Fin c} :
    p ∈ assignedPairs r c a ↔ a[p.1.val]? = some (p.2.val : Int) := by
  simp [assignedPairs]

theorem ValidAssignment.isMatching {r c : Nat} {a : List Int} (h : ValidAssignment r c a) :
    IsMatching (assignedPairs r c a) where
  row := fun p hp q hq he => by
    rw [mem_assignedPairs] at hp hq
    rw [← he, hp] at hq
    have : (p.2.val : Int) = q.2.val := Option.some.inj hq
    exact Prod.ext he (Fin.ext (by omega))
  col := fun p hp q hq he => by
    rw [mem_assignedPairs] at hp hq
    obtain ⟨hi, hpi⟩ := List.getElem?_eq_some_iff.mp hp
    obtain ⟨hj, hqj⟩ := List.getElem?_eq_some_iff.mp hq
    have hij := h.distinct _ _ hi hj (by rw [hpi, hqj, he]) (by rw [hpi]; omega)
    exact Prod.ext (Fin.ext hij) he

/-! ## Duality -/

variable [AddCommGroup K] [LinearOrder K] [IsOrderedAddMonoid K]

/-- Total cost of a set of pairs. -/
def totalCost (c : ι → κ → K) (M : Finset (ι × κ)) : K := ∑ p ∈ M, c p.1 p.2

/-- A set that leaves out only top values has the smallest sum among the sets of its size. -/
theorem sum_le_sum_of_top [DecidableEq ι] {f : ι → K} {S T : Finset ι} (hcard : T.card = S.card)
    (htop : ∀ i, i ∉ S → ∀ i', f i' ≤ f i) : ∑ i ∈ S, f i ≤ ∑ i ∈ T, f i := by
  by_cases hsub : T ⊆ S
  · rw [Finset.eq_of_subset_of_card_le hsub (by omega)]
  · obtain ⟨i₀, hT, hS⟩ := Finset.not_subset.mp hsub
    -- compare through the slack below the top value
    have hle : ∀ i, f i ≤ f i₀ := htop i₀ hS
    have hslack : ∀ i, i ∉ S → f i₀ - f i = 0 := fun i hi =>
      sub_eq_zero.mpr (le_antisymm (htop i hi i₀) (hle i))
    have hsum : ∑ i ∈ T, (f i₀ - f i) ≤ ∑ i ∈ S, (f i₀ - f i) := by
      calc ∑ i ∈ T, (f i₀ - f i) = ∑ i ∈ T ∩ S, (f i₀ - f i) := by
            refine (Finset.sum_subset Finset.inter_subset_left ?_).symm
            intro i hi hni
            exact hslack i fun hS' => hni (Finset.mem_inter.mpr ⟨hi, hS'⟩)
        _ ≤ ∑ i ∈ S, (f i₀ - f i) :=
            Finset.sum_le_sum_of_subset_of_nonneg Finset.inter_subset_right
              fun i _ _ => sub_nonneg.mpr (hle i)
    rw [Finset.sum_sub_distrib, Finset.sum_sub_distrib, Finset.sum_const, Finset.sum_const,
      hcard] at hsum
    exact (sub_le_sub_iff_left _).mp hsum

/--
**A tight matching under feasible duals is optimal.**

`d` is the reduced cost: nonnegative, zero on `M`. Rows and columns outside `M` have top
potential. Then no matching of the same size is cheaper.
-/
theorem cost_le_of_duals [DecidableEq ι] [DecidableEq κ] {c d : ι → κ → K} {u : ι → K} {v : κ → K}
    (hdual : ∀ i j, c i j = u i + v j + d i j) (hnn : ∀ i j, 0 ≤ d i j)
    {M : Finset (ι × κ)} (hM : IsMatching M) (htight : ∀ p ∈ M, d p.1 p.2 = 0)
    (hu : ∀ i, i ∉ M.image Prod.fst → ∀ i', u i' ≤ u i)
    (hv : ∀ j, j ∉ M.image Prod.snd → ∀ j', v j' ≤ v j)
    {N : Finset (ι × κ)} (hN : IsMatching N) (hcard : N.card = M.card) :
    totalCost c M ≤ totalCost c N := by
  have hsplit : ∀ P : Finset (ι × κ), totalCost c P
      = ∑ p ∈ P, u p.1 + ∑ p ∈ P, v p.2 + ∑ p ∈ P, d p.1 p.2 := by
    intro P
    unfold totalCost
    rw [← Finset.sum_add_distrib, ← Finset.sum_add_distrib]
    exact Finset.sum_congr rfl fun p _ => hdual p.1 p.2
  have hrows : ∑ p ∈ M, u p.1 ≤ ∑ p ∈ N, u p.1 := by
    rw [hM.sum_fst, hN.sum_fst]
    exact sum_le_sum_of_top (by rw [hN.card_image_fst, hM.card_image_fst, hcard]) hu
  have hcols : ∑ p ∈ M, v p.2 ≤ ∑ p ∈ N, v p.2 := by
    rw [hM.sum_snd, hN.sum_snd]
    exact sum_le_sum_of_top (by rw [hN.card_image_snd, hM.card_image_snd, hcard]) hv
  have hzero : ∑ p ∈ M, d p.1 p.2 = 0 := Finset.sum_eq_zero htight
  have hpos : 0 ≤ ∑ p ∈ N, d p.1 p.2 := Finset.sum_nonneg fun p _ => hnn p.1 p.2
  rw [hsplit M, hsplit N, hzero]
  exact add_le_add (add_le_add hrows hcols) hpos

end CambriconGst.Lib
