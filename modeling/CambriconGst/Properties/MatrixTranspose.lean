import CambriconGst.Properties.Matrix

/-!
# The transposition in place

`Transpose` of `easytrack/matrix.cpp`. An index is below `m * n` at every turn, so that the search,
which follows a permutation, comes back.

* `transpose_in_place`: what the array holds afterwards, and where `MoveData` is called
-/

namespace CambriconGst.Easytrack

open Lib

variable {K : Type} {m n : Nat}

/-- An index of the result comes from the index of the element with row and column exchanged. -/
theorem getPre_eq {r c : Nat} {i j : Fin (m * n)} (hr : r < m) (hi : i.val = c * m + r)
    (hj : j.val = r * n + c) : getPre m n i = j := by
  have hm : 0 < m := Nat.zero_lt_of_lt hr
  have hmod : i.val % m = r := by rw [hi, Nat.mul_comm c m, Nat.mul_add_mod, Nat.mod_eq_of_lt hr]
  have hdiv : i.val / m = c := by
    rw [hi, Nat.mul_comm c m, Nat.mul_add_div hm, Nat.div_eq_of_lt hr, Nat.add_zero]
  refine Fin.ext ?_
  show i.val % m * n + i.val / m = j.val
  rw [hmod, hdiv, hj]

/-- One leader in each cycle. -/
theorem existsUnique_leader (σ : Equiv.Perm (Fin n)) (x : Fin n) :
    ∃! i, CycleLeader.Leader σ i ∧ σ.SameCycle i x := by
  obtain ⟨i, hlead, hcycle⟩ := CycleLeader.exists_leader σ x
  exact ⟨i, ⟨hlead, hcycle⟩, fun j hj => hj.1.unique hlead (hj.2.trans hcycle.symm)⟩

/--
**`Transpose`.**

The loops end within `m * n` turns each. Afterwards the array is transposed, and `MoveData` has been
called once for each cycle of the indices, at the least index of the cycle.
-/
theorem transpose_in_place (mtx : Fin (m * n) → K) {fuel : Nat} (hfuel : m * n ≤ fuel) :
    ∃ mtx' moved, transposeLogged m n fuel mtx = some (mtx', moved) ∧
      (∀ r c, r < m → c < n → ∀ i j : Fin (m * n), i.val = c * m + r → j.val = r * n + c →
        mtx' i = mtx j) ∧
      moved.Nodup ∧ (∀ i ∈ moved, ∀ x, (nextPerm m n).SameCycle i x → i ≤ x) ∧
      ∀ x, ∃! i, i ∈ moved ∧ (nextPerm m n).SameCycle i x := by
  obtain ⟨moved, hrun, hnodup, hmoved⟩ := CycleLeader.permuteLogged_spec (nextPerm m n) mtx
    (List.nodup_finRange (m * n)) List.mem_finRange ((Fintype.card_fin _).trans_le hfuel)
  refine ⟨_, moved, hrun, fun r c hr hc i j hi hj => ?_, hnodup, fun i hi => (hmoved i).mp hi,
    fun x => ?_⟩
  · exact congrArg mtx (getPre_eq hr hi hj)
  · simp only [hmoved]
    exact existsUnique_leader (nextPerm m n) x

theorem transpose_in_place_two_by_three :
    ∃ mtx' moved, transposeLogged 2 3 6 (fun i => i.val) = some (mtx', moved) ∧
      mtx' 1 = 3 ∧ mtx' 4 = 2 ∧ moved.Nodup := by
  obtain ⟨mtx', moved, hrun, hright, hnodup, -⟩ :=
    transpose_in_place (m := 2) (n := 3) (fun i => i.val) (Nat.le_refl 6)
  exact ⟨mtx', moved, hrun, hright 1 0 (by decide) (by decide) 1 3 rfl rfl,
    hright 0 2 (by decide) (by decide) 4 2 rfl rfl, hnodup⟩

example : (transposeLogged 2 3 6 fun i => i.val).map (fun s => (List.ofFn s.1, s.2)) =
    some ([0, 3, 1, 4, 2, 5], [0, 1, 5]) := by
  decide

end CambriconGst.Easytrack
