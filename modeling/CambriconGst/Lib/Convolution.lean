import CambriconGst.Lib.CellWrites
import Mathlib.Algebra.BigOperators.Group.Finset.Basic
import Mathlib.Algebra.BigOperators.Ring.Finset
import Mathlib.Algebra.Ring.Nat

/-!
# Convolutions

Convolutions with kernels as high as the input and one position wide: each output is a product of a
kernel with a column of the input. Kernels with few entries are lists of cells.

* `sum_mul_writeCells`: the product with a kernel of few entries
* `conv_eq`: a convolution with such kernels
-/

namespace CambriconGst.Lib

variable {K : Type*} [CommSemiring K] {C H W O n i : Nat} {ws : List (Nat × K)}

/-- The product with a list of cells, each of its own. -/
theorem sum_mul_writeCells (x : Nat → K) (hws : (ws.map Prod.fst).Nodup)
    (hlt : ∀ w ∈ ws, w.1 < n) :
    ∑ t ∈ Finset.range n, x t * writeCells (fun _ => 0) ws t =
      (ws.map fun w => x w.1 * w.2).sum := by
  suffices h : ∀ cells : Nat → K, (∀ w ∈ ws, cells w.1 = 0) →
      ∑ t ∈ Finset.range n, x t * writeCells cells ws t =
        ∑ t ∈ Finset.range n, x t * cells t + (ws.map fun w => x w.1 * w.2).sum by
    simpa using h (fun _ => 0) fun _ _ => rfl
  induction ws with
  | nil => intro cells _; simp [writeCells]
  | cons w ws ih =>
    intro cells hzero
    obtain ⟨hw, hws⟩ := List.nodup_cons.mp hws
    have hmem : w.1 ∈ Finset.range n := Finset.mem_range.mpr (hlt w List.mem_cons_self)
    have hupdate : ∑ t ∈ Finset.range n, x t * Function.update cells w.1 w.2 t =
        ∑ t ∈ Finset.range n, x t * cells t + x w.1 * w.2 := by
      have hsame : ∑ t ∈ (Finset.range n).erase w.1, x t * Function.update cells w.1 w.2 t =
          ∑ t ∈ (Finset.range n).erase w.1, x t * cells t :=
        Finset.sum_congr rfl fun t ht => by rw [Function.update_of_ne (Finset.ne_of_mem_erase ht)]
      rw [← Finset.sum_erase_add _ (fun t => x t * Function.update cells w.1 w.2 t) hmem,
        ← Finset.sum_erase_add _ (fun t => x t * cells t) hmem, hsame, Function.update_self,
        hzero w List.mem_cons_self, mul_zero, add_zero]
    have hrest := ih hws (fun w' hw' => hlt w' (List.mem_cons_of_mem w hw'))
      (Function.update cells w.1 w.2) fun w' hw' => ?_
    · rw [hupdate, add_assoc] at hrest
      exact hrest
    · have hne : w'.1 ≠ w.1 := fun he => hw (he ▸ List.mem_map_of_mem hw')
      rw [Function.update_of_ne hne]
      exact hzero w' (List.mem_cons_of_mem w hw')

/--
`W` positions of `C` channels in each of `H` rows, with `O` kernels: the output `i` is the one of the
kernel `i % O` at the position `i / O`.
-/
def conv (C H W O : Nat) (kernel : Nat → Nat → K) (input : Nat → K) (i : Nat) : K :=
  ∑ t ∈ Finset.range (H * C), input ((t / C * W + i / O) * C + t % C) * kernel (i % O) t

theorem conv_eq {kernel : Nat → Nat → K} {input : Nat → K}
    (hkernel : ∀ t < H * C, kernel (i % O) t = writeCells (fun _ => 0) ws t)
    (hws : (ws.map Prod.fst).Nodup) (hlt : ∀ w ∈ ws, w.1 < H * C) :
    conv C H W O kernel input i =
      (ws.map fun w => input ((w.1 / C * W + i / O) * C + w.1 % C) * w.2).sum := by
  rw [← sum_mul_writeCells (fun t => input ((t / C * W + i / O) * C + t % C)) hws hlt]
  refine Finset.sum_congr rfl fun t ht => ?_
  rw [hkernel t (Finset.mem_range.mp ht)]

end CambriconGst.Lib
