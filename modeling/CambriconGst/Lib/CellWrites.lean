import Mathlib.Logic.Function.Basic
import Mathlib.Tactic.TypeStar

/-!
# Cells written one after the other

* `writeCells_of_mem`: a cell whose writes agree holds what was written
* `writeCells_of_ne`: a cell that is not written stays
* `writeCells_flatMap`: a cell that only one of several blocks of writes touches
-/

namespace CambriconGst.Lib

variable {V ι : Type*} {cells cells' : Nat → V} {ws : List (Nat × V)} {idx : Nat} {v : V}

def writeCells (cells : Nat → V) (ws : List (Nat × V)) : Nat → V :=
  ws.foldl (fun cells w => Function.update cells w.1 w.2) cells

theorem writeCells_of_ne (h : ∀ w ∈ ws, w.1 ≠ idx) : writeCells cells ws idx = cells idx := by
  induction ws generalizing cells with
  | nil => rfl
  | cons w ws ih =>
    have hne : idx ≠ w.1 := Ne.symm (h w List.mem_cons_self)
    exact (ih fun w' hw' => h w' (List.mem_cons_of_mem w hw')).trans
      (Function.update_of_ne hne _ _)

theorem writeCells_of_mem (hmem : (idx, v) ∈ ws) (hsame : ∀ w ∈ ws, w.1 = idx → w.2 = v) :
    writeCells cells ws idx = v := by
  induction ws generalizing cells with
  | nil => exact absurd hmem List.not_mem_nil
  | cons w ws ih =>
    have hrest : ∀ w' ∈ ws, w'.1 = idx → w'.2 = v := fun w' hw' =>
      hsame w' (List.mem_cons_of_mem w hw')
    by_cases hlater : (idx, v) ∈ ws
    · exact ih hlater hrest
    · -- this is the last write of the cell
      have hw : w = (idx, v) := by simpa [hlater, eq_comm] using hmem
      have hne : ∀ w' ∈ ws, w'.1 ≠ idx := by
        intro w' hw' he
        have hw'' : w' = (idx, v) := Prod.ext he (hrest w' hw' he)
        exact hlater (hw'' ▸ hw')
      subst hw
      exact (writeCells_of_ne hne).trans (Function.update_self _ _ _)

theorem writeCells_append (cells : Nat → V) (ws ws' : List (Nat × V)) :
    writeCells cells (ws ++ ws') = writeCells (writeCells cells ws) ws' :=
  List.foldl_append

theorem writeCells_congr (h : cells idx = cells' idx) :
    writeCells cells ws idx = writeCells cells' ws idx := by
  induction ws generalizing cells cells' with
  | nil => exact h
  | cons w ws ih =>
    refine ih ?_
    simp only [Function.update_apply]
    split
    · rfl
    · exact h

theorem writeCells_flatMap {f : ι → List (Nat × V)} {i : ι} {l : List ι} (hl : l.Nodup)
    (hi : i ∈ l) (h : ∀ j ∈ l, j ≠ i → ∀ w ∈ f j, w.1 ≠ idx) :
    writeCells cells (l.flatMap f) idx = writeCells cells (f i) idx := by
  induction l generalizing cells with
  | nil => exact absurd hi List.not_mem_nil
  | cons j l ih =>
    obtain ⟨hj, hl⟩ := List.nodup_cons.mp hl
    rw [List.flatMap_cons, writeCells_append]
    have hrest : ∀ k ∈ l, k ≠ i → ∀ w ∈ f k, w.1 ≠ idx := fun k hk =>
      h k (List.mem_cons_of_mem j hk)
    rcases List.mem_cons.mp hi with rfl | hi
    · refine writeCells_of_ne fun w hw => ?_
      obtain ⟨k, hk, hw⟩ := List.mem_flatMap.mp hw
      exact hrest k hk (fun he => hj (he ▸ hk)) w hw
    · rw [ih hl hi hrest]
      have hne : j ≠ i := fun he => hj (he ▸ hi)
      exact writeCells_congr (writeCells_of_ne (h j List.mem_cons_self hne))

theorem writeCells_map_add (base : Nat) (v : V) (ws : List (Nat × V)) :
    writeCells (fun _ => v) (ws.map fun w => (base + w.1, w.2)) (base + idx) =
      writeCells (fun _ => v) ws idx := by
  suffices h : ∀ cells cells' : Nat → V, cells' (base + idx) = cells idx →
      writeCells cells' (ws.map fun w => (base + w.1, w.2)) (base + idx) =
        writeCells cells ws idx from h _ _ rfl
  induction ws with
  | nil => exact fun _ _ h => h
  | cons w ws ih =>
    intro cells cells' h
    refine ih _ _ ?_
    simp only [Function.update_apply, Nat.add_left_cancel_iff]
    split
    · rfl
    · exact h

end CambriconGst.Lib
