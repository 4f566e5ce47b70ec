import Mathlib.Data.Finset.Lattice.Fold
import Mathlib.Algebra.Order.Group.Abs
import Mathlib.Order.Lattice.Nat
import CambriconGst.Easytrack.Hungarian
import CambriconGst.Lib.Assignment
import CambriconGst.Lib.RunningMin

/-!
# Invariants of the Hungarian steps

What the stars, the primes, the covers and the duals satisfy between the steps, and that each
step keeps it.

* `Stars`: stars are zeros of a nonnegative matrix, at most one in a row and in a column
* `Duals`: the matrix is the cost reduced by potentials; free rows (or columns) have the top one
* `Cover`: a column is covered exactly when it has a star in an uncovered row; a covered row has
  a prime, and primes point to older rows (`rank`)
* `Path`: what `step4` relies on to walk the alternating path
-/

namespace CambriconGst.Hungarian

open Lib

variable {R C : Nat} {K : Type}

/-! ## Stars -/

def RowStarred (star : Fin R → Fin C → Bool) (r : Fin R) : Prop := ∃ c, star r c = true

def ColStarred (star : Fin R → Fin C → Bool) (c : Fin C) : Prop := ∃ r, star r c = true

theorem starInRow_some {star : Fin R → Fin C → Bool} {r : Fin R} {c : Fin C}
    (h : starInRow star r = some c) : star r c = true := List.find?_some h

theorem starInRow_none {star : Fin R → Fin C → Bool} {r : Fin R}
    (h : starInRow star r = none) : ∀ c, star r c = false := by
  intro c
  have := List.find?_eq_none.mp h c (List.mem_finRange c)
  simpa using this

theorem starInCol_some {star : Fin R → Fin C → Bool} {c : Fin C} {r : Fin R}
    (h : starInCol star c = some r) : star r c = true :=
  List.find?_some (p := fun row => star row c) h

theorem starInCol_none {star : Fin R → Fin C → Bool} {c : Fin C}
    (h : starInCol star c = none) : ∀ r, star r c = false := by
  intro r
  have := List.find?_eq_none.mp h r (List.mem_finRange r)
  simpa using this

theorem starInCol_isSome {star : Fin R → Fin C → Bool} {c : Fin C} :
    (starInCol star c).isSome = true ↔ ColStarred star c := by
  constructor
  · intro h
    obtain ⟨r, hr⟩ := Option.isSome_iff_exists.mp h
    exact ⟨r, starInCol_some hr⟩
  · rintro ⟨r, hr⟩
    by_contra hn
    have := starInCol_none (Option.not_isSome_iff_eq_none.mp hn) r
    rw [hr] at this
    exact Bool.noConfusion this

theorem rowMin_le [LinearOrder K] (d : Fin R → Fin C → K) (hC : 0 < C) (row : Fin R) (col : Fin C) :
    rowMin d hC row ≤ d row col :=
  (LowersTo.foldl (fun c : Fin C => LowersTo.value (d row c)) (List.finRange C)).lower _ _
    ⟨col, List.mem_finRange col, rfl⟩

theorem colMin_le [LinearOrder K] (d : Fin R → Fin C → K) (hR : 0 < R) (col : Fin C)
    (row : Fin R) : colMin d hR col ≤ d row col :=
  (LowersTo.foldl (fun r : Fin R => LowersTo.value (d r col)) (List.finRange R)).lower _ _
    ⟨row, List.mem_finRange row, rfl⟩

variable [AddCommGroup K]

/-! ## Covers and primes -/

/-- The state between passes of step 3. -/
structure Cover (w : Workspace R C K) : Prop where
  col : ∀ c, w.coveredColumns c = true ↔ ∃ r, w.starMatrix r c = true ∧ w.coveredRows r = false
  row : ∀ r, w.coveredRows r = true → RowStarred w.starMatrix r
  primed : ∀ r, w.coveredRows r = true → ∃ c, w.primeMatrix r c = true
  prime : ∀ r c, w.primeMatrix r c = true →
    w.distMatrix r c = 0 ∧ w.coveredColumns c = false ∧ w.coveredRows r = true
  rank : ∃ rank : Fin R → Nat, ∀ r c r', w.primeMatrix r c = true → w.starMatrix r' c = true →
    rank r' < rank r

theorem Cover.colStarred {w : Workspace R C K} (h : Cover w) {c : Fin C}
    (hc : w.coveredColumns c = true) : ColStarred w.starMatrix c := by
  obtain ⟨r, hr, -⟩ := (h.col c).mp hc
  exact ⟨r, hr⟩

/-- Nothing primed, no row covered, exactly the starred columns covered. -/
theorem cover_of_clear {w : Workspace R C K}
    (hc : ∀ c, w.coveredColumns c = true ↔ ColStarred w.starMatrix c)
    (hp : ∀ r c, w.primeMatrix r c = false) (hr : ∀ r, w.coveredRows r = false) : Cover w where
  col := fun c => by
    rw [hc c]
    exact exists_congr fun r => ⟨fun hs => ⟨hs, hr r⟩, fun hs => hs.1⟩
  row := fun r h => by rw [hr r] at h; exact Bool.noConfusion h
  primed := fun r h => by rw [hr r] at h; exact Bool.noConfusion h
  prime := fun r c h => by rw [hp r c] at h; exact Bool.noConfusion h
  rank := ⟨fun _ => 0, fun r c _ h => by rw [hp r c] at h; exact Bool.noConfusion h⟩

/-- The state `step4` is entered in, from the uncovered zero at `row` and `col`. -/
structure Path (w : Workspace R C K) (row : Fin R) (col : Fin C) : Prop where
  free : ¬RowStarred w.starMatrix row
  zero : w.distMatrix row col = 0
  uncovered : w.coveredColumns col = false
  covered : ∀ c, w.coveredColumns c = true → ColStarred w.starMatrix c
  primed : ∀ r c, w.starMatrix r c = true → w.coveredColumns c = false →
    ∃ c', w.primeMatrix r c' = true
  prime : ∀ r c, r ≠ row → w.primeMatrix r c = true →
    w.distMatrix r c = 0 ∧ w.coveredColumns c = false
  rank : ∃ rank : Fin R → Nat, ∀ r c r', r ≠ row → w.primeMatrix r c = true →
    w.starMatrix r' c = true → rank r' < rank r

/-! ## Stars on zeros -/

variable [LinearOrder K]

structure Stars (d : Fin R → Fin C → K) (star : Fin R → Fin C → Bool) : Prop where
  nonneg : ∀ r c, 0 ≤ d r c
  zero : ∀ r c, star r c = true → d r c = 0
  row : ∀ r c c', star r c = true → star r c' = true → c = c'
  col : ∀ r r' c, star r c = true → star r' c = true → r = r'

/-- A new star on a zero in a free row and a free column. -/
theorem Stars.add {d : Fin R → Fin C → K} {star : Fin R → Fin C → Bool} (h : Stars d star)
    {r : Fin R} {c : Fin C} (hz : d r c = 0) (hr : ¬RowStarred star r) (hc : ¬ColStarred star c) :
    Stars d (setEntry star r c true) where
  nonneg := h.nonneg
  zero := fun i j hij => by
    rw [setEntry_apply] at hij
    split at hij
    · next he => rw [he.1, he.2]; exact hz
    · exact h.zero i j hij
  row := fun i j j' hij hij' => by
    rw [setEntry_apply] at hij hij'
    split at hij <;> split at hij'
    · next he he' => rw [he.2, he'.2]
    · next he _ => exact absurd ⟨j', he.1 ▸ hij'⟩ hr
    · next _ he' => exact absurd ⟨j, he'.1 ▸ hij⟩ hr
    · exact h.row i j j' hij hij'
  col := fun i i' j hij hij' => by
    rw [setEntry_apply] at hij hij'
    split at hij <;> split at hij'
    · next he he' => rw [he.1, he'.1]
    · next he _ => exact absurd ⟨i', he.2 ▸ hij'⟩ hc
    · next _ he' => exact absurd ⟨i, he'.2 ▸ hij⟩ hc
    · exact h.col i i' j hij hij'

theorem colStarred_setEntry {star : Fin R → Fin C → Bool} {r : Fin R} {c j : Fin C} :
    ColStarred (setEntry star r c true) j ↔ ColStarred star j ∨ j = c := by
  constructor
  · rintro ⟨i, hi⟩
    rw [setEntry_apply] at hi
    split at hi
    · next he => exact Or.inr he.2
    · exact Or.inl ⟨i, hi⟩
  · rintro (⟨i, hi⟩ | rfl)
    · exact ⟨i, setEntry_true_of hi r c⟩
    · exact ⟨r, setEntry_self ..⟩

theorem rowStarred_setEntry {star : Fin R → Fin C → Bool} {r i : Fin R} {c : Fin C} :
    RowStarred (setEntry star r c true) i ↔ RowStarred star i ∨ i = r := by
  constructor
  · rintro ⟨j, hj⟩
    rw [setEntry_apply] at hj
    split at hj
    · next he => exact Or.inr he.1
    · exact Or.inl ⟨j, hj⟩
  · rintro (⟨j, hj⟩ | rfl)
    · exact ⟨j, setEntry_true_of hj r c⟩
    · exact ⟨c, setEntry_self ..⟩

/-! ## Duals -/

/--
The matrix is the cost less a potential for each row and column. The side that may stay
unmatched keeps the top potential on what has no star.
-/
def Duals (cost d : Fin R → Fin C → K) (star : Fin R → Fin C → Bool) : Prop :=
  ∃ (u : Fin R → K) (v : Fin C → K),
    (∀ r c, cost r c = u r + v c + d r c) ∧
    (C < R → ∀ r, ¬RowStarred star r → ∀ r', u r' ≤ u r) ∧
    (R ≤ C → ∀ c, ¬ColStarred star c → ∀ c', v c' ≤ v c)

/-- More stars ask for less. -/
theorem Duals.mono {cost d : Fin R → Fin C → K} {star star' : Fin R → Fin C → Bool}
    (h : Duals cost d star) (hr : ∀ r, RowStarred star r → RowStarred star' r)
    (hc : ∀ c, ColStarred star c → ColStarred star' c) : Duals cost d star' := by
  obtain ⟨u, v, hd, hu, hv⟩ := h
  exact ⟨u, v, hd, fun hlt r hn => hu hlt r fun hs => hn (hr r hs),
    fun hle c hn => hv hle c fun hs => hn (hc c hs)⟩

/-! ## The preliminary steps -/

/-- While stars are being placed: no primes, and a column is covered when it has a star. -/
structure Placing (d : Fin R → Fin C → K) (w : Workspace R C K) : Prop where
  dist : w.distMatrix = d
  stars : Stars d w.starMatrix
  col : ∀ c, w.coveredColumns c = true ↔ ColStarred w.starMatrix c
  prime : ∀ r c, w.primeMatrix r c = false

theorem placing_cleared {d : Fin R → Fin C → K} (h : ∀ r c, 0 ≤ d r c) :
    Placing d (cleared d) where
  dist := rfl
  stars := ⟨h, fun _ _ hs => by simp [cleared] at hs, fun _ _ _ hs => by simp [cleared] at hs,
    fun _ _ _ hs => by simp [cleared] at hs⟩
  col := fun c => by simp [cleared, ColStarred]
  prime := fun _ _ => rfl

theorem starRow_placing {d : Fin R → Fin C → K} {w : Workspace R C K} (h : Placing d w)
    {row : Fin R} (hrow : ¬RowStarred w.starMatrix row) :
    Placing d (starRow w row) ∧ (starRow w row).coveredRows = w.coveredRows ∧
      ∀ r, r ≠ row → (RowStarred (starRow w row).starMatrix r ↔ RowStarred w.starMatrix r) := by
  unfold starRow
  split
  · next col hf =>
    have hp := List.find?_some hf
    simp only [Bool.and_eq_true, decide_eq_true_eq, Bool.not_eq_true', h.dist] at hp
    have hfree : ¬ColStarred w.starMatrix col := fun hs => by
      have := (h.col col).mpr hs
      rw [hp.2] at this
      exact Bool.noConfusion this
    refine ⟨⟨h.dist, h.stars.add hp.1 hrow hfree, ?_, h.prime⟩, rfl, ?_⟩
    · intro c
      rw [colStarred_setEntry]
      by_cases hc : c = col
      · subst hc; simp
      · simp [hc, h.col c]
    · intro r hr
      rw [rowStarred_setEntry]
      simp [hr]
  · exact ⟨h, rfl, fun r _ => Iff.rfl⟩

theorem foldl_starRow_placing {d : Fin R → Fin C → K} : ∀ (l : List (Fin R))
    (w : Workspace R C K), Placing d w → l.Nodup → (∀ r ∈ l, ¬RowStarred w.starMatrix r) →
    Placing d (l.foldl starRow w) ∧ (l.foldl starRow w).coveredRows = w.coveredRows
  | [], _, h, _, _ => ⟨h, rfl⟩
  | row :: rest, w, h, hnd, hfree => by
    obtain ⟨hp, hcr, hrows⟩ := starRow_placing h (hfree row List.mem_cons_self)
    obtain ⟨hnotin, hnd'⟩ := List.nodup_cons.mp hnd
    have hfree' : ∀ r ∈ rest, ¬RowStarred (starRow w row).starMatrix r := by
      intro r hr
      rw [hrows r fun he => hnotin (he ▸ hr)]
      exact hfree r (List.mem_cons_of_mem _ hr)
    obtain ⟨hp', hcr'⟩ := foldl_starRow_placing rest _ hp hnd' hfree'
    exact ⟨hp', hcr'.trans hcr⟩

theorem starCol_placing {d : Fin R → Fin C → K} {w : Workspace R C K} (h : Placing d w)
    (hcr : ∀ r, w.coveredRows r = true ↔ RowStarred w.starMatrix r)
    {col : Fin C} (hcol : ¬ColStarred w.starMatrix col) :
    Placing d (starCol w col) ∧
      (∀ r, (starCol w col).coveredRows r = true ↔ RowStarred (starCol w col).starMatrix r) ∧
      ∀ c, c ≠ col → (ColStarred (starCol w col).starMatrix c ↔ ColStarred w.starMatrix c) := by
  unfold starCol
  split
  · next row hf =>
    have hp := List.find?_some hf
    simp only [Bool.and_eq_true, decide_eq_true_eq, Bool.not_eq_true', h.dist] at hp
    have hfree : ¬RowStarred w.starMatrix row := fun hs => by
      have := (hcr row).mpr hs
      rw [hp.2] at this
      exact Bool.noConfusion this
    refine ⟨⟨h.dist, h.stars.add hp.1 hfree hcol, ?_, h.prime⟩, ?_, ?_⟩
    · intro c
      rw [colStarred_setEntry]
      by_cases hc : c = col
      · subst hc; simp
      · simp [hc, h.col c]
    · intro r
      rw [rowStarred_setEntry]
      by_cases hr : r = row
      · subst hr; simp
      · simp [hr, hcr r]
    · intro c hc
      rw [colStarred_setEntry]
      simp [hc]
  · exact ⟨h, hcr, fun c _ => Iff.rfl⟩

theorem foldl_starCol_placing {d : Fin R → Fin C → K} : ∀ (l : List (Fin C))
    (w : Workspace R C K), Placing d w →
    (∀ r, w.coveredRows r = true ↔ RowStarred w.starMatrix r) → l.Nodup →
    (∀ c ∈ l, ¬ColStarred w.starMatrix c) → Placing d (l.foldl starCol w)
  | [], _, h, _, _, _ => h
  | col :: rest, w, h, hcr, hnd, hfree => by
    obtain ⟨hp, hcr', hcols⟩ := starCol_placing h hcr (hfree col List.mem_cons_self)
    obtain ⟨hnotin, hnd'⟩ := List.nodup_cons.mp hnd
    refine foldl_starCol_placing rest _ hp hcr' hnd' ?_
    intro c hc
    rw [hcols c fun he => hnotin (he ▸ hc)]
    exact hfree c (List.mem_cons_of_mem _ hc)

variable [IsOrderedAddMonoid K]

/-- **The preliminary steps establish the invariant.** -/
theorem preliminary_spec (cost : Fin R → Fin C → K) :
    Stars (preliminary cost).distMatrix (preliminary cost).starMatrix ∧
      Duals cost (preliminary cost).distMatrix (preliminary cost).starMatrix ∧
      Cover (preliminary cost) ∧ ∀ r, (preliminary cost).coveredRows r = false := by
  unfold preliminary
  split
  · next hle =>
    have hC : ∀ r : Fin R, 0 < C := fun r => lt_of_lt_of_le r.pos hle
    obtain ⟨hp, hcr⟩ := foldl_starRow_placing (List.finRange R) _
      (placing_cleared (d := fun r c => cost r c - rowMin cost (hC r) r)
        fun r c => sub_nonneg.mpr (rowMin_le cost (hC r) r c))
      (List.nodup_finRange R) (fun r _ => by simp [cleared, RowStarred])
    have hcr' : ∀ r, ((List.finRange R).foldl starRow (cleared fun r c =>
        cost r c - rowMin cost (hC r) r)).coveredRows r = false := fun r => by rw [hcr]; rfl
    refine ⟨by rw [hp.dist]; exact hp.stars, ?_, cover_of_clear hp.col hp.prime hcr', hcr'⟩
    rw [hp.dist]
    refine ⟨fun r => rowMin cost (hC r) r, fun _ => 0,
      fun r c => by rw [add_zero]; exact (add_sub_cancel _ _).symm, ?_, ?_⟩
    · exact fun hlt => absurd hlt (not_lt.mpr hle)
    · exact fun _ _ _ _ => le_rfl
  · next hgt =>
    have hp := foldl_starCol_placing (List.finRange C) _
      (placing_cleared (d := fun r c => cost r c - colMin cost r.pos c)
        fun r c => sub_nonneg.mpr (colMin_le cost r.pos c r))
      (fun r => by simp [cleared, RowStarred]) (List.nodup_finRange C)
      (fun c _ => by simp [cleared, ColStarred])
    have hR : 0 < R := by omega
    refine ⟨?_, ?_, cover_of_clear hp.col hp.prime fun _ => rfl, fun _ => rfl⟩
    · show Stars ((List.finRange C).foldl starCol _).distMatrix _
      rw [hp.dist]
      exact hp.stars
    · show Duals cost ((List.finRange C).foldl starCol _).distMatrix _
      rw [hp.dist]
      refine ⟨fun _ => 0, fun c => colMin cost hR c,
        fun r c => by rw [zero_add]; exact (add_sub_cancel _ _).symm, ?_, ?_⟩
      · exact fun _ _ _ _ => le_rfl
      · exact fun hle => absurd hle hgt

end CambriconGst.Hungarian
