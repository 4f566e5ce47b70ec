import Mathlib.Algebra.BigOperators.Fin
import Mathlib.Algebra.BigOperators.Ring.Finset
import Mathlib.Algebra.Order.Ring.Int
import CambriconGst.Lib.FinLoop
import CambriconGst.Properties.HungarianSteps

/-!
# The Hungarian algorithm is correct

`solve_optimal`: with enough fuel `Solve` returns, and what it returns is a cheapest matching of
`min R C` pairs together with its cost.

The machine of `Easytrack/Hungarian.lean` is run by the total-correctness rule: `Inv` is the
invariant at each call, `remaining` the measure. A phase of the measure is the time between two
augmentations; within a phase every pass of step 3 covers a row, or is followed by a step 5 that
makes a zero for the next pass.
-/

namespace CambriconGst.Hungarian

open Lib

variable {R C : Nat} {K : Type}

/-! ## The pairs of stars -/

/-- The starred cells. -/
def starPairs (star : Fin R → Fin C → Bool) : Finset (Fin R × Fin C) :=
  Finset.univ.filter fun p => star p.1 p.2 = true

theorem mem_starPairs {star : Fin R → Fin C → Bool} {p : Fin R × Fin C} :
    p ∈ starPairs star ↔ star p.1 p.2 = true := by
  simp [starPairs]

theorem image_snd_starPairs (star : Fin R → Fin C → Bool) :
    (starPairs star).image Prod.snd = starredColumns star := by
  ext c
  rw [mem_starredColumns, Finset.mem_image]
  constructor
  · rintro ⟨p, hp, rfl⟩
    exact ⟨p.1, mem_starPairs.mp hp⟩
  · rintro ⟨r, hr⟩
    exact ⟨(r, c), mem_starPairs.mpr hr, rfl⟩

theorem mem_image_fst_starPairs {star : Fin R → Fin C → Bool} {r : Fin R} :
    r ∈ (starPairs star).image Prod.fst ↔ RowStarred star r := by
  rw [Finset.mem_image]
  constructor
  · rintro ⟨p, hp, rfl⟩
    exact ⟨p.2, mem_starPairs.mp hp⟩
  · rintro ⟨c, hc⟩
    exact ⟨(r, c), mem_starPairs.mpr hc, rfl⟩

theorem minDim_eq (R C : Nat) : minDim R C = min R C := by
  unfold minDim
  split <;> omega

theorem countP_finRange {n : Nat} (p : Fin n → Bool) :
    (List.finRange n).countP p = (Finset.univ.filter fun i => p i = true).card := by
  rw [Fin.univ_def, Finset.card_def]
  simp [List.countP_eq_length_filter]

section Stars

variable [AddCommGroup K] [LinearOrder K]

theorem Stars.isMatching {d : Fin R → Fin C → K} {star : Fin R → Fin C → Bool}
    (h : Stars d star) : IsMatching (starPairs star) where
  row := fun p hp q hq he => Prod.ext he
    (h.row p.1 p.2 q.2 (mem_starPairs.mp hp) (by rw [he]; exact mem_starPairs.mp hq))
  col := fun p hp q hq he => Prod.ext
    (h.col p.1 q.1 p.2 (mem_starPairs.mp hp) (by rw [he]; exact mem_starPairs.mp hq)) he

theorem Stars.card_starPairs {d : Fin R → Fin C → K} {star : Fin R → Fin C → Bool}
    (h : Stars d star) : (starPairs star).card = (starredColumns star).card := by
  rw [← image_snd_starPairs, h.isMatching.card_image_snd]

theorem Stars.card_le {d : Fin R → Fin C → K} {star : Fin R → Fin C → Bool}
    (h : Stars d star) : (starredColumns star).card ≤ minDim R C := by
  have h1 := h.isMatching.card_le_left
  have h2 := h.isMatching.card_le_right
  rw [Fintype.card_fin, h.card_starPairs] at h1 h2
  rw [minDim_eq]
  omega

/-- Below `minDim` stars some row and some column have none. -/
theorem Stars.exists_free {d : Fin R → Fin C → K} {star : Fin R → Fin C → Bool}
    (h : Stars d star) (hlt : (starredColumns star).card < minDim R C) :
    (∃ r, ¬RowStarred star r) ∧ ∃ c, ¬ColStarred star c := by
  rw [minDim_eq] at hlt
  constructor
  · by_contra hall
    push Not at hall
    have huniv : (starPairs star).image Prod.fst = Finset.univ :=
      Finset.eq_univ_iff_forall.mpr fun r => mem_image_fst_starPairs.mpr (hall r)
    have := h.isMatching.card_image_fst
    rw [huniv, Finset.card_univ, Fintype.card_fin, h.card_starPairs] at this
    omega
  · by_contra hall
    push Not at hall
    have huniv : starredColumns star = Finset.univ :=
      Finset.eq_univ_iff_forall.mpr fun c => mem_starredColumns.mpr (hall c)
    rw [huniv, Finset.card_univ, Fintype.card_fin] at hlt
    omega

end Stars

/-! ## The measure -/

section Measure

variable [AddCommGroup K] [DecidableEq K]

/-- Some uncovered element is zero. -/
def UncoveredZero (w : Workspace R C K) : Prop :=
  ∃ r c, w.coveredRows r = false ∧ w.coveredColumns c = false ∧ w.distMatrix r c = 0

instance (w : Workspace R C K) : Decidable (UncoveredZero w) := by
  unfold UncoveredZero
  infer_instance

/-- Calls left in the phase. -/
def remainingInPhase : Call R C × Workspace R C K → Nat
  | (.step2a, _) => 3 * R + 5
  | (.step2b, _) => 3 * R + 4
  | (.step3, w) => 3 * (uncoveredRows w).card + if UncoveredZero w then 0 else 2
  | (.step4 _ _, _) => 0
  | (.step5, w) => 3 * (uncoveredRows w).card + 1

/-- Bound on the calls left. -/
def remaining (s : Call R C × Workspace R C K) : Nat :=
  (minDim R C - (starredColumns s.2.starMatrix).card) * (3 * R + 6) + remainingInPhase s

end Measure

theorem card_uncoveredRows_le (w : Workspace R C K) : (uncoveredRows w).card ≤ R := by
  have := Finset.card_le_univ (uncoveredRows w)
  rwa [Fintype.card_fin] at this

/-- Fuel that always suffices. -/
def fuelBound (R C : Nat) : Nat := (min R C + 1) * (3 * R + 6)

/-! ## The invariant at each call -/

section Covers

variable [AddCommGroup K]

/-- With no row covered, the covered columns are the starred ones. -/
theorem countP_coveredColumns {w : Workspace R C K} (h : Cover w)
    (hr : ∀ r, w.coveredRows r = false) :
    (List.finRange C).countP w.coveredColumns = (starredColumns w.starMatrix).card := by
  rw [countP_finRange]
  congr 1
  ext c
  rw [Finset.mem_filter, mem_starredColumns, h.col c]
  simp [hr, ColStarred]

theorem step2a_cover {w : Workspace R C K} (hp : ∀ r c, w.primeMatrix r c = false)
    (hr : ∀ r, w.coveredRows r = false)
    (hc : ∀ c, w.coveredColumns c = true → ColStarred w.starMatrix c) : Cover (step2a w) := by
  refine cover_of_clear (fun c => ?_) hp hr
  simp only [step2a, Bool.or_eq_true, starInCol_isSome]
  exact ⟨fun h => h.elim (hc c) id, Or.inr⟩

end Covers

section Run

variable [AddCommGroup K] [LinearOrder K]

def Inv (cost : Fin R → Fin C → K) : Call R C × Workspace R C K → Prop
  | (call, w) => Stars w.distMatrix w.starMatrix ∧ Duals cost w.distMatrix w.starMatrix ∧
    match call with
    | .step2a => (∀ r c, w.primeMatrix r c = false) ∧ (∀ r, w.coveredRows r = false) ∧
        ∀ c, w.coveredColumns c = true → ColStarred w.starMatrix c
    | .step2b => Cover w ∧ ∀ r, w.coveredRows r = false
    | .step3 | .step5 => Cover w ∧ (starredColumns w.starMatrix).card < minDim R C
    | .step4 row col => Path w row col

/-- What the machine halts with: the stars of an optimal state, all `minDim` of them. -/
def HaltSpec (cost : Fin R → Fin C → K) (assignment : Fin R → Option (Fin C)) : Prop :=
  ∃ (d : Fin R → Fin C → K) (star : Fin R → Fin C → Bool), Stars d star ∧ Duals cost d star ∧
    (starredColumns star).card = minDim R C ∧ assignment = buildassignmentvector star

variable {dblMax : (Fin R → Fin C → K) → K}

/-- Path flipping only adds stars, so the duals stay. -/
theorem Flipped.duals {cost : Fin R → Fin C → K} {w : Workspace R C K} {row : Fin R}
    {newStar : Fin R → Fin C → Bool} (h : Flipped w row newStar)
    (hd : Duals cost w.distMatrix w.starMatrix) : Duals cost w.distMatrix newStar := by
  obtain ⟨col, -, hcols⟩ := h.cols
  exact hd.mono (fun r hr => (h.rows r).mpr (Or.inl hr)) (fun c hc => (hcols c).mpr (Or.inl hc))

theorem Flipped.card_starredColumns {w : Workspace R C K} {row : Fin R}
    {newStar : Fin R → Fin C → Bool} (h : Flipped w row newStar) :
    (starredColumns newStar).card = (starredColumns w.starMatrix).card + 1 := by
  obtain ⟨col, hfree, hcols⟩ := h.cols
  have hins : starredColumns newStar = insert col (starredColumns w.starMatrix) := by
    ext c
    rw [Finset.mem_insert, mem_starredColumns, mem_starredColumns, hcols c, or_comm]
  rw [hins, Finset.card_insert_of_notMem fun hm => hfree (mem_starredColumns.mp hm)]

theorem call_ne_stuck {cost : Fin R → Fin C → K} (s : Call R C × Workspace R C K)
    (h : Inv cost s) : call dblMax s ≠ .stuck := by
  obtain ⟨c, w⟩ := s
  obtain ⟨hs, -, hc⟩ := h
  cases c with
  | step2a => simp [call]
  | step2b => simp only [call]; split <;> simp
  | step3 => simp only [call]; split <;> simp
  | step4 row col =>
    obtain ⟨w', hw', -⟩ := step4_spec hs hc
    simp [call, hw']
  | step5 => simp [call]

theorem call_halt {cost : Fin R → Fin C → K} (s : Call R C × Workspace R C K)
    (a : Fin R → Option (Fin C)) (h : Inv cost s) (hcall : call dblMax s = .halt a) :
    HaltSpec cost a := by
  obtain ⟨c, w⟩ := s
  obtain ⟨hs, hd, hc⟩ := h
  cases c with
  | step2b =>
    simp only [call] at hcall
    split at hcall
    · next hfull =>
      rw [countP_coveredColumns hc.1 hc.2] at hfull
      exact ⟨w.distMatrix, w.starMatrix, hs, hd, hfull, (Outcome.halt.inj hcall).symm⟩
    · simp at hcall
  | step2a => simp [call] at hcall
  | step3 => simp only [call] at hcall; split at hcall <;> simp at hcall
  | step4 row col => simp only [call] at hcall; split at hcall <;> simp at hcall
  | step5 => simp [call] at hcall

variable [IsOrderedAddMonoid K]

/-- **Every call keeps the invariant and lowers the measure.** -/
theorem call_next {cost : Fin R → Fin C → K} (hbig : ∀ d r c, d r c < dblMax d)
    (s s' : Call R C × Workspace R C K) (h : Inv cost s) (hcall : call dblMax s = .next s') :
    Inv cost s' ∧ remaining s' < remaining s := by
  obtain ⟨c, w⟩ := s
  obtain ⟨hs, hd, hc⟩ := h
  have hU := card_uncoveredRows_le w
  cases c with
  | step2a =>
    obtain rfl := (Outcome.next.inj hcall).symm
    refine ⟨⟨hs, hd, step2a_cover hc.1 hc.2.1 hc.2.2, hc.2.1⟩, ?_⟩
    simp only [remaining, remainingInPhase, step2a]
    omega
  | step2b =>
    simp only [call] at hcall
    split at hcall
    · simp at hcall
    · next hnot =>
      obtain rfl := (Outcome.next.inj hcall).symm
      rw [countP_coveredColumns hc.1 hc.2] at hnot
      refine ⟨⟨hs, hd, hc.1, lt_of_le_of_ne hs.card_le hnot⟩, ?_⟩
      simp only [remaining, remainingInPhase]
      split <;> omega
  | step3 =>
    have hscan := scanColumns_spec (List.finRange C) false w hs hc.1
    simp only [call] at hcall
    cases hsc : scanColumns (List.finRange C) false w with
    | augment w' row col =>
      rw [hsc] at hscan hcall
      obtain rfl := (Outcome.next.inj hcall).symm
      obtain ⟨hdist, hstar, hpath, hpos⟩ := hscan
      refine ⟨⟨by rw [hdist, hstar]; exact hs, by rw [hdist, hstar]; exact hd, hpath⟩, ?_⟩
      simp only [remaining, remainingInPhase, hstar]
      omega
    | finished w' zerosFound =>
      rw [hsc] at hscan hcall
      obtain ⟨hdist, hstar, hcov, hle, hfound, hnone⟩ := hscan
      cases zerosFound with
      | true =>
        obtain rfl := (Outcome.next.inj hcall).symm
        have hlt := (hfound rfl).resolve_left (by simp)
        refine ⟨⟨by rw [hdist, hstar]; exact hs, by rw [hdist, hstar]; exact hd, hcov,
          by rw [hstar]; exact hc.2⟩, ?_⟩
        simp only [remaining, remainingInPhase, hstar]
        split <;> split <;> omega
      | false =>
        obtain rfl := (Outcome.next.inj hcall).symm
        obtain ⟨-, rfl, hno⟩ := hnone rfl
        refine ⟨⟨hs, hd, hc⟩, ?_⟩
        have hz : ¬UncoveredZero w' := by
          rintro ⟨r, c, hr, hcc, hz⟩
          exact hno c (List.mem_finRange c) r hcc hr hz
        simp only [remaining, remainingInPhase, if_neg hz]
        omega
  | step4 row col =>
    obtain ⟨w', hw', hdist, hcols, hflip, hprime, hrows⟩ := step4_spec hs hc
    simp only [call, hw'] at hcall
    obtain rfl := (Outcome.next.inj hcall).symm
    obtain ⟨newCol, -, hstarred⟩ := hflip.cols
    have hstars : Stars w'.distMatrix w'.starMatrix := by rw [hdist]; exact hflip.stars
    refine ⟨⟨hstars, by rw [hdist]; exact hflip.duals hd, hprime, hrows, fun c hcc => ?_⟩, ?_⟩
    · rw [hcols] at hcc
      exact (hstarred c).mpr (Or.inl (hc.covered c hcc))
    · have hmore := hflip.card_starredColumns
      have hmax := hstars.card_le
      -- one star more: the phases left drop by one, which pays for the whole next phase
      have hphase : minDim R C - (starredColumns w.starMatrix).card
          = minDim R C - (starredColumns w'.starMatrix).card + 1 := by omega
      simp only [remaining, remainingInPhase, hphase, Nat.add_mul]
      omega
  | step5 =>
    obtain rfl := (Outcome.next.inj hcall).symm
    obtain ⟨⟨r₀, hr₀⟩, c₀, hc₀⟩ := hs.exists_free hc.2
    have hr₀' : w.coveredRows r₀ = false := by
      by_contra hn
      exact hr₀ (hc.1.row r₀ (by simpa using hn))
    have hc₀' : w.coveredColumns c₀ = false := by
      by_contra hn
      exact hc₀ (hc.1.colStarred (by simpa using hn))
    obtain ⟨hs', hd', hcov, r, c, hr, hcc, hz⟩ :=
      step5_spec hs hd hc.1 (hbig w.distMatrix) hr₀' hc₀'
    refine ⟨⟨hs', hd', hcov, hc.2⟩, ?_⟩
    have hzero : UncoveredZero (step5 dblMax w) := ⟨r, c, hr, hcc, hz⟩
    have hrows : uncoveredRows (step5 dblMax w) = uncoveredRows w := rfl
    simp only [remaining, remainingInPhase, if_pos hzero, hrows]
    show _ < (minDim R C - (starredColumns w.starMatrix).card) * (3 * R + 6) + _
    simp only [step5]
    omega

/-- The machine halts within `fuelBound` calls, on stars that are optimal. -/
theorem runMachine_halts (cost : Fin R → Fin C → K) (hbig : ∀ d r c, d r c < dblMax d)
    {fuel : Nat} (hfuel : fuelBound R C ≤ fuel) :
    ∃ a, runMachine (call dblMax) fuel (.step2b, preliminary cost) = some a ∧ HaltSpec cost a := by
  obtain ⟨hs, hd, hc, hr⟩ := preliminary_spec cost
  refine runMachine_of_measure (I := Inv cost) remaining call_ne_stuck call_halt
    (fun s s' => call_next hbig s s') fuel _ ⟨hs, hd, hc, hr⟩ (lt_of_lt_of_le ?_ hfuel)
  unfold fuelBound remaining
  rw [minDim_eq, Nat.add_mul]
  have : (min R C - (starredColumns (preliminary cost).starMatrix).card) * (3 * R + 6)
      ≤ min R C * (3 * R + 6) := Nat.mul_le_mul_right _ (Nat.sub_le _ _)
  simp only [remainingInPhase]
  omega

end Run

/-! ## The assignment vector -/

/-- The assignment vector a star matrix is read into. -/
def assignmentVector (star : Fin R → Fin C → Bool) : List Int :=
  (List.finRange R).map fun row => toInt (buildassignmentvector star row)

theorem assignmentVector_getElem? (star : Fin R → Fin C → Bool) (r : Fin R) :
    (assignmentVector star)[r.val]? = some (toInt (starInRow star r)) := by
  simp [assignmentVector, buildassignmentvector]

theorem toInt_range (x : Option (Fin C)) : toInt x = -1 ∨ (0 ≤ toInt x ∧ toInt x < C) := by
  cases x with
  | none => exact Or.inl rfl
  | some c => exact Or.inr ⟨Int.natCast_nonneg _, Int.ofNat_lt.mpr c.isLt⟩

theorem toInt_eq_col {x : Option (Fin C)} {c : Fin C} : toInt x = (c.val : Int) ↔ x = some c := by
  cases x with
  | none =>
    refine ⟨fun h => ?_, fun h => by simp at h⟩
    have : (-1 : Int) = c.val := h
    omega
  | some c' => simp only [toInt, Option.some.injEq]; rw [Int.ofNat_inj]; exact Fin.val_inj

section Vector

variable [AddCommGroup K] [LinearOrder K]
variable {d : Fin R → Fin C → K} {star : Fin R → Fin C → Bool}

theorem Stars.starInRow_eq (h : Stars d star) {r : Fin R} {c : Fin C} :
    starInRow star r = some c ↔ star r c = true := by
  refine ⟨starInRow_some, fun hs => ?_⟩
  cases hr : starInRow star r with
  | none => rw [starInRow_none hr c] at hs; exact Bool.noConfusion hs
  | some c' => rw [h.row r c' c (starInRow_some hr) hs]

/-- The vector names exactly the starred cells. -/
theorem Stars.assignedPairs_eq (h : Stars d star) :
    assignedPairs R C (assignmentVector star) = starPairs star := by
  ext p
  rw [mem_assignedPairs, mem_starPairs, assignmentVector_getElem?, Option.some.injEq,
    toInt_eq_col, h.starInRow_eq]

theorem Stars.validAssignment (h : Stars d star) : ValidAssignment R C (assignmentVector star) where
  length := by simp [assignmentVector]
  range := fun x hx => by
    obtain ⟨r, -, rfl⟩ := List.mem_map.mp hx
    exact toInt_range _
  distinct := fun i j hi hj he hnn => by
    have hlen : (assignmentVector star).length = R := by simp [assignmentVector]
    have hi' := assignmentVector_getElem? star ⟨i, hlen ▸ hi⟩
    have hj' := assignmentVector_getElem? star ⟨j, hlen ▸ hj⟩
    rw [List.getElem?_eq_getElem hi, Option.some.injEq] at hi'
    rw [List.getElem?_eq_getElem hj, Option.some.injEq] at hj'
    obtain hneg | ⟨-, hlt⟩ := toInt_range (starInRow star ⟨i, hlen ▸ hi⟩)
    · omega
    · obtain ⟨c, hc⟩ : ∃ c : Fin C, (assignmentVector star)[i] = (c.val : Int) :=
        ⟨⟨((assignmentVector star)[i]).toNat, by omega⟩, by simp only; omega⟩
      have hri := starInRow_some (toInt_eq_col.mp (hi'.symm.trans hc))
      have hrj := starInRow_some (toInt_eq_col.mp (hj'.symm.trans (he.symm.trans hc)))
      exact Fin.mk.inj (h.col _ _ c hri hrj)

/-- The number of entries that are not -1 is the number of stars. -/
theorem Stars.countP_assignmentVector (h : Stars d star) :
    (assignmentVector star).countP (fun x => decide (0 ≤ x)) = (starPairs star).card := by
  have hrow : ∀ r : Fin R, decide (0 ≤ toInt (starInRow star r)) = (starInRow star r).isSome := by
    intro r
    cases starInRow star r with
    | none => rfl
    | some c => simp [toInt]
  rw [← h.isMatching.card_image_fst]
  simp only [assignmentVector, buildassignmentvector, List.countP_map, Function.comp_def, hrow]
  rw [countP_finRange]
  congr 1
  ext r
  rw [Finset.mem_filter, mem_image_fst_starPairs, Option.isSome_iff_exists]
  simp [h.starInRow_eq, RowStarred]

/-- The cost returned is the sum over the starred cells. -/
theorem Stars.computeassignmentcost_eq (h : Stars d star) (cost : Fin R → Fin C → K) :
    computeassignmentcost (buildassignmentvector star) cost = totalCost cost (starPairs star) := by
  unfold computeassignmentcost totalCost starPairs
  rw [foldl_eq_add_sum (f := fun r => ∑ c, if star r c = true then cost r c else 0) ?_, zero_add,
    ← Fin.sum_univ_def, Finset.sum_filter, Fintype.sum_prod_type]
  intro x r
  unfold buildassignmentvector
  cases hs : starInRow star r with
  | none => simp [starInRow_none hs]
  | some c =>
    simp only [← h.starInRow_eq, hs, Option.some.injEq]
    rw [Finset.sum_ite_eq, if_pos (Finset.mem_univ c)]

end Vector

/-! ## Optimality -/

section Optimality

variable [AddCommGroup K] [LinearOrder K]

/-- A cheapest matching of `min R C` pairs and its cost. -/
structure Optimal (dist : Fin R → Fin C → K) (assignment : List Int) (cost : K) : Prop where
  valid : ValidAssignment R C assignment
  size : assignment.countP (fun x => decide (0 ≤ x)) = min R C
  sum : cost = totalCost dist (assignedPairs R C assignment)
  minimal : ∀ N : Finset (Fin R × Fin C), IsMatching N → N.card = min R C →
    cost ≤ totalCost dist N

variable [IsOrderedAddMonoid K]

/-- The stars of a halting state are a cheapest matching: its duals certify it. -/
theorem Stars.totalCost_le {cost d : Fin R → Fin C → K} {star : Fin R → Fin C → Bool}
    (hs : Stars d star) (hd : Duals cost d star) (hfull : (starPairs star).card = min R C)
    {N : Finset (Fin R × Fin C)} (hN : IsMatching N) (hcard : N.card = min R C) :
    totalCost cost (starPairs star) ≤ totalCost cost N := by
  obtain ⟨u, v, hdual, hu, hv⟩ := hd
  have hrows := hs.isMatching.card_image_fst
  have hcols := hs.isMatching.card_image_snd
  refine cost_le_of_duals hdual hs.nonneg hs.isMatching
    (fun p hp => hs.zero p.1 p.2 (mem_starPairs.mp hp)) ?_ ?_ hN (hcard.trans hfull.symm)
  -- the smaller side is all starred
  · intro r hr
    have hlt := Finset.card_lt_univ_of_notMem hr
    rw [Fintype.card_fin] at hlt
    exact hu (by omega) r fun h => hr (mem_image_fst_starPairs.mpr h)
  · intro c hc
    have hlt := Finset.card_lt_univ_of_notMem hc
    rw [Fintype.card_fin] at hlt
    exact hv (by omega) c fun h => hc (by rw [image_snd_starPairs]; exact mem_starredColumns.mpr h)

variable {dblMax : (Fin R → Fin C → K) → K}

/--
**`Solve` terminates with a cheapest assignment and its cost.**

The bound step 5 starts from is any one above every entry of the matrix it is given. In the code the
lengths are of the type `int`, which needs `3 * R * C + C + R < 2 ^ 31` (`Buffer.workspace_iff`); the
same result from the bytes of the workspace is `Buffer.solve_returns`.
-/
theorem solve_optimal (dist : Fin R → Fin C → K) (hbig : ∀ d r c, d r c < dblMax d) {fuel : Nat}
    (hfuel : fuelBound R C ≤ fuel) : ∃ assignment cost,
      solve dblMax fuel dist = some (assignment, cost) ∧ Optimal dist assignment cost := by
  obtain ⟨a, hrun, d, star, hs, hd, hfull, rfl⟩ := runMachine_halts dist hbig hfuel
  have hcard : (starPairs star).card = min R C := by rw [hs.card_starPairs, hfull, minDim_eq]
  refine ⟨assignmentVector star, computeassignmentcost (buildassignmentvector star) dist, ?_, ?_⟩
  · simp only [solve, assignmentoptimal, hrun, Option.map_some, assignmentVector]
  · rw [hs.computeassignmentcost_eq]
    exact {
      valid := hs.validAssignment
      size := by rw [hs.countP_assignmentVector, hcard]
      sum := by rw [hs.assignedPairs_eq]
      minimal := fun N hN hNcard => hs.totalCost_le hd hcard hN hNcard }

end Optimality

/-! ## A bound for step 5 -/

section Bound

variable [Ring K] [LinearOrder K] [IsStrictOrderedRing K]

/-- A bound above every entry. -/
def aboveEntries (d : Fin R → Fin C → K) : K := ∑ r, ∑ c, |d r c| + 1

theorem lt_aboveEntries (d : Fin R → Fin C → K) (r : Fin R) (c : Fin C) :
    d r c < aboveEntries d := by
  have hcol : |d r c| ≤ ∑ c, |d r c| :=
    Finset.single_le_sum (fun c _ => abs_nonneg (d r c)) (Finset.mem_univ c)
  have hrow : ∑ c, |d r c| ≤ ∑ r, ∑ c, |d r c| :=
    Finset.single_le_sum (f := fun r => ∑ c, |d r c|)
      (fun r _ => Finset.sum_nonneg fun c _ => abs_nonneg (d r c)) (Finset.mem_univ r)
  exact lt_of_le_of_lt ((le_abs_self _).trans (hcol.trans hrow)) (lt_add_one _)

end Bound

/-- Three workers, two jobs. -/
def sampleCosts : Fin 3 → Fin 2 → Int := ![![4, 1], ![2, 0], ![5, 3]]

theorem solve_optimal_sample : ∃ assignment cost,
    solve aboveEntries (fuelBound 3 2) sampleCosts = some (assignment, cost) ∧
      Optimal sampleCosts assignment cost :=
  solve_optimal sampleCosts lt_aboveEntries (Nat.le_refl _)

example : solve aboveEntries (fuelBound 3 2) sampleCosts = some ([1, 0, -1], 3) := by
  decide

end CambriconGst.Hungarian
