import CambriconGst.Properties.Hungarian
import CambriconGst.Properties.HungarianRefinement
import CambriconGst.Properties.HungarianReuse

/-!
# What the workspace ends with

In exact arithmetic `Solve` on the bytes of its workspace returns what the algorithm of
`Easytrack/Hungarian.lean` returns.

* `initBuffer_work`: the workspace before the preliminary steps
* `solve_returns`: with enough fuel `Solve` returns
-/

namespace CambriconGst.Hungarian.Buffer

open Lib

variable {K B : Type} {F : ByteFormat K B} {R C : Nat} {m : Memory B}

/-! ## Before the preliminary steps -/

theorem get_fillIn (DistMatrix : Fin R → Fin C → K) (m : Memory B) (row : Fin R) (col : Fin C) :
    (distMatrixIn F).get (fillIn F DistMatrix m) (row + R * col) = DistMatrix row col := by
  have hrows : ∀ (m : Memory B) (i r : Fin R), (fun c : Fin C => (distMatrixIn F).get
        ((List.finRange C).foldl (fun m (j : Fin C) =>
          (distMatrixIn F).set m (i + R * j) (DistMatrix i j)) m) (r + R * c)) =
      if r = i then DistMatrix i else fun c : Fin C => (distMatrixIn F).get m (r + R * c) := by
    intro m i r
    funext c
    refine (foldl_finRange_parts (fun m (c : Fin C) => (distMatrixIn F).get m (r + R * c))
      (G := fun j x => if r = i then DistMatrix i j else x) (fun m j c => ?_) m c).trans ?_
    · have hset := congrFun (congrFun (get_set_entry (distMatrixIn F) m i j (DistMatrix i j)) r) c
      refine hset.trans ?_
      rw [setEntry_apply]
      by_cases hr : r = i
      · by_cases hc : c = j
        · simp [hr, hc]
        · simp [hr, hc]
      · by_cases hc : c = j
        · simp [hr, hc]
        · simp [hr, hc]
    · split <;> rfl
  have hparts := foldl_finRange_parts (fun m (r : Fin R) (c : Fin C) =>
    (distMatrixIn F).get m (r + R * c)) (G := fun r _ => DistMatrix r) hrows m row
  exact congrFun hparts col

theorem get_distMatrixIn_clearAssignment (m : Memory B) (row : Fin R) (col : Fin C) :
    (distMatrixIn F).get (clearAssignment F R C m) (row + R * col) =
      (distMatrixIn F).get m (row + R * col) := by
  unfold clearAssignment
  refine List.foldlRecOn (motive := fun m' => (distMatrixIn F).get m' (row + R * col) =
    (distMatrixIn F).get m (row + R * col)) _ _ rfl fun m' hm' r _ => Eq.trans ?_ hm'
  exact (Only.of_set (F := F) (a := .assignment) rfl rfl r.isLt).get_eq (b := .distMatrixIn) nofun
    rfl rfl (index_lt row col)

theorem get_distMatrixIn_initBuffer (DistMatrix : Fin R → Fin C → K) (m : Memory B)
    (len : Nat) (row : Fin R) (col : Fin C) :
    (distMatrixIn F).get (initBuffer F (4 * (R * C)) len DistMatrix m) (row + R * col) =
      DistMatrix row col := by
  have hlt := index_lt row col
  have hcopy : (distMatrixIn F).after (row + R * col) + 4 ≤ (distMatrix F R C).base := by
    rw [distMatrix_base]
    show 0 + 4 * (row + R * col) + 4 ≤ _
    omega
  have hfill : (distMatrixIn F).after (row + R * col) + 4 ≤ (starMatrix F R C).base := by
    rw [starMatrix_base]
    show 0 + 4 * (row + R * col) + 4 ≤ _
    omega
  refine (get_fill_of_outside (.inl hfill)).trans ((get_copy_of_outside (.inl hcopy)).trans ?_)
  exact (get_distMatrixIn_clearAssignment _ row col).trans (get_fillIn DistMatrix m row col)

theorem get_filled {p : Pointer Bool B 1} {start len i : Nat} (hp : p.codec = F.bool)
    (hlo : start ≤ p.after i) (hhi : p.after i + 1 ≤ start + len) (m : Memory B) :
    p.get (fill start len F.zero m) i = false := by
  rw [get_fill hlo hhi, hp, F.bool_zero]

/-- **The workspace before the preliminary steps.** -/
theorem initBuffer_work [AddCommGroup K] [LinearOrder K] (DistMatrix : Fin R → Fin C → K)
    (m : Memory B) :
    (arrays F R C (initBuffer F (4 * (R * C)) (3 * (R * C) + C + R) DistMatrix m)).work =
      cleared DistMatrix := by
  have hmatrix : ∀ {k}, k < R * C → (distMatrix F R C).get (initBuffer F (4 * (R * C))
      (3 * (R * C) + C + R) DistMatrix m) k = (distMatrixIn F).get
        (clearAssignment F R C (fillIn F DistMatrix m)) k := by
    intro k hk
    have hfill : (distMatrix F R C).after k + 4 ≤ (starMatrix F R C).base := by
      rw [Pointer.after, distMatrix_base, starMatrix_base]
      omega
    refine (get_fill_of_outside (.inl hfill)).trans ?_
    exact get_copy (p := distMatrix F R C) (q := distMatrixIn F) rfl hk
  refine Workspace.ext ?_ ?_ ?_ ?_ ?_
  · funext row col
    refine (hmatrix (index_lt row col)).trans ?_
    exact (get_distMatrixIn_clearAssignment _ row col).trans (get_fillIn DistMatrix m row col)
  · funext row col
    have hlt := index_lt row col
    refine get_filled rfl ?_ ?_ _ <;> rw [Pointer.after, starMatrix_base] <;> omega
  · funext row col
    have hlt := index_lt row col
    refine get_filled rfl ?_ ?_ _ <;>
      rw [Pointer.after, primeMatrix_base, starMatrix_base] <;> omega
  · funext col
    have hlt := col.isLt
    refine get_filled rfl ?_ ?_ _ <;>
      rw [Pointer.after, coveredColumns_base, starMatrix_base] <;> omega
  · funext row
    have hlt := row.isLt
    refine get_filled rfl ?_ ?_ _ <;>
      rw [Pointer.after, coveredRows_base, starMatrix_base] <;> omega

/-! ## What is returned -/

/-- The matrix that came in stays. -/
theorem get_distMatrixIn_of_inWorkspace {lo : Nat} (hlo : 4 * (R * C) ≤ lo) {outer m : Memory B}
    (row : Fin R) (col : Fin C) :
    (distMatrixIn F).get (inWorkspace R C lo outer m) (row + R * col) =
      (distMatrixIn F).get outer (row + R * col) := by
  have hlt := index_lt row col
  refine Pointer.get_congr fun a _ ha => if_neg ?_
  have ha' : a < 0 + 4 * (row + R * col) + 4 := ha
  omega

/-- An entry of the assignment vector. -/
theorem get_buildassignmentvector (m : Memory B) (row : Fin R) :
    (assignment F R C).get (buildassignmentvector F R C m) row =
      match starInRow (arrays F R C m).work.starMatrix row with
      | some col => BitVec.ofNat 32 col
      | none => (assignment F R C).get m row := by
  have hparts := foldl_finRange_parts
    (fun m (r : Fin R) => ((arrays F R C m).work.starMatrix r, (assignment F R C).get m r))
    (G := fun _ x => (x.1, match (List.finRange C).find? fun col => x.1 col with
      | some col => BitVec.ofNat 32 col
      | none => x.2)) (f := fun m (row : Fin R) =>
    match (List.finRange C).find? fun col : Fin C => (starMatrix F R C).get m (row + R * col) with
    | some col => (assignment F R C).set m row (BitVec.ofNat 32 col)
    | none => m) (fun m i j => ?_) m row
  · exact congrArg Prod.snd hparts
  · have hfind : ((List.finRange C).find? fun col : Fin C =>
          (starMatrix F R C).get m (i + R * col)) =
        (List.finRange C).find? fun col => (arrays F R C m).work.starMatrix i col := rfl
    dsimp only
    rw [hfind]
    cases (List.finRange C).find? fun col => (arrays F R C m).work.starMatrix i col with
    | some col =>
      dsimp only
      rw [arrays_set_assignment, Pointer.get_set]
      by_cases hj : j = i
      · subst hj
        rw [if_pos rfl, if_pos rfl]
      · rw [if_neg hj, if_neg fun he => hj (Fin.ext he)]
    | none =>
      by_cases hj : j = i
      · subst hj
        rw [if_pos rfl]
      · rw [if_neg hj]

theorem toInt_ofNat_of_lt {n : Nat} (h : n < 2 ^ 31) : (BitVec.ofNat 32 n).toInt = n := by
  rw [BitVec.toInt_ofNat', Int.bmod_def]
  split <;> omega

/-- An entry as an `int`. -/
theorem toInt_buildassignmentvector (hC : C < 2 ^ 31) {row : Fin R}
    (h : (assignment F R C).get m row = -1) :
    ((assignment F R C).get (buildassignmentvector F R C m) row).toInt =
      Hungarian.toInt (Hungarian.buildassignmentvector (arrays F R C m).work.starMatrix row) := by
  rw [get_buildassignmentvector, Hungarian.buildassignmentvector]
  cases starInRow (arrays F R C m).work.starMatrix row with
  | some col => exact toInt_ofNat_of_lt (col.isLt.trans hC)
  | none =>
    dsimp only
    rw [h]
    exact (by decide : (-1 : BitVec 32).toInt = -1)

/-- The matrix that came in, when the assignment vector has been built. -/
theorem get_distMatrixIn_of_runMachine {A : FloatOps K} {dblMax : (Fin R → Fin C → K) → K}
    {fuel turns : Nat} {c : Call R C} {r : Memory B} {DistMatrix : Fin R → Fin C → K}
    (h : runMachine (search A F dblMax fuel) turns (c, started A F DistMatrix m) = some r)
    (row : Fin R) (col : Fin C) :
    (distMatrixIn F).get (buildassignmentvector F R C r) (row + R * col) = DistMatrix row col := by
  have hvector : buildassignmentvector F R C r =
      inWorkspace R C (4 * (R * C)) r (buildassignmentvector F R C r) :=
    eq_within (fun _ m => buildassignmentvector_inWorkspace (Nat.le_refl _) m) r
  have hlo : 4 * (R * C) ≤ 4 * (R * C) + 4 * R := Nat.le_add_right _ _
  rw [hvector, get_distMatrixIn_of_inWorkspace (Nat.le_refl _), eq_inWorkspace_of_runMachine h,
    get_distMatrixIn_of_inWorkspace hlo, started_eq_inWorkspace,
    get_distMatrixIn_of_inWorkspace hlo, get_distMatrixIn_initBuffer]

section Exact

variable [AddCommGroup K] [LinearOrder K]

theorem computeassignmentcost_exact {a : Fin R → Option (Fin C)} {D : Fin R → Fin C → K}
    (hassignment : ∀ row : Fin R,
      ((assignment F R C).get m row).toInt = Hungarian.toInt (a row))
    (hdist : ∀ (row : Fin R) (col : Fin C),
      (distMatrixIn F).get m (row + R * col) = D row col) :
    computeassignmentcost .exact F R C m = Hungarian.computeassignmentcost a D := by
  refine List.foldl_ext _ _ _ fun cost row _ => ?_
  dsimp only
  rw [hassignment]
  cases a row with
  | some col =>
    refine (if_pos (Int.natCast_nonneg col)).trans ?_
    exact congrArg (cost + ·) (hdist row col)
  | none => exact if_neg (by decide : ¬(-1 : Int) ≥ 0)

variable [IsOrderedAddMonoid K] {dblMax : (Fin R → Fin C → K) → K}

/--
**`Solve` returns what the algorithm computes**, with as many calls as the algorithm may need,
whatever the workspace holds; and whatever is outside of the workspace, it returns the same and
leaves that as it is.
-/
theorem solve_returns (DistMatrix : Fin R → Fin C → K) (hbig : ∀ d r c, d r c < dblMax d)
    {fuel : Nat} (hfuel : fuelBound R C ≤ fuel) (h : 3 * (R * C) + C + R < 2 ^ 31)
    (m : Memory B) : ∃ r m', Hungarian.solve dblMax fuel DistMatrix = some r ∧
      solve .exact F dblMax fuel DistMatrix m = .returned (r, m') ∧
      ∀ outer, solve .exact F dblMax fuel DistMatrix (inWorkspace R C 0 outer m) =
        .returned (r, inWorkspace R C 0 outer m') := by
  obtain ⟨a, hrun, -⟩ := runMachine_halts DistMatrix hbig hfuel
  have hturns : R + 1 ≤ fuel := by
    have hbound : 3 * R + 6 ≤ fuelBound R C := Nat.le_mul_of_pos_left _ (Nat.succ_pos _)
    omega
  have hwork : (arrays F R C (started .exact F DistMatrix m)).work =
      Hungarian.preliminary DistMatrix := preliminary_arrays (initBuffer_work DistMatrix m)
  rw [← hwork] at hrun
  obtain ⟨m', hsearch, rfl⟩ := runMachine_search hturns hrun
  rw [hwork] at hrun
  have hassignment : ∀ row : Fin R,
      ((assignment F R C).get (buildassignmentvector F R C m') row).toInt = Hungarian.toInt
        (Hungarian.buildassignmentvector (arrays F R C m').work.starMatrix row) :=
    fun row => toInt_buildassignmentvector (by omega) (get_assignment_of_runMachine hsearch row)
  have hcost := computeassignmentcost_exact hassignment (get_distMatrixIn_of_runMachine hsearch)
  have hsolve : solve .exact F dblMax fuel DistMatrix m = .returned
      (results .exact F R C (buildassignmentvector F R C m'), buildassignmentvector F R C m') := by
    rw [solve_of_lt h, hsearch]
    rfl
  refine ⟨results .exact F R C (buildassignmentvector F R C m'), buildassignmentvector F R C m',
    ?_, hsolve, fun outer => ?_⟩
  · rw [Hungarian.solve, assignmentoptimal, hrun, results, hcost]
    simp only [hassignment, Option.map_some]
  · rw [solve_inWorkspace h, hsolve]
    rfl

end Exact

/-- Whole numbers as they are, in each of their bytes. -/
def plainIntegers : ByteFormat ℤ ℤ where
  float := {
    encode := fun v _ => v
    decode := fun b => b (Fin.last 3)
    decode_encode := fun _ => rfl }
  int := {
    encode := fun v _ => v.toInt
    decode := fun b => BitVec.ofInt 32 (b (Fin.last 3))
    decode_encode := fun _ => BitVec.ofInt_toInt }
  bool := {
    encode := fun v _ => if v then 1 else 0
    decode := fun b => b (Fin.last 0) != 0
    decode_encode := fun v => by cases v <;> rfl }
  zero := 0
  bool_zero := rfl

/-- Three workers and two jobs, in a workspace of sevens. -/
theorem solve_returns_sample : ∃ r m',
    Hungarian.solve aboveEntries (fuelBound 3 2) sampleCosts = some r ∧
    solve .exact plainIntegers aboveEntries (fuelBound 3 2) sampleCosts ⟨fun _ => 7⟩ =
      .returned (r, m') ∧
    ∀ outer, solve .exact plainIntegers aboveEntries (fuelBound 3 2) sampleCosts
        (inWorkspace 3 2 0 outer ⟨fun _ => 7⟩) =
      .returned (r, inWorkspace 3 2 0 outer m') :=
  solve_returns sampleCosts lt_aboveEntries (Nat.le_refl _) (by decide) _

end CambriconGst.Hungarian.Buffer
