import CambriconGst.Properties.HungarianLayout

/-!
# The steps stay in the workspace

The operations of `Easytrack/HungarianWorkspace.lean` use and change no bytes outside of the
workspace, whatever its bytes are; before the assignment vector is built, none below the working
matrix.

* `preliminary_inWorkspace`, `runMachine_search_inWorkspace`: the preliminary steps, and the calls
-/

namespace CambriconGst.Hungarian.Buffer

open Lib

variable {K B : Type} {A : FloatOps K} {F : ByteFormat K B} {R C lo : Nat} {outer m : Memory B}

/-- Other bytes outside of the workspace, and below `lo`. -/
abbrev inWorkspace (R C lo : Nat) (outer m : Memory B) : Memory B :=
  within lo (getWorkspaceSize R C) outer m

section Elements

variable {V : Type} {s i : Nat} {p : Pointer V B s} {v : V}

/-- An element that lies in the workspace. -/
def Inside (R C lo : Nat) (p : Pointer V B s) (i : Nat) : Prop :=
  lo ≤ p.after i ∧ p.after i + s ≤ getWorkspaceSize R C

theorem Inside.get (h : Inside R C lo p i) : p.get (inWorkspace R C lo outer m) i = p.get m i :=
  get_within h.1 h.2

theorem Inside.set (h : Inside R C lo p i) :
    p.set (inWorkspace R C lo outer m) i v = inWorkspace R C lo outer (p.set m i v) :=
  set_within h.1 h.2

end Elements

section Steps

variable (hlo : lo ≤ 4 * (R * C) + 4 * R)

include hlo

/-! ## Elements -/

theorem distMatrix_inside {k : Nat} (hk : k < R * C) : Inside R C lo (distMatrix F R C) k := by
  unfold Inside Pointer.after
  rw [distMatrix_base, getWorkspaceSize_eq]
  omega

/-- Also behind the matrix, by at most a column. -/
theorem starMatrix_inside {k : Nat} (hk : k < R * C + R) : Inside R C lo (starMatrix F R C) k := by
  unfold Inside Pointer.after
  rw [starMatrix_base, getWorkspaceSize_eq]
  omega

theorem primeMatrix_inside {k : Nat} (hk : k < R * C) : Inside R C lo (primeMatrix F R C) k := by
  unfold Inside Pointer.after
  rw [primeMatrix_base, getWorkspaceSize_eq]
  omega

theorem newStarMatrix_inside {k : Nat} (hk : k < R * C + R) :
    Inside R C lo (newStarMatrix F R C) k := by
  unfold Inside Pointer.after
  rw [newStarMatrix_base, getWorkspaceSize_eq]
  omega

theorem coveredColumns_inside (col : Fin C) : Inside R C lo (coveredColumns F R C) col := by
  have hcol := col.isLt
  unfold Inside Pointer.after
  rw [coveredColumns_base, getWorkspaceSize_eq]
  omega

theorem coveredRows_inside (row : Fin R) : Inside R C lo (coveredRows F R C) row := by
  have hrow := row.isLt
  unfold Inside Pointer.after
  rw [coveredRows_base, getWorkspaceSize_eq]
  omega

omit hlo in
theorem index_lt_of_le (row : Fin R) {col : Nat} (hcol : col ≤ C) : row + R * col < R * C + R := by
  have hle : R * col ≤ R * C := Nat.mul_le_mul_left R hcol
  have hrow := row.isLt
  omega

theorem get_distMatrix (row : Fin R) (col : Fin C) :
    (distMatrix F R C).get (inWorkspace R C lo outer m) (row + R * col) =
      (distMatrix F R C).get m (row + R * col) :=
  (distMatrix_inside hlo (index_lt row col)).get

theorem set_distMatrix (row : Fin R) (col : Fin C) (v : K) :
    (distMatrix F R C).set (inWorkspace R C lo outer m) (row + R * col) v =
      inWorkspace R C lo outer ((distMatrix F R C).set m (row + R * col) v) :=
  (distMatrix_inside hlo (index_lt row col)).set

theorem get_starMatrix (row : Fin R) (col : Fin C) :
    (starMatrix F R C).get (inWorkspace R C lo outer m) (row + R * col) =
      (starMatrix F R C).get m (row + R * col) :=
  (starMatrix_inside hlo (index_lt_of_le row col.isLt.le)).get

theorem get_coveredColumns (col : Fin C) :
    (coveredColumns F R C).get (inWorkspace R C lo outer m) col =
      (coveredColumns F R C).get m col :=
  (coveredColumns_inside hlo col).get

theorem get_coveredRows (row : Fin R) :
    (coveredRows F R C).get (inWorkspace R C lo outer m) row = (coveredRows F R C).get m row :=
  (coveredRows_inside hlo row).get

/-! ## Preliminary steps -/

theorem rowMin_inWorkspace (row : Fin R) (hC : 0 < C) :
    rowMin (C := C) A F (inWorkspace R C lo outer m) row = rowMin (C := C) A F m row := by
  have hfirst : (distMatrix F R C).get (inWorkspace R C lo outer m) (row + R * 0) =
      (distMatrix F R C).get m (row + R * 0) := get_distMatrix hlo row ⟨0, hC⟩
  rw [Nat.mul_zero, Nat.add_zero] at hfirst
  unfold rowMin
  simp only [hfirst, get_distMatrix hlo]

theorem subtractRowMin_inWorkspace (row : Fin R) (hC : 0 < C) (m : Memory B) :
    subtractRowMin (C := C) A F (inWorkspace R C lo outer m) row =
      inWorkspace R C lo outer (subtractRowMin (C := C) A F m row) := by
  unfold subtractRowMin
  rw [rowMin_inWorkspace hlo row hC]
  refine foldl_within _ (fun m col _ => ?_) m
  dsimp only
  rw [get_distMatrix hlo, set_distMatrix hlo]

theorem colMin_inWorkspace (col : Fin C) (hR : 0 < R) :
    colMin (R := R) A F (inWorkspace R C lo outer m) col = colMin (R := R) A F m col := by
  have hfirst : (distMatrix F R C).get (inWorkspace R C lo outer m) (0 + R * col) =
      (distMatrix F R C).get m (0 + R * col) := get_distMatrix hlo ⟨0, hR⟩ col
  rw [Nat.zero_add] at hfirst
  unfold colMin
  simp only [hfirst, get_distMatrix hlo]

theorem subtractColMin_inWorkspace (col : Fin C) (hR : 0 < R) (m : Memory B) :
    subtractColMin (R := R) A F (inWorkspace R C lo outer m) col =
      inWorkspace R C lo outer (subtractColMin (R := R) A F m col) := by
  unfold subtractColMin
  rw [colMin_inWorkspace hlo col hR]
  refine foldl_within _ (fun m row _ => ?_) m
  dsimp only
  rw [get_distMatrix hlo, set_distMatrix hlo]

theorem starRow_inWorkspace (row : Fin R) (m : Memory B) :
    starRow (C := C) A F (inWorkspace R C lo outer m) row =
      inWorkspace R C lo outer (starRow (C := C) A F m row) := by
  unfold starRow
  simp only [get_distMatrix hlo, get_coveredColumns hlo]
  split
  · next col _ =>
    rw [(starMatrix_inside hlo (index_lt_of_le row col.isLt.le)).set,
      (coveredColumns_inside hlo col).set]
  · rfl

theorem starCol_inWorkspace (col : Fin C) (m : Memory B) :
    starCol (R := R) A F (inWorkspace R C lo outer m) col =
      inWorkspace R C lo outer (starCol (R := R) A F m col) := by
  unfold starCol
  simp only [get_distMatrix hlo, get_coveredRows hlo]
  split
  · next row _ =>
    rw [(starMatrix_inside hlo (index_lt_of_le row col.isLt.le)).set,
      (coveredColumns_inside hlo col).set, (coveredRows_inside hlo row).set]
  · rfl

theorem uncoverRows_inWorkspace (m : Memory B) :
    uncoverRows (R := R) F C (inWorkspace R C lo outer m) =
      inWorkspace R C lo outer (uncoverRows (R := R) F C m) :=
  foldl_within _ (fun _ row _ => (coveredRows_inside hlo row).set) m

theorem preliminary_inWorkspace (m : Memory B) :
    preliminary A F R C (inWorkspace R C lo outer m) =
      inWorkspace R C lo outer (preliminary A F R C m) := by
  unfold preliminary
  split
  · next hle =>
    have hsub : (List.finRange R).foldl (subtractRowMin (C := C) A F) (inWorkspace R C lo outer m) =
        inWorkspace R C lo outer ((List.finRange R).foldl (subtractRowMin (C := C) A F) m) :=
      foldl_within _ (fun m row _ =>
        subtractRowMin_inWorkspace hlo row (row.pos.trans_le hle) m) m
    rw [hsub]
    exact foldl_within _ (fun m row _ => starRow_inWorkspace hlo row m) _
  · next hlt =>
    have hR : 0 < R := Nat.zero_lt_of_lt (Nat.not_le.mp hlt)
    have hsub : (List.finRange C).foldl (subtractColMin (R := R) A F) (inWorkspace R C lo outer m) =
        inWorkspace R C lo outer ((List.finRange C).foldl (subtractColMin (R := R) A F) m) :=
      foldl_within _ (fun m col _ => subtractColMin_inWorkspace hlo col hR m) m
    have hstar : (List.finRange C).foldl (starCol (R := R) A F)
        (inWorkspace R C lo outer ((List.finRange C).foldl (subtractColMin (R := R) A F) m)) =
        inWorkspace R C lo outer ((List.finRange C).foldl (starCol (R := R) A F)
          ((List.finRange C).foldl (subtractColMin (R := R) A F) m)) :=
      foldl_within _ (fun m col _ => starCol_inWorkspace hlo col m) _
    rw [hsub, hstar]
    exact uncoverRows_inWorkspace hlo _

/-! ## The steps -/

theorem step2a_inWorkspace (m : Memory B) :
    step2a F R C (inWorkspace R C lo outer m) = inWorkspace R C lo outer (step2a F R C m) := by
  refine foldl_within _ (fun m col _ => ?_) m
  simp only [get_starMatrix hlo]
  split
  · exact (coveredColumns_inside hlo col).set
  · rfl

omit hlo in
/-- A scan with other bytes outside of the workspace. -/
def Scan.map (f : Memory B → Memory B) : Scan R C B → Scan R C B
  | .augment m row col => .augment (f m) row col
  | .finished m zerosFound => .finished (f m) zerosFound

theorem scanColumns_inWorkspace (cols : List (Fin C)) (zerosFound : Bool) (m : Memory B) :
    scanColumns (R := R) A F cols zerosFound (inWorkspace R C lo outer m) =
      (scanColumns (R := R) A F cols zerosFound m).map (inWorkspace R C lo outer) := by
  induction cols generalizing zerosFound m with
  | nil => rfl
  | cons col cols ih =>
    unfold scanColumns
    simp only [get_coveredColumns hlo, get_coveredRows hlo, get_distMatrix hlo]
    split
    · exact ih zerosFound m
    · split
      · exact ih zerosFound m
      · next row _ =>
        have hprime : (primeMatrix F R C).set (inWorkspace R C lo outer m) (row + R * col) true =
            inWorkspace R C lo outer ((primeMatrix F R C).set m (row + R * col) true) :=
          (primeMatrix_inside hlo (index_lt row col)).set
        simp only [hprime, get_starMatrix hlo]
        split
        · rfl
        · next starCol _ =>
          rw [(coveredRows_inside hlo row).set, (coveredColumns_inside hlo starCol).set]
          exact ih true _

theorem flipPath_inWorkspace (fuel : Nat) (m : Memory B) {starCol : Nat} (hcol : starCol ≤ C) :
    flipPath F R C fuel (inWorkspace R C lo outer m) starCol =
      (flipPath F R C fuel m starCol).map (inWorkspace R C lo outer) := by
  induction fuel generalizing m starCol with
  | zero => rfl
  | succ fuel ih =>
    have hstar : ∀ row : Fin R,
        (starMatrix F R C).get (inWorkspace R C lo outer m) (row + R * starCol) =
          (starMatrix F R C).get m (row + R * starCol) := fun row =>
      (starMatrix_inside hlo (index_lt_of_le row hcol)).get
    unfold flipPath
    simp only [hstar]
    split
    · rfl
    · next starRow _ =>
      have hnew : (newStarMatrix F R C).set (inWorkspace R C lo outer m)
            (starRow + R * starCol) false =
          inWorkspace R C lo outer ((newStarMatrix F R C).set m (starRow + R * starCol) false) :=
        (newStarMatrix_inside hlo (index_lt_of_le starRow hcol)).set
      have hprime : ∀ (m : Memory B) (col : Fin C),
          (primeMatrix F R C).get (inWorkspace R C lo outer m) (starRow + R * col) =
            (primeMatrix F R C).get m (starRow + R * col) := fun m col =>
        (primeMatrix_inside hlo (index_lt starRow col)).get
      simp only [hnew, hprime]
      have hle : ∀ found : Option (Fin C), found.elim C Fin.val ≤ C := by
        intro found
        cases found with
        | none => exact Nat.le_refl C
        | some col => exact col.isLt.le
      rw [(newStarMatrix_inside hlo (index_lt_of_le starRow (hle _))).set]
      exact ih _ (hle _)

theorem copyStars_inWorkspace (m : Memory B) :
    copyStars F R C (inWorkspace R C lo outer m) =
      inWorkspace R C lo outer (copyStars F R C m) := by
  refine foldl_within _ (fun m n _ => ?_) m
  have hn : n.val < R * C + R := n.isLt.trans_le (Nat.le_add_right _ _)
  rw [(starMatrix_inside hlo hn).get, (newStarMatrix_inside hlo hn).set]

theorem useNewStars_inWorkspace (m : Memory B) :
    useNewStars F R C (inWorkspace R C lo outer m) =
      inWorkspace R C lo outer (useNewStars F R C m) := by
  refine foldl_within _ (fun m n _ => ?_) m
  have hn : n.val < R * C + R := n.isLt.trans_le (Nat.le_add_right _ _)
  dsimp only
  rw [(primeMatrix_inside hlo n.isLt).set, (newStarMatrix_inside hlo hn).get,
    (starMatrix_inside hlo hn).set]

theorem step4_inWorkspace (fuel : Nat) (m : Memory B) (row : Fin R) (col : Fin C) :
    step4 F fuel (inWorkspace R C lo outer m) row col =
      (step4 F fuel m row col).map (inWorkspace R C lo outer) := by
  unfold step4
  simp only [copyStars_inWorkspace hlo,
    (newStarMatrix_inside hlo (index_lt_of_le row col.isLt.le)).set,
    flipPath_inWorkspace hlo fuel _ col.isLt.le, Option.map_map]
  congr 1
  funext m
  simp only [Function.comp_apply, useNewStars_inWorkspace hlo, uncoverRows_inWorkspace hlo]

theorem smallestUncovered_inWorkspace (dblMax : (Fin R → Fin C → K) → K) (m : Memory B) :
    smallestUncovered A F dblMax (inWorkspace R C lo outer m) = smallestUncovered A F dblMax m := by
  unfold smallestUncovered
  simp only [get_distMatrix hlo, get_coveredColumns hlo, get_coveredRows hlo]

theorem addToRows_inWorkspace (h : K) (m : Memory B) :
    addToRows A F R C h (inWorkspace R C lo outer m) =
      inWorkspace R C lo outer (addToRows A F R C h m) := by
  refine foldl_within _ (fun m row _ => ?_) m
  simp only [get_coveredRows hlo]
  split
  · refine foldl_within _ (fun m col _ => ?_) m
    rw [get_distMatrix hlo, set_distMatrix hlo]
  · rfl

theorem subtractFromColumns_inWorkspace (h : K) (m : Memory B) :
    subtractFromColumns A F R C h (inWorkspace R C lo outer m) =
      inWorkspace R C lo outer (subtractFromColumns A F R C h m) := by
  refine foldl_within _ (fun m col _ => ?_) m
  simp only [get_coveredColumns hlo]
  split
  · rfl
  · refine foldl_within _ (fun m row _ => ?_) m
    rw [get_distMatrix hlo, set_distMatrix hlo]

theorem step5_inWorkspace (dblMax : (Fin R → Fin C → K) → K) (m : Memory B) :
    step5 A F dblMax (inWorkspace R C lo outer m) =
      inWorkspace R C lo outer (step5 A F dblMax m) := by
  unfold step5
  simp only [smallestUncovered_inWorkspace hlo, addToRows_inWorkspace hlo,
    subtractFromColumns_inWorkspace hlo]

end Steps

/-! ## One call -/

/-- The assignment vector is above the matrix that came in. -/
theorem assignment_inside (hlo : lo ≤ 4 * (R * C)) (row : Fin R) :
    Inside R C lo (assignment F R C) row := by
  have hrow := row.isLt
  unfold Inside Pointer.after
  rw [assignment_base, getWorkspaceSize_eq]
  omega

theorem buildassignmentvector_inWorkspace (hlo : lo ≤ 4 * (R * C)) (m : Memory B) :
    buildassignmentvector F R C (inWorkspace R C lo outer m) =
      inWorkspace R C lo outer (buildassignmentvector F R C m) := by
  have hlo' : lo ≤ 4 * (R * C) + 4 * R := hlo.trans (Nat.le_add_right _ _)
  refine foldl_within _ (fun m row _ => ?_) m
  simp only [get_starMatrix hlo']
  split
  · exact (assignment_inside hlo row).set
  · rfl

/-- `call`, up to where the assignment vector is built. -/
def search (A : FloatOps K) (F : ByteFormat K B) (dblMax : (Fin R → Fin C → K) → K) (fuel : Nat) :
    Call R C × Memory B → Outcome (Call R C × Memory B) (Memory B)
  | (.step2b, m) =>
    if (List.finRange C).countP (fun col : Fin C => (coveredColumns F R C).get m col) =
        minDim R C then
      .halt m
    else .next (.step3, m)
  | s => call A F dblMax fuel s

variable {dblMax : (Fin R → Fin C → K) → K}

theorem call_eq_search (fuel : Nat) (s : Call R C × Memory B) :
    call A F dblMax fuel s = (search A F dblMax fuel s).map id (buildassignmentvector F R C) := by
  obtain ⟨c, m⟩ := s
  cases c with
  | step2a => rfl
  | step2b =>
    by_cases h : (List.finRange C).countP (fun col : Fin C => (coveredColumns F R C).get m col) =
        minDim R C
    · simp only [search, call, if_pos h, Outcome.map]
    · simp only [search, call, if_neg h, Outcome.map, id]
  | step3 =>
    unfold search call
    dsimp only
    cases scanColumns A F (List.finRange C) false m with
    | augment m row col => rfl
    | finished m zerosFound => cases zerosFound <;> rfl
  | step4 row col =>
    unfold search call
    dsimp only
    cases step4 F fuel m row col with
    | none => rfl
    | some m => rfl
  | step5 => rfl

/-- One call, with other bytes outside of the workspace. -/
theorem search_inWorkspace (hlo : lo ≤ 4 * (R * C) + 4 * R) (fuel : Nat) (outer : Memory B)
    (s : Call R C × Memory B) :
    search A F dblMax fuel (s.1, inWorkspace R C lo outer s.2) =
      (search A F dblMax fuel s).map (fun s => (s.1, inWorkspace R C lo outer s.2))
        (inWorkspace R C lo outer) := by
  obtain ⟨c, m⟩ := s
  cases c with
  | step2a =>
    rw [search, search, call, call, step2a_inWorkspace hlo]
    · rfl
    all_goals exact nofun
  | step2b =>
    simp only [search, get_coveredColumns hlo]
    split <;> rfl
  | step3 =>
    unfold search call
    simp only [scanColumns_inWorkspace hlo]
    cases scanColumns A F (List.finRange C) false m with
    | augment m row col => rfl
    | finished m zerosFound => cases zerosFound <;> rfl
  | step4 row col =>
    unfold search call
    simp only [step4_inWorkspace hlo]
    cases step4 F fuel m row col with
    | none => rfl
    | some m => rfl
  | step5 =>
    rw [search, search, call, call, step5_inWorkspace hlo]
    · rfl
    all_goals exact nofun

/-- The calls, with other bytes outside of the workspace. -/
theorem runMachine_search_inWorkspace (hlo : lo ≤ 4 * (R * C) + 4 * R) (fuel turns : Nat)
    (outer : Memory B) (c : Call R C) (m : Memory B) :
    runMachine (search A F dblMax fuel) turns (c, inWorkspace R C lo outer m) =
      (runMachine (search A F dblMax fuel) turns (c, m)).map (inWorkspace R C lo outer) :=
  runMachine_map (search_inWorkspace hlo fuel outer) turns (c, m)

theorem runMachine_call (fuel turns : Nat) (s : Call R C × Memory B) :
    runMachine (call A F dblMax fuel) turns s =
      (runMachine (search A F dblMax fuel) turns s).map (buildassignmentvector F R C) :=
  runMachine_map (f := id) (call_eq_search fuel) turns s

end CambriconGst.Hungarian.Buffer
