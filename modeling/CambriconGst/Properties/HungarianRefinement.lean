import CambriconGst.Lib.FinLoop
import CambriconGst.Properties.HungarianLocality

/-!
# The workspace holds what the algorithm computes

In exact arithmetic the program of `Easytrack/HungarianWorkspace.lean` does to its bytes what the
algorithm of `Easytrack/Hungarian.lean` does to its matrices: `arrays` of the memory after an
operation is the operation on `arrays` of the memory before.

* `preliminary_arrays`: the preliminary steps
* `search_next`: one call
* `runMachine_search`: the calls, up to the assignment vector
-/

namespace CambriconGst.Hungarian

open Lib

variable {K : Type} {R C : Nat}

/-! ## Loops over the working matrix -/

namespace Workspace

/-- Change an element of the working matrix. -/
def mapEntry (w : Workspace R C K) (row : Fin R) (col : Fin C) (g : K → K) : Workspace R C K :=
  { w with distMatrix := setEntry w.distMatrix row col (g (w.distMatrix row col)) }

/-- Change a row of the working matrix. -/
def mapRow (w : Workspace R C K) (row : Fin R) (g : K → K) : Workspace R C K :=
  { w with distMatrix := Function.update w.distMatrix row fun col => g (w.distMatrix row col) }

/-- Change a column of the working matrix. -/
def mapCol (w : Workspace R C K) (col : Fin C) (g : K → K) : Workspace R C K :=
  { w with distMatrix := fun r c => if c = col then g (w.distMatrix r c) else w.distMatrix r c }

/-- A loop that only changes the working matrix. -/
theorem foldl_distMatrix {ι : Type*} {f : Workspace R C K → ι → Workspace R C K} {is : List ι}
    {w : Workspace R C K} {g : (Fin R → Fin C → K) → ι → Fin R → Fin C → K}
    (h : ∀ d i, f { w with distMatrix := d } i = { w with distMatrix := g d i }) :
    is.foldl f w = { w with distMatrix := is.foldl g w.distMatrix } :=
  List.foldl_hom (fun d => { w with distMatrix := d }) h

/-- A loop that only changes which rows are covered. -/
theorem foldl_coveredRows {ι : Type*} {f : Workspace R C K → ι → Workspace R C K} {is : List ι}
    {w : Workspace R C K} {g : (Fin R → Bool) → ι → Fin R → Bool}
    (h : ∀ d i, f { w with coveredRows := d } i = { w with coveredRows := g d i }) :
    is.foldl f w = { w with coveredRows := is.foldl g w.coveredRows } :=
  List.foldl_hom (fun d => { w with coveredRows := d }) h

/-- A loop that only changes which columns are covered. -/
theorem foldl_coveredColumns {ι : Type*} {f : Workspace R C K → ι → Workspace R C K} {is : List ι}
    {w : Workspace R C K} {g : (Fin C → Bool) → ι → Fin C → Bool}
    (h : ∀ d i, f { w with coveredColumns := d } i = { w with coveredColumns := g d i }) :
    is.foldl f w = { w with coveredColumns := is.foldl g w.coveredColumns } :=
  List.foldl_hom (fun d => { w with coveredColumns := d }) h

/-- A loop over the elements of a row. -/
theorem foldl_mapEntry_row (w : Workspace R C K) (row : Fin R) (g : K → K) :
    (List.finRange C).foldl (fun w col => w.mapEntry row col g) w = w.mapRow row g := by
  rw [foldl_distMatrix (g := fun d col => setEntry d row col (g (d row col))) fun _ _ => rfl]
  refine congrArg (fun d => { w with distMatrix := d }) (funext₂ fun r c => ?_)
  have hstep : ∀ (d : Fin R → Fin C → K) col c, setEntry d row col (g (d row col)) r c =
      if c = col then if r = row then g (d r col) else d r col else d r c := by
    intro d col c
    rw [setEntry_apply]
    by_cases hr : r = row
    · subst hr
      by_cases hc : c = col
      · simp [hc]
      · simp [hc]
    · by_cases hc : c = col
      · simp [hr, hc]
      · simp [hr, hc]
  refine (foldl_finRange_parts (fun d c => d r c) (G := fun _ x => if r = row then g x else x)
    hstep w.distMatrix c).trans ?_
  rw [Function.update_apply]
  by_cases hr : r = row
  · simp [hr]
  · simp [hr]

/-- A loop over the elements of a column. -/
theorem foldl_mapEntry_col (w : Workspace R C K) (col : Fin C) (g : K → K) :
    (List.finRange R).foldl (fun w row => w.mapEntry row col g) w = w.mapCol col g := by
  rw [foldl_distMatrix (g := fun d row => setEntry d row col (g (d row col))) fun _ _ => rfl]
  refine congrArg (fun d => { w with distMatrix := d }) (funext₂ fun r c => ?_)
  have hstep : ∀ (d : Fin R → Fin C → K) row r, setEntry d row col (g (d row col)) r c =
      if r = row then if c = col then g (d row c) else d row c else d r c := by
    intro d row r
    rw [setEntry_apply]
    by_cases hr : r = row
    · by_cases hc : c = col
      · simp [hr, hc]
      · simp [hr, hc]
    · simp [hr]
  exact foldl_finRange_parts (fun d r => d r c) (G := fun _ x => if c = col then g x else x)
    hstep w.distMatrix r

/-- A loop over the rows, each changed by what it holds. -/
theorem foldl_rows {f : Workspace R C K → Fin R → Workspace R C K}
    {G : (Fin R → Bool) → Fin R → (Fin C → K) → Fin C → K}
    (h : ∀ w row, f w row = { w with
      distMatrix := Function.update w.distMatrix row (G w.coveredRows row (w.distMatrix row)) })
    (w : Workspace R C K) : (List.finRange R).foldl f w =
      { w with distMatrix := fun row => G w.coveredRows row (w.distMatrix row) } := by
  rw [foldl_distMatrix (g := fun d row => Function.update d row (G w.coveredRows row (d row)))
    fun d row => h { w with distMatrix := d } row]
  refine congrArg (fun d => { w with distMatrix := d }) (funext fun row => ?_)
  exact foldl_finRange_parts (fun d row => d row) (G := G w.coveredRows)
    (fun d row r => Function.update_apply d row _ r) w.distMatrix row

/-- A loop over the columns, each changed by what it holds. -/
theorem foldl_cols {f : Workspace R C K → Fin C → Workspace R C K}
    {G : (Fin C → Bool) → Fin C → (Fin R → K) → Fin R → K}
    (h : ∀ w col, f w col = { w with
      distMatrix := fun r c => if c = col then
        G w.coveredColumns col (fun r => w.distMatrix r col) r else w.distMatrix r c })
    (w : Workspace R C K) : (List.finRange C).foldl f w =
      { w with
        distMatrix := fun r c => G w.coveredColumns c (fun r => w.distMatrix r c) r } := by
  rw [foldl_distMatrix (g := fun d col r c =>
      if c = col then G w.coveredColumns col (fun r => d r col) r else d r c)
    fun d col => h { w with distMatrix := d } col]
  refine congrArg (fun d => { w with distMatrix := d }) (funext₂ fun r c => ?_)
  refine congrFun (foldl_finRange_parts (fun (d : Fin R → Fin C → K) c r => d r c)
    (G := G w.coveredColumns) (fun d col c => ?_) w.distMatrix c) r
  by_cases hc : c = col
  · simp [hc]
  · simp [hc]

end Workspace

namespace Buffer

variable {B : Type} {F : ByteFormat K B} {m : Memory B}

/-- A loop whose steps only change what the steps share. -/
theorem arrays_foldl {ι : Type*} {f : Memory B → ι → Memory B}
    {g : Workspace R C K → ι → Workspace R C K} (is : List ι)
    (h : ∀ m i, arrays F R C (f m i) = (arrays F R C m).mapWork fun w => g w i) (m : Memory B) :
    arrays F R C (is.foldl f m) = (arrays F R C m).mapWork fun w => is.foldl g w := by
  induction is generalizing m with
  | nil => rfl
  | cons i is ih =>
    rw [List.foldl_cons, ih, h]
    rfl

/-- Change an element of the working matrix by what is there. -/
theorem arrays_mapEntry (g : K → K) (m : Memory B) (row : Fin R) (col : Fin C) :
    arrays F R C ((distMatrix F R C).set m (row + R * col)
      (g ((distMatrix F R C).get m (row + R * col)))) =
      (arrays F R C m).mapWork fun w => w.mapEntry row col g := by
  rw [arrays_set_distMatrix]
  rfl

/-- A loop over the elements of a row. -/
theorem arrays_mapRow (g : K → K) (m : Memory B) (row : Fin R) :
    arrays F R C ((List.finRange C).foldl (fun m (col : Fin C) =>
      (distMatrix F R C).set m (row + R * col)
        (g ((distMatrix F R C).get m (row + R * col)))) m) =
      (arrays F R C m).mapWork fun w => w.mapRow row g := by
  rw [arrays_foldl (g := fun w col => w.mapEntry row col g) _
    fun m col => arrays_mapEntry g m row col]
  exact congrArg (fun w => { arrays F R C m with work := w })
    (Workspace.foldl_mapEntry_row _ row g)

/-- A loop over the elements of a column. -/
theorem arrays_mapCol (g : K → K) (m : Memory B) (col : Fin C) :
    arrays F R C ((List.finRange R).foldl (fun m (row : Fin R) =>
      (distMatrix F R C).set m (row + R * col)
        (g ((distMatrix F R C).get m (row + R * col)))) m) =
      (arrays F R C m).mapWork fun w => w.mapCol col g := by
  rw [arrays_foldl (g := fun w row => w.mapEntry row col g) _
    fun m row => arrays_mapEntry g m row col]
  exact congrArg (fun w => { arrays F R C m with work := w })
    (Workspace.foldl_mapEntry_col _ col g)

section Exact

variable [AddCommGroup K] [LinearOrder K]

/-! ## Preliminary steps -/

theorem rowMin_eq (hC : 0 < C) (row : Fin R) :
    rowMin (C := C) .exact F m row =
      Hungarian.rowMin (arrays F R C m).work.distMatrix hC row := by
  unfold rowMin Hungarian.rowMin
  have hfirst : (distMatrix F R C).get m row =
      (arrays F R C m).work.distMatrix row ⟨0, hC⟩ := by
    simp [arrays]
  rw [hfirst]
  congr 1
  funext minValue col
  exact if_congr decide_eq_true_iff rfl rfl

theorem subtractRowMin_arrays (hC : 0 < C) (m : Memory B) (row : Fin R) :
    arrays F R C (subtractRowMin (C := C) .exact F m row) =
      (arrays F R C m).mapWork fun w =>
        w.mapRow row fun x => x - Hungarian.rowMin w.distMatrix hC row := by
  refine (arrays_mapRow (· - rowMin (C := C) .exact F m row) m row).trans ?_
  rw [rowMin_eq hC]
  rfl

theorem colMin_eq (hR : 0 < R) (col : Fin C) :
    colMin (R := R) .exact F m col =
      Hungarian.colMin (arrays F R C m).work.distMatrix hR col := by
  unfold colMin Hungarian.colMin
  have hfirst : (distMatrix F R C).get m (R * col) =
      (arrays F R C m).work.distMatrix ⟨0, hR⟩ col := by
    simp [arrays]
  rw [hfirst]
  congr 1
  funext minValue row
  exact if_congr decide_eq_true_iff rfl rfl

theorem subtractColMin_arrays (hR : 0 < R) (m : Memory B) (col : Fin C) :
    arrays F R C (subtractColMin (R := R) .exact F m col) =
      (arrays F R C m).mapWork fun w =>
        w.mapCol col fun x => x - Hungarian.colMin w.distMatrix hR col := by
  refine (arrays_mapCol (· - colMin (R := R) .exact F m col) m col).trans ?_
  rw [colMin_eq hR]
  rfl

theorem starRow_arrays (m : Memory B) (row : Fin R) :
    arrays F R C (starRow (C := C) .exact F m row) =
      (arrays F R C m).mapWork fun w => Hungarian.starRow w row := by
  unfold starRow Hungarian.starRow Arrays.mapWork
  have hfind : ((List.finRange C).find? fun col : Fin C =>
        FloatOps.exact.isZero ((distMatrix F R C).get m (row + R * col)) &&
          !(coveredColumns F R C).get m col) =
      (List.finRange C).find? fun col =>
        decide ((arrays F R C m).work.distMatrix row col = 0) &&
          !(arrays F R C m).work.coveredColumns col := rfl
  dsimp only
  rw [hfind]
  cases (List.finRange C).find? fun col =>
      decide ((arrays F R C m).work.distMatrix row col = 0) &&
        !(arrays F R C m).work.coveredColumns col with
  | some col =>
    dsimp only
    rw [arrays_set_coveredColumns, arrays_set_starMatrix]
    rfl
  | none => rfl

theorem starCol_arrays (m : Memory B) (col : Fin C) :
    arrays F R C (starCol (R := R) .exact F m col) =
      (arrays F R C m).mapWork fun w => Hungarian.starCol w col := by
  unfold starCol Hungarian.starCol Arrays.mapWork
  have hfind : ((List.finRange R).find? fun row : Fin R =>
        FloatOps.exact.isZero ((distMatrix F R C).get m (row + R * col)) &&
          !(coveredRows F R C).get m row) =
      (List.finRange R).find? fun row =>
        decide ((arrays F R C m).work.distMatrix row col = 0) &&
          !(arrays F R C m).work.coveredRows row := rfl
  dsimp only
  rw [hfind]
  cases (List.finRange R).find? fun row =>
      decide ((arrays F R C m).work.distMatrix row col = 0) &&
        !(arrays F R C m).work.coveredRows row with
  | some row =>
    dsimp only
    rw [arrays_set_coveredRows, arrays_set_coveredColumns, arrays_set_starMatrix]
    rfl
  | none => rfl

omit [AddCommGroup K] [LinearOrder K] in
theorem uncoverRows_arrays (m : Memory B) :
    arrays F R C (uncoverRows (R := R) F C m) =
      (arrays F R C m).mapWork fun w => { w with coveredRows := fun _ => false } := by
  refine (arrays_foldl (g := fun w row =>
    { w with coveredRows := Function.update w.coveredRows row false }) _
    (fun m row => arrays_set_coveredRows) m).trans ?_
  refine congrArg (fun w => { arrays F R C m with work := w }) ?_
  refine (Workspace.foldl_coveredRows (g := fun d row => Function.update d row false)
    fun _ _ => rfl).trans ?_
  refine congrArg (fun d => { (arrays F R C m).work with coveredRows := d }) (funext fun row => ?_)
  exact foldl_finRange_parts (fun d row => d row) (G := fun _ _ => false)
    (fun d row r => Function.update_apply d row _ r) _ row

/-- **The preliminary steps.** -/
theorem preliminary_arrays {d : Fin R → Fin C → K} (hm : (arrays F R C m).work = cleared d) :
    (arrays F R C (preliminary .exact F R C m)).work = Hungarian.preliminary d := by
  unfold preliminary Hungarian.preliminary
  by_cases h : R ≤ C
  · rw [if_pos h, dif_pos h,
      arrays_foldl (g := Hungarian.starRow) _ fun m row => starRow_arrays m row]
    refine congrArg (fun w => (List.finRange R).foldl Hungarian.starRow w) ?_
    obtain rfl | hR := R.eq_zero_or_pos
    · exact hm.trans (congrArg cleared (funext fun row => row.elim0))
    have hC : 0 < C := hR.trans_le h
    rw [arrays_foldl
      (g := fun w row => w.mapRow row fun x => x - Hungarian.rowMin w.distMatrix hC row)
      _ fun m row => subtractRowMin_arrays hC m row]
    show (List.finRange R).foldl _ (arrays F R C m).work = _
    rw [hm]
    exact Workspace.foldl_rows
      (G := fun _ row x col => x col - Hungarian.rowMin (fun _ => x) hC row) (fun _ _ => rfl) _
  · have hR : 0 < R := Nat.zero_lt_of_lt (Nat.not_le.mp h)
    rw [if_neg h, dif_neg h, uncoverRows_arrays,
      arrays_foldl (g := Hungarian.starCol) _ fun m col => starCol_arrays m col,
      arrays_foldl
        (g := fun w col => w.mapCol col fun x => x - Hungarian.colMin w.distMatrix hR col)
        _ fun m col => subtractColMin_arrays hR m col]
    have hsub : (List.finRange C).foldl (fun w col =>
          w.mapCol col fun x => x - Hungarian.colMin w.distMatrix hR col) (cleared d) =
        cleared fun row col => d row col - Hungarian.colMin d hR col := by
      refine Workspace.foldl_cols
        (G := fun _ col x row => x row - Hungarian.colMin (fun r _ => x r) hR col)
        (fun w col => ?_) _
      refine congrArg (fun d => { w with distMatrix := d }) (funext₂ fun r c => ?_)
      by_cases hc : c = col
      · subst hc
        rfl
      · exact (if_neg hc).trans (if_neg hc).symm
    show (fun w => { w with coveredRows := fun _ => false }) ((List.finRange C).foldl
      Hungarian.starCol ((List.finRange C).foldl _ (arrays F R C m).work)) = _
    rw [hm, hsub]

/-! ## The steps -/

omit [AddCommGroup K] [LinearOrder K] in
theorem step2a_arrays (m : Memory B) :
    arrays F R C (step2a F R C m) = (arrays F R C m).mapWork Hungarian.step2a := by
  refine (arrays_foldl (g := fun w col =>
    if (List.finRange R).any fun row => w.starMatrix row col then
      { w with coveredColumns := Function.update w.coveredColumns col true }
    else w) _ (fun m col => ?_) m).trans ?_
  · have hany : ((List.finRange R).any fun row : Fin R =>
          (starMatrix F R C).get m (row + R * col)) =
        (List.finRange R).any fun row => (arrays F R C m).work.starMatrix row col := rfl
    unfold Arrays.mapWork
    rw [hany]
    dsimp only
    split
    · exact arrays_set_coveredColumns
    · rfl
  · refine congrArg (fun w => { arrays F R C m with work := w }) ?_
    refine (Workspace.foldl_coveredColumns (g := fun d col =>
      if (List.finRange R).any fun row => (arrays F R C m).work.starMatrix row col then
        Function.update d col true
      else d) fun d col => ?_).trans ?_
    · dsimp only
      split <;> rfl
    refine congrArg (fun d => { (arrays F R C m).work with coveredColumns := d })
      (funext fun col => ?_)
    refine (foldl_finRange_parts (fun (d : Fin C → Bool) col => d col) (G := fun col x =>
      if (List.finRange R).any fun row => (arrays F R C m).work.starMatrix row col then true else x)
      (fun d col c => ?_) _ col).trans ?_
    · by_cases hc : c = col
      · subst hc
        rw [if_pos rfl]
        split
        · rw [Function.update_self]
        · rfl
      · rw [if_neg hc]
        split
        · rw [Function.update_of_ne hc]
        · rfl
    · unfold starInCol
      rw [List.isSome_find?]
      cases (List.finRange R).any fun row => (arrays F R C m).work.starMatrix row col with
      | true => rw [if_pos rfl, Bool.or_true]
      | false => rw [if_neg Bool.false_ne_true, Bool.or_false]

/-- A scan of the workspace and one of what it holds. -/
def Scan.work (F : ByteFormat K B) : Scan R C B → Hungarian.Scan R C K
  | .augment m row col => .augment (arrays F R C m).work row col
  | .finished m zerosFound => .finished (arrays F R C m).work zerosFound

theorem scanColumns_work (cols : List (Fin C)) (zerosFound : Bool) (m : Memory B) :
    (scanColumns (R := R) .exact F cols zerosFound m).work F =
      Hungarian.scanColumns cols zerosFound (arrays F R C m).work := by
  induction cols generalizing zerosFound m with
  | nil => rfl
  | cons col cols ih =>
    have hcovered : (coveredColumns F R C).get m col =
        (arrays F R C m).work.coveredColumns col := rfl
    have hfind : ((List.finRange R).find? fun row : Fin R => !(coveredRows F R C).get m row &&
          FloatOps.exact.isZero ((distMatrix F R C).get m (row + R * col))) =
        (List.finRange R).find? fun row => !(arrays F R C m).work.coveredRows row &&
          decide ((arrays F R C m).work.distMatrix row col = 0) := rfl
    unfold scanColumns Hungarian.scanColumns
    rw [hcovered, hfind]
    split
    · exact ih zerosFound m
    cases (List.finRange R).find? fun row => !(arrays F R C m).work.coveredRows row &&
        decide ((arrays F R C m).work.distMatrix row col = 0) with
    | none => exact ih zerosFound m
    | some row =>
      dsimp only
      obtain ⟨m', hm'⟩ : ∃ m', m' = (primeMatrix F R C).set m (row + R * col) true := ⟨_, rfl⟩
      rw [← hm']
      have hprime : arrays F R C m' = (arrays F R C m).mapWork fun w =>
          { w with primeMatrix := setEntry w.primeMatrix row col true } :=
        hm' ▸ arrays_set_primeMatrix
      have hstar : ((List.finRange C).find? fun starCol : Fin C =>
          (starMatrix F R C).get m' (row + R * starCol)) =
            starInRow (arrays F R C m).work.starMatrix row := by
        have hwork : (arrays F R C m').work.starMatrix = (arrays F R C m).work.starMatrix := by
          rw [hprime]
          rfl
        rw [← hwork]
        rfl
      rw [hstar]
      cases starInRow (arrays F R C m).work.starMatrix row with
      | none =>
        show Hungarian.Scan.augment (arrays F R C m').work row col = _
        rw [hprime]
        rfl
      | some starCol =>
        dsimp only
        rw [ih, arrays_set_coveredColumns, arrays_set_coveredRows, hprime]
        rfl

omit [AddCommGroup K] [LinearOrder K] in
theorem arrays_set_newStar (m : Memory B) (n : Fin (R * C)) (v : Bool) :
    arrays F R C ((newStarMatrix F R C).set m n v) = arrays F R C m := by
  obtain ⟨row, col, hn⟩ := exists_index n.isLt
  rw [hn]
  exact arrays_set_newStarMatrix

omit [AddCommGroup K] [LinearOrder K] in
/-- An element of one sub-array after an assignment to another. -/
theorem get_set_other {V W : Type} {s t i j k k' : Nat} {p : Pointer V B s} {q : Pointer W B t}
    {a b : SubArray} (hab : a ≠ b) (hp : p.base = a.start F R C) (hk : p.after k = a.stop F R C)
    (hq : q.base = b.start F R C) (hk' : q.after k' = b.stop F R C) (hi : i < k) (hj : j < k')
    (v : V) : q.get (p.set m i v) j = q.get m j :=
  (Only.of_set hp hk hi).get_eq hab hq hk' hj

omit [AddCommGroup K] [LinearOrder K] in
theorem copyStars_arrays (m : Memory B) : arrays F R C (copyStars F R C m) = arrays F R C m := by
  unfold copyStars
  exact List.foldlRecOn (motive := fun m' => arrays F R C m' = arrays F R C m) _ _ rfl
    fun m' hm' n _ => (arrays_set_newStar m' n _).trans hm'

omit [AddCommGroup K] [LinearOrder K] in
theorem newStars_copyStars (m : Memory B) :
    newStars F R C (copyStars F R C m) = (arrays F R C m).work.starMatrix := by
  funext row col
  have hparts := foldl_finRange_parts (n := R * C)
    (fun m (n : Fin (R * C)) => ((starMatrix F R C).get m n, (newStarMatrix F R C).get m n))
    (G := fun _ x => (x.1, x.1)) (f := fun m (n : Fin (R * C)) =>
      (newStarMatrix F R C).set m n ((starMatrix F R C).get m n)) (fun m n k => ?_) m
    ⟨row + R * col, index_lt row col⟩
  · exact congrArg Prod.snd hparts
  · have hstar : (starMatrix F R C).get ((newStarMatrix F R C).set m n
        ((starMatrix F R C).get m n)) k = (starMatrix F R C).get m k :=
      get_set_other (F := F) (a := .newStarMatrix) (b := .starMatrix) nofun rfl rfl rfl rfl n.isLt
        k.isLt _
    dsimp only
    rw [hstar, Pointer.get_set]
    by_cases hk : k = n
    · subst hk
      rw [if_pos rfl, if_pos rfl]
    · rw [if_neg hk, if_neg (fun he => hk (Fin.ext he))]

omit [AddCommGroup K] [LinearOrder K] in
/-- The path that the algorithm flips is flipped. -/
theorem flipPath_newStars {n fuel : Nat} (hn : n ≤ fuel) {m : Memory B} {col : Fin C}
    {stars : Fin R → Fin C → Bool}
    (h : Hungarian.flipPath (arrays F R C m).work.starMatrix (arrays F R C m).work.primeMatrix n
      (newStars F R C m) col = some stars) :
    ∃ m', flipPath F R C fuel m col = some m' ∧ arrays F R C m' = arrays F R C m ∧
      newStars F R C m' = stars := by
  induction n generalizing fuel m col with
  | zero => cases h
  | succ n ih =>
    obtain ⟨fuel, rfl⟩ : ∃ k, fuel = k + 1 := Nat.exists_eq_succ_of_ne_zero (by omega)
    have hfind : ((List.finRange R).find? fun starRow : Fin R =>
          (starMatrix F R C).get m (starRow + R * col)) =
        starInCol (arrays F R C m).work.starMatrix col := rfl
    unfold Hungarian.flipPath at h
    unfold flipPath
    rw [hfind]
    cases hstar : starInCol (arrays F R C m).work.starMatrix col with
    | none =>
      rw [hstar] at h
      exact ⟨m, rfl, rfl, Option.some.inj h⟩
    | some starRow =>
      rw [hstar] at h
      dsimp only at h ⊢
      obtain ⟨m₁, hm₁⟩ : ∃ m₁, m₁ = (newStarMatrix F R C).set m (starRow + R * col) false :=
        ⟨_, rfl⟩
      have harrays : arrays F R C m₁ = arrays F R C m := hm₁ ▸ arrays_set_newStarMatrix
      have hprime : ((List.finRange C).find? fun primeCol : Fin C =>
            (primeMatrix F R C).get m₁ (starRow + R * primeCol)) =
          starInRow (arrays F R C m).work.primeMatrix starRow := by
        rw [← harrays]
        rfl
      rw [← hm₁, hprime]
      cases hcol : starInRow (arrays F R C m).work.primeMatrix starRow with
      | none =>
        rw [hcol] at h
        cases h
      | some primeCol =>
        rw [hcol] at h
        have harrays' : arrays F R C ((newStarMatrix F R C).set m₁ (starRow + R * primeCol) true) =
            arrays F R C m := arrays_set_newStarMatrix.trans harrays
        have hstars : newStars F R C ((newStarMatrix F R C).set m₁ (starRow + R * primeCol) true) =
            setEntry (setEntry (newStars F R C m) starRow col false) starRow primeCol true := by
          rw [newStars_set, hm₁, newStars_set]
        dsimp only at h
        rw [← hstars, ← harrays'] at h
        obtain ⟨m', hm', ha, hs⟩ := ih (Nat.le_of_succ_le_succ hn) h
        exact ⟨m', hm', ha.trans harrays', hs⟩

omit [AddCommGroup K] [LinearOrder K] in
theorem useNewStars_work (m : Memory B) : (arrays F R C (useNewStars F R C m)).work =
    { (arrays F R C m).work with
      starMatrix := newStars F R C m
      primeMatrix := fun _ _ => false } := by
  have hstep : ∀ (m : Memory B) (n : Fin (R * C)), ∃ star prime,
      (arrays F R C ((starMatrix F R C).set ((primeMatrix F R C).set m n false) n
        ((newStarMatrix F R C).get ((primeMatrix F R C).set m n false) n))).work =
          { (arrays F R C m).work with starMatrix := star, primeMatrix := prime } := by
    intro m n
    obtain ⟨row, col, hn⟩ := exists_index n.isLt
    rw [hn, arrays_set_starMatrix, arrays_set_primeMatrix]
    exact ⟨_, _, rfl⟩
  -- the loop writes to nothing but the stars and the primes
  have hrest : ∃ star prime, (arrays F R C (useNewStars F R C m)).work =
      { (arrays F R C m).work with starMatrix := star, primeMatrix := prime } := by
    unfold useNewStars
    refine List.foldlRecOn (motive := fun m' => ∃ star prime, (arrays F R C m').work =
      { (arrays F R C m).work with starMatrix := star, primeMatrix := prime }) _ _ ⟨_, _, rfl⟩
      fun m' hm' n _ => ?_
    obtain ⟨star, prime, hm'⟩ := hm'
    obtain ⟨star', prime', hn⟩ := hstep m' n
    exact ⟨star', prime', hn.trans (by rw [hm'])⟩
  -- what it leaves in each cell
  have hparts : ∀ n : Fin (R * C),
      ((newStarMatrix F R C).get (useNewStars F R C m) n,
        (starMatrix F R C).get (useNewStars F R C m) n,
        (primeMatrix F R C).get (useNewStars F R C m) n) =
      ((newStarMatrix F R C).get m n, (newStarMatrix F R C).get m n, false) := by
    intro n
    refine foldl_finRange_parts (fun m (n : Fin (R * C)) => ((newStarMatrix F R C).get m n,
      (starMatrix F R C).get m n, (primeMatrix F R C).get m n)) (G := fun _ x => (x.1, x.1, false))
      (fun m n k => ?_) m n
    obtain ⟨m₁, hm₁⟩ : ∃ m₁, m₁ = (primeMatrix F R C).set m n false := ⟨_, rfl⟩
    have hnew : ∀ k : Fin (R * C), (newStarMatrix F R C).get m₁ k = (newStarMatrix F R C).get m k :=
      fun k => hm₁ ▸ get_set_other (F := F) (a := .primeMatrix) (b := .newStarMatrix) nofun
        rfl rfl rfl rfl n.isLt k.isLt _
    have hstar : (starMatrix F R C).get m₁ k = (starMatrix F R C).get m k :=
      hm₁ ▸ get_set_other (F := F) (a := .primeMatrix) (b := .starMatrix) nofun
        rfl rfl rfl rfl n.isLt k.isLt _
    have hnew' : ∀ v, (newStarMatrix F R C).get ((starMatrix F R C).set m₁ n v) k =
        (newStarMatrix F R C).get m₁ k :=
      get_set_other (F := F) (a := .starMatrix) (b := .newStarMatrix) nofun
        rfl rfl rfl rfl n.isLt k.isLt
    have hprime : ∀ v, (primeMatrix F R C).get ((starMatrix F R C).set m₁ n v) k =
        (primeMatrix F R C).get m₁ k :=
      get_set_other (F := F) (a := .starMatrix) (b := .primeMatrix) nofun
        rfl rfl rfl rfl n.isLt k.isLt
    dsimp only
    rw [← hm₁, hnew', hprime, Pointer.get_set, hnew, hnew, hstar, hm₁, Pointer.get_set]
    by_cases hk : k = n
    · subst hk
      rw [if_pos rfl, if_pos rfl, if_pos rfl]
    · have hne : k.val ≠ n.val := fun he => hk (Fin.ext he)
      rw [if_neg hk, if_neg hne, if_neg hne]
  obtain ⟨star, prime, hwork⟩ := hrest
  rw [hwork]
  have hstar : star = newStars F R C m := by
    refine (congrArg Workspace.starMatrix hwork).symm.trans (funext₂ fun row col => ?_)
    exact congrArg (fun x => x.2.1) (hparts ⟨row + R * col, index_lt row col⟩)
  have hprime : prime = fun _ _ => false := by
    refine (congrArg Workspace.primeMatrix hwork).symm.trans (funext₂ fun row col => ?_)
    exact congrArg (fun x => x.2.2) (hparts ⟨row + R * col, index_lt row col⟩)
  rw [hstar, hprime]

omit [AddCommGroup K] [LinearOrder K] in
theorem step4_work {fuel : Nat} (hfuel : R + 1 ≤ fuel) {m : Memory B} {row : Fin R} {col : Fin C}
    {w : Workspace R C K} (h : Hungarian.step4 (arrays F R C m).work row col = some w) :
    ∃ m', step4 F fuel m row col = some m' ∧ (arrays F R C m').work = w := by
  obtain ⟨stars, hpath, rfl⟩ := Option.map_eq_some_iff.mp h
  obtain ⟨m₁, hm₁⟩ : ∃ m₁,
      m₁ = (newStarMatrix F R C).set (copyStars F R C m) (row + R * col) true := ⟨_, rfl⟩
  have harrays : arrays F R C m₁ = arrays F R C m :=
    hm₁ ▸ arrays_set_newStarMatrix.trans (copyStars_arrays m)
  have hstars : newStars F R C m₁ = setEntry (arrays F R C m).work.starMatrix row col true := by
    rw [hm₁, newStars_set, newStars_copyStars]
  rw [← hstars, ← harrays] at hpath
  obtain ⟨m₂, hflip, ha, hs⟩ := flipPath_newStars hfuel hpath
  refine ⟨uncoverRows (R := R) F C (useNewStars F R C m₂), ?_, ?_⟩
  · unfold step4
    dsimp only
    rw [← hm₁, hflip]
    rfl
  · rw [uncoverRows_arrays]
    show { (arrays F R C (useNewStars F R C m₂)).work with coveredRows := fun _ => false } = _
    rw [useNewStars_work, ha, harrays, hs]

theorem smallestUncovered_eq (dblMax : (Fin R → Fin C → K) → K) (m : Memory B) :
    smallestUncovered .exact F dblMax m =
      Hungarian.smallestUncovered dblMax (arrays F R C m).work := by
  unfold smallestUncovered Hungarian.smallestUncovered
  refine List.foldl_ext _ _ _ fun h row _ => ?_
  refine if_congr Iff.rfl rfl (List.foldl_ext _ _ _ fun h col _ => ?_)
  exact if_congr Iff.rfl rfl (if_congr decide_eq_true_iff rfl rfl)

theorem addToRows_arrays (h : K) (m : Memory B) :
    arrays F R C (addToRows .exact F R C h m) = (arrays F R C m).mapWork fun w =>
      { w with distMatrix := fun row col =>
          if w.coveredRows row then w.distMatrix row col + h else w.distMatrix row col } := by
  refine (arrays_foldl (g := fun w row => if w.coveredRows row then w.mapRow row (· + h) else w) _
    (fun m row => ?_) m).trans ?_
  · have hcovered : (coveredRows F R C).get m row = (arrays F R C m).work.coveredRows row := rfl
    rw [hcovered]
    unfold Arrays.mapWork
    dsimp only
    split
    · exact arrays_mapRow (· + h) m row
    · rfl
  · refine congrArg (fun w => { arrays F R C m with work := w }) ?_
    refine (Workspace.foldl_rows (G := fun covered row x col =>
      if covered row then x col + h else x col) (fun w row => ?_) _).trans rfl
    cases hrow : w.coveredRows row with
    | true => rfl
    | false =>
      simp only [Bool.false_eq_true, if_false]
      rw [Function.update_eq_self]

theorem subtractFromColumns_arrays (h : K) (m : Memory B) :
    arrays F R C (subtractFromColumns .exact F R C h m) = (arrays F R C m).mapWork fun w =>
      { w with distMatrix := fun row col =>
          if w.coveredColumns col then w.distMatrix row col else w.distMatrix row col - h } := by
  refine (arrays_foldl
    (g := fun w col => if w.coveredColumns col then w else w.mapCol col (· - h)) _
    (fun m col => ?_) m).trans ?_
  · have hcovered : (coveredColumns F R C).get m col =
        (arrays F R C m).work.coveredColumns col := rfl
    rw [hcovered]
    unfold Arrays.mapWork
    dsimp only
    split
    · rfl
    · exact arrays_mapCol (· - h) m col
  · refine congrArg (fun w => { arrays F R C m with work := w }) ?_
    refine (Workspace.foldl_cols (G := fun covered col x row =>
      if covered col then x row else x row - h) (fun w col => ?_) _).trans rfl
    cases hcol : w.coveredColumns col with
    | true =>
      simp only [if_true]
      refine Workspace.ext (funext₂ fun r c => ?_) rfl rfl rfl rfl
      by_cases hc : c = col
      · subst hc
        exact (if_pos rfl).symm
      · exact (if_neg hc).symm
    | false =>
      simp only [Bool.false_eq_true, if_false]
      refine congrArg (fun d => { w with distMatrix := d }) (funext₂ fun r c => ?_)
      by_cases hc : c = col
      · subst hc
        rfl
      · exact (if_neg hc).trans (if_neg hc).symm

theorem step5_work (dblMax : (Fin R → Fin C → K) → K) (m : Memory B) :
    (arrays F R C (step5 .exact F dblMax m)).work =
      Hungarian.step5 dblMax (arrays F R C m).work := by
  unfold step5 Hungarian.step5
  dsimp only
  rw [smallestUncovered_eq, subtractFromColumns_arrays, addToRows_arrays]
  rfl

/-! ## The calls -/

variable {dblMax : (Fin R → Fin C → K) → K} {fuel : Nat}

theorem search_halt {s : Call R C × Workspace R C K} {s' : Call R C × Memory B}
    {r : Fin R → Option (Fin C)} (hs : s.1 = s'.1 ∧ (arrays F R C s'.2).work = s.2)
    (h : Hungarian.call dblMax s = .halt r) : ∃ m, search .exact F dblMax fuel s' = .halt m ∧
      r = Hungarian.buildassignmentvector (arrays F R C m).work.starMatrix := by
  obtain ⟨c, w⟩ := s
  obtain ⟨c', m⟩ := s'
  dsimp only at hs
  obtain ⟨rfl, rfl⟩ := hs
  have hcount : ((List.finRange C).countP fun col : Fin C => (coveredColumns F R C).get m col) =
      (List.finRange C).countP (arrays F R C m).work.coveredColumns := rfl
  unfold Hungarian.call at h
  cases c with
  | step2b =>
    unfold search
    dsimp only at h ⊢
    rw [hcount]
    split at h
    · next hmin =>
      obtain rfl := Outcome.halt.inj h
      exact ⟨m, if_pos hmin, rfl⟩
    · cases h
  | step2a => cases h
  | step3 =>
    dsimp only at h
    split at h <;> cases h
  | step4 row col =>
    dsimp only at h
    split at h <;> cases h
  | step5 => cases h

/-- **One call.** -/
theorem search_next (hfuel : R + 1 ≤ fuel) {s t : Call R C × Workspace R C K}
    {s' : Call R C × Memory B} (hs : s.1 = s'.1 ∧ (arrays F R C s'.2).work = s.2)
    (h : Hungarian.call dblMax s = .next t) : ∃ t', search .exact F dblMax fuel s' = .next t' ∧
      t.1 = t'.1 ∧ (arrays F R C t'.2).work = t.2 := by
  obtain ⟨c, w⟩ := s
  obtain ⟨c', m⟩ := s'
  dsimp only at hs
  obtain ⟨rfl, rfl⟩ := hs
  have hcount : ((List.finRange C).countP fun col : Fin C => (coveredColumns F R C).get m col) =
      (List.finRange C).countP (arrays F R C m).work.coveredColumns := rfl
  unfold Hungarian.call at h
  -- one case for each step that a call can be at; the memory takes the same branch
  cases c with
  | step2a =>
    obtain rfl := Outcome.next.inj h
    exact ⟨_, rfl, rfl, congrArg Arrays.work (step2a_arrays m)⟩
  | step2b =>
    unfold search
    dsimp only at h ⊢
    rw [hcount]
    split at h
    · cases h
    · next hmin =>
      obtain rfl := Outcome.next.inj h
      exact ⟨_, if_neg hmin, rfl, rfl⟩
  | step3 =>
    have hscan := scanColumns_work (F := F) (R := R) (List.finRange C) false m
    unfold search call
    dsimp only at h ⊢
    rw [← hscan] at h
    cases hm : scanColumns .exact F (List.finRange C) false m with
    | augment m' row col =>
      rw [hm] at h
      obtain rfl := Outcome.next.inj h
      exact ⟨_, rfl, rfl, rfl⟩
    | finished m' zerosFound =>
      rw [hm] at h
      cases zerosFound with
      | true =>
        obtain rfl := Outcome.next.inj h
        exact ⟨_, rfl, rfl, rfl⟩
      | false =>
        obtain rfl := Outcome.next.inj h
        exact ⟨_, rfl, rfl, rfl⟩
  | step4 row col =>
    dsimp only at h
    cases hw : Hungarian.step4 (arrays F R C m).work row col with
    | none =>
      rw [hw] at h
      cases h
    | some w' =>
      rw [hw] at h
      obtain rfl := Outcome.next.inj h
      obtain ⟨m', hm', hwork⟩ := step4_work (F := F) hfuel hw
      refine ⟨(.step2a, m'), ?_, rfl, hwork⟩
      unfold search call
      dsimp only
      rw [hm']
  | step5 =>
    obtain rfl := Outcome.next.inj h
    exact ⟨_, rfl, rfl, step5_work dblMax m⟩

/-- **The calls.** What the algorithm returns are the stars that the search ends with. -/
theorem runMachine_search (hfuel : R + 1 ≤ fuel) {turns : Nat} {c : Call R C} {m : Memory B}
    {r : Fin R → Option (Fin C)}
    (h : runMachine (Hungarian.call dblMax) turns (c, (arrays F R C m).work) = some r) :
    ∃ m', runMachine (search .exact F dblMax fuel) turns (c, m) = some m' ∧
      r = Hungarian.buildassignmentvector (arrays F R C m').work.starMatrix :=
  runMachine_simulates
    (T := fun s s' => s.1 = s'.1 ∧ (arrays F R C s'.2).work = s.2)
    (Q := fun r m' => r = Hungarian.buildassignmentvector (arrays F R C m').work.starMatrix)
    (fun _ _ _ => search_halt) (fun _ _ _ => search_next hfuel) ⟨rfl, rfl⟩ h

end Exact

end Buffer

end CambriconGst.Hungarian
