import CambriconGst.Easytrack.HungarianWorkspace

/-!
# The sub-arrays of the workspace

Where the sub-arrays of `Easytrack/HungarianWorkspace.lean` lie, and what an assignment to an
element of one does to all of them.

* `disjoint`: no two sub-arrays have a byte in common
* `Only`: a change of one sub-array, which the others do not see
-/

namespace CambriconGst.Hungarian.Buffer

open Lib

variable {K B : Type} {F : ByteFormat K B} {R C : Nat}

/-! ## Addresses -/

@[simp]
theorem assignment_base : (assignment F R C).base = 4 * (R * C) := by
  simp [assignment, distMatrixIn, Pointer.after]

@[simp]
theorem distMatrix_base : (distMatrix F R C).base = 4 * (R * C) + 4 * R := by
  simp [distMatrix, Pointer.after]

@[simp]
theorem starMatrix_base : (starMatrix F R C).base = 8 * (R * C) + 4 * R := by
  simp only [starMatrix, Pointer.after, distMatrix_base]
  omega

@[simp]
theorem primeMatrix_base : (primeMatrix F R C).base = 9 * (R * C) + 4 * R := by
  simp only [primeMatrix, Pointer.after, starMatrix_base]
  omega

@[simp]
theorem newStarMatrix_base : (newStarMatrix F R C).base = 10 * (R * C) + 4 * R := by
  simp only [newStarMatrix, Pointer.after, primeMatrix_base]
  omega

@[simp]
theorem coveredColumns_base : (coveredColumns F R C).base = 11 * (R * C) + 4 * R := by
  simp only [coveredColumns, Pointer.after, newStarMatrix_base]
  omega

@[simp]
theorem coveredRows_base : (coveredRows F R C).base = 11 * (R * C) + 4 * R + C := by
  simp only [coveredRows, Pointer.after, coveredColumns_base]
  omega

theorem getWorkspaceSize_eq (R C : Nat) : getWorkspaceSize R C = 11 * (R * C) + 5 * R + C := by
  rw [getWorkspaceSize, Nat.mul_comm C R]
  omega

theorem stop_le (F : ByteFormat K B) (R C : Nat) (a : SubArray) :
    a.stop F R C ≤ getWorkspaceSize R C := by
  cases a <;>
    simp only [SubArray.stop, distMatrixIn, Pointer.after, assignment_base, distMatrix_base,
      starMatrix_base, primeMatrix_base, newStarMatrix_base, coveredColumns_base, coveredRows_base,
      getWorkspaceSize_eq] <;>
    omega

/-- **No two sub-arrays have a byte in common.** -/
theorem disjoint (F : ByteFormat K B) (R C : Nat) {a b : SubArray} (h : a ≠ b) :
    a.stop F R C ≤ b.start F R C ∨ b.stop F R C ≤ a.start F R C := by
  cases a <;> cases b <;> first
    | exact absurd rfl h
    | simp only [SubArray.start, SubArray.stop, distMatrixIn, Pointer.after, assignment_base,
        distMatrix_base, starMatrix_base, primeMatrix_base, newStarMatrix_base,
        coveredColumns_base, coveredRows_base]
      omega

/-! ## Indices -/

theorem index_lt (row : Fin R) (col : Fin C) : row + R * col < R * C := by
  have hcol : R * (col + 1) ≤ R * C := Nat.mul_le_mul_left R col.isLt
  rw [Nat.mul_succ] at hcol
  have := row.isLt
  omega

theorem index_inj {row row' : Fin R} {col col' : Nat} :
    (row + R * col : Nat) = row' + R * col' ↔ row = row' ∧ col = col' := by
  constructor
  · intro h
    have hrow : row = row' := by
      have := congrArg (· % R) h
      simp only [Nat.add_mul_mod_self_left, Nat.mod_eq_of_lt row.isLt,
        Nat.mod_eq_of_lt row'.isLt] at this
      exact Fin.ext this
    subst hrow
    exact ⟨rfl, Nat.eq_of_mul_eq_mul_left row.pos (Nat.add_left_cancel h)⟩
  · rintro ⟨rfl, rfl⟩
    rfl

/-- Each index is that of an element. -/
theorem exists_index {k : Nat} (h : k < R * C) :
    ∃ (row : Fin R) (col : Fin C), k = row + R * col := by
  have hR : 0 < R := Nat.pos_of_mul_pos_right (Nat.zero_lt_of_lt h)
  refine ⟨⟨k % R, Nat.mod_lt _ hR⟩, ⟨k / R, Nat.div_lt_of_lt_mul h⟩, ?_⟩
  exact (Nat.mod_add_div k R).symm

/-- A matrix after an assignment to an element. -/
theorem get_set_entry {V : Type} {s : Nat} (p : Pointer V B s) (m : Memory B) (row : Fin R)
    (col : Fin C) (v : V) :
    (fun (r : Fin R) (c : Fin C) => p.get (p.set m (row + R * col) v) (r + R * c)) =
      setEntry (fun r c => p.get m (r + R * c)) row col v := by
  funext r c
  simp only [setEntry_apply, Pointer.get_set, index_inj, Fin.val_inj]

/-- A vector after an assignment to an element. -/
theorem get_set_vector {V : Type} {s n : Nat} (p : Pointer V B s) (m : Memory B) (i : Fin n)
    (v : V) :
    (fun j : Fin n => p.get (p.set m i v) j) =
      Function.update (fun j : Fin n => p.get m j) i v := by
  funext j
  simp only [Function.update_apply, Pointer.get_set, Fin.val_inj]

/-! ## What the sub-arrays hold -/

attribute [ext] Workspace

/-- The sub-arrays the steps do not only use for themselves. -/
@[ext]
structure Arrays (R C : Nat) (K : Type) where
  distMatrixIn : Fin R → Fin C → K
  assignment : Fin R → BitVec 32
  work : Workspace R C K

variable (F R C) in
def arrays (m : Memory B) : Arrays R C K where
  distMatrixIn row col := (distMatrixIn F).get m (row + R * col)
  assignment row := (assignment F R C).get m row
  work := {
    distMatrix := fun row col => (distMatrix F R C).get m (row + R * col)
    starMatrix := fun row col => (starMatrix F R C).get m (row + R * col)
    primeMatrix := fun row col => (primeMatrix F R C).get m (row + R * col)
    coveredColumns := fun col => (coveredColumns F R C).get m col
    coveredRows := fun row => (coveredRows F R C).get m row }

variable (F R C) in
def newStars (m : Memory B) (row : Fin R) (col : Fin C) : Bool :=
  (newStarMatrix F R C).get m (row + R * col)

/-- A change of what the steps share. -/
def Arrays.mapWork (f : Workspace R C K → Workspace R C K) (a : Arrays R C K) : Arrays R C K :=
  { a with work := f a.work }

/-- Only this sub-array differs. -/
def Only (F : ByteFormat K B) (R C : Nat) (a : SubArray) (m m' : Memory B) : Prop :=
  ∀ x, x < a.start F R C ∨ a.stop F R C ≤ x → m'.byte x = m.byte x

namespace Only

variable {a : SubArray} {m m' : Memory B}

theorem of_set {V : Type} {s i k : Nat} {p : Pointer V B s} {v : V}
    (hp : p.base = a.start F R C) (hk : p.after k = a.stop F R C) (hi : i < k) :
    Only F R C a m (p.set m i v) := by
  intro x hx
  refine Pointer.set_of_outside ?_
  have hlo : p.base ≤ p.after i := Pointer.base_le_after
  have hhi := p.after_le_after (Nat.succ_le_of_lt hi)
  rw [Pointer.after_succ] at hhi
  omega

/-- Another sub-array is as it was. -/
theorem get_eq {V : Type} {s i k : Nat} {p : Pointer V B s} {b : SubArray}
    (h : Only F R C a m m') (hne : a ≠ b) (hp : p.base = b.start F R C)
    (hk : p.after k = b.stop F R C) (hi : i < k) : p.get m' i = p.get m i := by
  refine Pointer.get_congr fun x hlo hhi => h x ?_
  have hbase : p.base ≤ p.after i := Pointer.base_le_after
  have hstop := p.after_le_after (Nat.succ_le_of_lt hi)
  rw [Pointer.after_succ] at hstop
  rcases disjoint F R C hne with hd | hd
  · exact .inr (by omega)
  · exact .inl (by omega)

theorem distMatrixIn (h : Only F R C a m m') (hne : a ≠ .distMatrixIn) :
    (arrays F R C m').distMatrixIn = (arrays F R C m).distMatrixIn := by
  funext row col
  exact h.get_eq (k := R * C) hne rfl rfl (index_lt row col)

theorem assignment (h : Only F R C a m m') (hne : a ≠ .assignment) :
    (arrays F R C m').assignment = (arrays F R C m).assignment := by
  funext row
  exact h.get_eq (k := R) hne rfl rfl row.isLt

theorem distMatrix (h : Only F R C a m m') (hne : a ≠ .distMatrix) :
    (arrays F R C m').work.distMatrix = (arrays F R C m).work.distMatrix := by
  funext row col
  exact h.get_eq (k := R * C) hne rfl rfl (index_lt row col)

theorem starMatrix (h : Only F R C a m m') (hne : a ≠ .starMatrix) :
    (arrays F R C m').work.starMatrix = (arrays F R C m).work.starMatrix := by
  funext row col
  exact h.get_eq (k := R * C) hne rfl rfl (index_lt row col)

theorem primeMatrix (h : Only F R C a m m') (hne : a ≠ .primeMatrix) :
    (arrays F R C m').work.primeMatrix = (arrays F R C m).work.primeMatrix := by
  funext row col
  exact h.get_eq (k := R * C) hne rfl rfl (index_lt row col)

theorem coveredColumns (h : Only F R C a m m') (hne : a ≠ .coveredColumns) :
    (arrays F R C m').work.coveredColumns = (arrays F R C m).work.coveredColumns := by
  funext col
  exact h.get_eq (k := C) hne rfl rfl col.isLt

theorem coveredRows (h : Only F R C a m m') (hne : a ≠ .coveredRows) :
    (arrays F R C m').work.coveredRows = (arrays F R C m).work.coveredRows := by
  funext row
  exact h.get_eq (k := R) hne rfl rfl row.isLt

theorem newStars (h : Only F R C a m m') (hne : a ≠ .newStarMatrix) :
    Buffer.newStars F R C m' = Buffer.newStars F R C m := by
  funext row col
  exact h.get_eq (k := R * C) hne rfl rfl (index_lt row col)

end Only

/-! ## Assignments to an element -/

section Set

variable {m : Memory B} {row : Fin R} {col : Fin C}

theorem arrays_set_assignment {v : BitVec 32} :
    arrays F R C ((assignment F R C).set m row v) =
      { arrays F R C m with assignment := Function.update (arrays F R C m).assignment row v } := by
  have h : Only F R C .assignment m ((assignment F R C).set m row v) := .of_set rfl rfl row.isLt
  exact Arrays.ext (h.distMatrixIn nofun) (get_set_vector _ m row v)
    (Workspace.ext (h.distMatrix nofun) (h.starMatrix nofun) (h.primeMatrix nofun)
      (h.coveredColumns nofun) (h.coveredRows nofun))

theorem arrays_set_distMatrix {v : K} :
    arrays F R C ((distMatrix F R C).set m (row + R * col) v) =
      (arrays F R C m).mapWork fun w =>
        { w with distMatrix := setEntry w.distMatrix row col v } := by
  have h : Only F R C .distMatrix m ((distMatrix F R C).set m (row + R * col) v) :=
    .of_set rfl rfl (index_lt row col)
  exact Arrays.ext (h.distMatrixIn nofun) (h.assignment nofun)
    (Workspace.ext (get_set_entry _ m row col v) (h.starMatrix nofun) (h.primeMatrix nofun)
      (h.coveredColumns nofun) (h.coveredRows nofun))

theorem arrays_set_starMatrix {v : Bool} :
    arrays F R C ((starMatrix F R C).set m (row + R * col) v) =
      (arrays F R C m).mapWork fun w =>
        { w with starMatrix := setEntry w.starMatrix row col v } := by
  have h : Only F R C .starMatrix m ((starMatrix F R C).set m (row + R * col) v) :=
    .of_set rfl rfl (index_lt row col)
  exact Arrays.ext (h.distMatrixIn nofun) (h.assignment nofun)
    (Workspace.ext (h.distMatrix nofun) (get_set_entry _ m row col v) (h.primeMatrix nofun)
      (h.coveredColumns nofun) (h.coveredRows nofun))

theorem arrays_set_primeMatrix {v : Bool} :
    arrays F R C ((primeMatrix F R C).set m (row + R * col) v) =
      (arrays F R C m).mapWork fun w =>
        { w with primeMatrix := setEntry w.primeMatrix row col v } := by
  have h : Only F R C .primeMatrix m ((primeMatrix F R C).set m (row + R * col) v) :=
    .of_set rfl rfl (index_lt row col)
  exact Arrays.ext (h.distMatrixIn nofun) (h.assignment nofun)
    (Workspace.ext (h.distMatrix nofun) (h.starMatrix nofun) (get_set_entry _ m row col v)
      (h.coveredColumns nofun) (h.coveredRows nofun))

theorem arrays_set_coveredColumns {v : Bool} :
    arrays F R C ((coveredColumns F R C).set m col v) =
      (arrays F R C m).mapWork fun w =>
        { w with coveredColumns := Function.update w.coveredColumns col v } := by
  have h : Only F R C .coveredColumns m ((coveredColumns F R C).set m col v) :=
    .of_set rfl rfl col.isLt
  exact Arrays.ext (h.distMatrixIn nofun) (h.assignment nofun)
    (Workspace.ext (h.distMatrix nofun) (h.starMatrix nofun) (h.primeMatrix nofun)
      (get_set_vector _ m col v) (h.coveredRows nofun))

theorem arrays_set_coveredRows {v : Bool} :
    arrays F R C ((coveredRows F R C).set m row v) =
      (arrays F R C m).mapWork fun w =>
        { w with coveredRows := Function.update w.coveredRows row v } := by
  have h : Only F R C .coveredRows m ((coveredRows F R C).set m row v) :=
    .of_set rfl rfl row.isLt
  exact Arrays.ext (h.distMatrixIn nofun) (h.assignment nofun)
    (Workspace.ext (h.distMatrix nofun) (h.starMatrix nofun) (h.primeMatrix nofun)
      (h.coveredColumns nofun) (get_set_vector _ m row v))

theorem arrays_set_newStarMatrix {v : Bool} :
    arrays F R C ((newStarMatrix F R C).set m (row + R * col) v) = arrays F R C m := by
  have h : Only F R C .newStarMatrix m ((newStarMatrix F R C).set m (row + R * col) v) :=
    .of_set rfl rfl (index_lt row col)
  exact Arrays.ext (h.distMatrixIn nofun) (h.assignment nofun)
    (Workspace.ext (h.distMatrix nofun) (h.starMatrix nofun) (h.primeMatrix nofun)
      (h.coveredColumns nofun) (h.coveredRows nofun))

theorem newStars_set {v : Bool} :
    newStars F R C ((newStarMatrix F R C).set m (row + R * col) v) =
      setEntry (newStars F R C m) row col v :=
  get_set_entry _ m row col v

end Set

end CambriconGst.Hungarian.Buffer
