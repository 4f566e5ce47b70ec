import CambriconGst.Lib.FinLoop
import CambriconGst.Properties.HungarianLocality

/-!
# The workspace carries nothing over

All bytes of the workspace are written before they are read, so that what `Solve` returns does not
depend on what was there.

* `initBuffer_settles`: the bytes before the preliminary steps
* `solve_inWorkspace`: what is outside of the workspace is neither used nor changed
* `solve_eq`: two contents of the workspace
* `Sized.le_size`: the block of a thread after any matches
* `workspace_iff`: for which numbers of rows and columns
-/

namespace CambriconGst.Hungarian

open Lib

namespace Buffer

variable {K B : Type} {A : FloatOps K} {F : ByteFormat K B} {R C : Nat}
  {dblMax : (Fin R → Fin C → K) → K} {m m' : Memory B}

/-! ## The lengths -/

theorem asInt_of_lt {x : Nat} (h : x < 2 ^ 31) : asInt x = x :=
  if_pos h

theorem checkedInt_eq_some {x y : Int} :
    checkedInt x = some y ↔ (-2 ^ 31 ≤ x ∧ x < 2 ^ 31) ∧ x = y := by
  unfold checkedInt
  split
  · next h => rw [Option.some.injEq, and_iff_right h]
  · next h => exact iff_of_false nofun fun hy => h hy.1

/-- When the lengths are defined, and what they are then. -/
theorem lengths_eq_some {copied cleared : Nat} : lengths R C = some (copied, cleared) ↔
    ∃ e t c n, checkedInt (asInt R * asInt C) = some e ∧ checkedInt (e * 3) = some t ∧
      checkedInt (t + asInt C) = some c ∧ checkedInt (c + asInt R) = some n ∧
      sizeT e * 4 % 2 ^ 64 = copied ∧ sizeT n = cleared := by
  unfold lengths
  constructor
  · intro h
    obtain ⟨e, he, h⟩ := Option.bind_eq_some_iff.mp h
    obtain ⟨t, ht, h⟩ := Option.bind_eq_some_iff.mp h
    obtain ⟨c, hc, h⟩ := Option.bind_eq_some_iff.mp h
    obtain ⟨n, hn, h⟩ := Option.bind_eq_some_iff.mp h
    obtain ⟨hcopied, hcleared⟩ := Prod.mk.inj (Option.some.inj h)
    exact ⟨e, t, c, n, he, ht, hc, hn, hcopied, hcleared⟩
  · rintro ⟨e, t, c, n, he, ht, hc, hn, rfl, rfl⟩
    exact Option.bind_eq_some_iff.mpr ⟨e, he, Option.bind_eq_some_iff.mpr ⟨t, ht,
      Option.bind_eq_some_iff.mpr ⟨c, hc, Option.bind_eq_some_iff.mpr ⟨n, hn, rfl⟩⟩⟩⟩

theorem lengths_of_lt (h : 3 * (R * C) + C + R < 2 ^ 31) :
    lengths R C = some (4 * (R * C), 3 * (R * C) + C + R) := by
  obtain ⟨e, he⟩ : ∃ e, e = R * C := ⟨_, rfl⟩
  rw [← he] at h ⊢
  have hmul : asInt R * asInt C = e := by
    rw [asInt_of_lt (by omega), asInt_of_lt (by omega), he, Nat.cast_mul]
  rw [lengths_eq_some, hmul]
  refine ⟨e, e * 3, e * 3 + C, e * 3 + C + R, checkedInt_eq_some.mpr ⟨⟨by omega, by omega⟩, rfl⟩,
    checkedInt_eq_some.mpr ⟨⟨by omega, by omega⟩, rfl⟩, ?_, ?_, ?_, ?_⟩
  · rw [asInt_of_lt (by omega)]
    exact checkedInt_eq_some.mpr ⟨⟨by omega, by omega⟩, rfl⟩
  · rw [asInt_of_lt (by omega)]
    exact checkedInt_eq_some.mpr ⟨⟨by omega, by omega⟩, rfl⟩
  · unfold sizeT
    omega
  · unfold sizeT
    omega

theorem asInt_neg {x : Nat} (hge : 2 ^ 31 ≤ x) (hlt : x < 2 ^ 32) : asInt x < 0 := by
  unfold asInt
  rw [if_neg (Nat.not_lt.mpr hge)]
  omega

/-- A negative length is a length that is not in the workspace. -/
theorem sizeT_of_neg {x : Int} (hlt : x < 0) (hge : -2 ^ 31 ≤ x) :
    2 ^ 40 ≤ sizeT x ∧ 2 ^ 40 ≤ sizeT x * 4 % 2 ^ 64 := by
  unfold sizeT
  omega

/-- Matrices whose lengths overflow, or do not fit. -/
theorem not_fits {copied cleared : Nat} (hR : R < 2 ^ 32) (hC : C < 2 ^ 32)
    (hsize : R * C < 2 ^ 32) (h : 2 ^ 31 ≤ 3 * (R * C) + C + R)
    (hl : lengths R C = some (copied, cleared)) :
    getWorkspaceSize R C < copied ∨ getWorkspaceSize R C < cleared := by
  obtain ⟨e, t, c, n, he, ht, hc, hn, rfl, rfl⟩ := lengths_eq_some.mp hl
  obtain ⟨hefits, he⟩ := checkedInt_eq_some.mp he
  obtain ⟨-, rfl⟩ := checkedInt_eq_some.mp ht
  obtain ⟨-, rfl⟩ := checkedInt_eq_some.mp hc
  obtain ⟨hnfits, rfl⟩ := checkedInt_eq_some.mp hn
  have hN : getWorkspaceSize R C < 2 ^ 40 := by
    rw [getWorkspaceSize_eq]
    omega
  by_cases hneg : e < 0
  · exact .inl (hN.trans_le (sizeT_of_neg hneg (he ▸ hefits.1)).2)
  by_cases hneg' : e * 3 + asInt C + asInt R < 0
  · exact .inr (hN.trans_le (sizeT_of_neg hneg' hnfits.1).1)
  exfalso
  obtain hR' | hR' := Nat.lt_or_ge R (2 ^ 31)
  · rw [asInt_of_lt hR'] at he hneg' hnfits
    obtain hC' | hC' := Nat.lt_or_ge C (2 ^ 31)
    · rw [asInt_of_lt hC', ← Nat.cast_mul] at he
      rw [asInt_of_lt hC'] at hneg' hnfits
      omega
    · have hCneg := asInt_neg hC' hC
      obtain rfl | hpos := R.eq_zero_or_pos
      · rw [Nat.cast_zero, zero_mul] at he
        omega
      · have hlt := Int.mul_neg_of_pos_of_neg (Int.natCast_pos.mpr hpos) hCneg
        omega
  · have hRneg := asInt_neg hR' hR
    obtain hC' | hC' := Nat.lt_or_ge C (2 ^ 31)
    · rw [asInt_of_lt hC'] at he hneg'
      obtain rfl | hpos := C.eq_zero_or_pos
      · rw [Nat.cast_zero, mul_zero] at he
        omega
      · have hlt := Int.mul_neg_of_neg_of_pos hRneg (Int.natCast_pos.mpr hpos)
        omega
    · have hge : 2 ^ 31 * 2 ^ 31 ≤ R * C := Nat.mul_le_mul hR' hC'
      omega

/-! ## The bytes before the preliminary steps -/

theorem settles_fillIn (DistMatrix : Fin R → Fin C → K) {a : Nat} (ha : a < 4 * (R * C)) :
    Settles (fillIn F DistMatrix) a := by
  obtain ⟨i, j, hk⟩ := exists_index (R := R) (C := C) (k := a / 4) (by omega)
  refine Settles.foldl (fun _ => Keeps.foldl fun _ => keeps_set _ _ _ a) (List.mem_finRange i) ?_
  refine Settles.foldl (fun _ => keeps_set _ _ _ a) (List.mem_finRange j) (settles_set ?_ ?_)
  · rw [← hk, Pointer.after]
    show 0 + 4 * (a / 4) ≤ a
    omega
  · rw [← hk, Pointer.after]
    show a < 0 + 4 * (a / 4) + 4
    omega

/-- `assignment[row] = -1` for each row. -/
def clearAssignment (F : ByteFormat K B) (R C : Nat) (m : Memory B) : Memory B :=
  (List.finRange R).foldl (fun m (row : Fin R) => (assignment F R C).set m row (-1)) m

theorem keeps_clearAssignment (a : Nat) : Keeps (clearAssignment F R C) a :=
  Keeps.foldl fun _ => keeps_set _ _ _ a

theorem settles_clearAssignment {a : Nat} (hlo : 4 * (R * C) ≤ a) (hhi : a < 4 * (R * C) + 4 * R) :
    Settles (clearAssignment F R C) a := by
  have hrow : (a - 4 * (R * C)) / 4 < R := by omega
  refine Settles.foldl (fun _ => keeps_set _ _ _ a) (List.mem_finRange ⟨_, hrow⟩)
    (settles_set ?_ ?_)
  · rw [Pointer.after, assignment_base]
    show 4 * (R * C) + 4 * ((a - 4 * (R * C)) / 4) ≤ a
    omega
  · rw [Pointer.after, assignment_base]
    show a < 4 * (R * C) + 4 * ((a - 4 * (R * C)) / 4) + 4
    omega

theorem settles_filled (DistMatrix : Fin R → Fin C → K) {a : Nat} (ha : a < 4 * (R * C) + 4 * R) :
    Settles (fun m => clearAssignment F R C (fillIn F DistMatrix m)) a := by
  intro m m'
  obtain hlt | hge := Nat.lt_or_ge a (4 * (R * C))
  · exact keeps_clearAssignment a _ _ (settles_fillIn DistMatrix hlt m m')
  · exact settles_clearAssignment hge ha _ _

/-- All bytes of the workspace are written. -/
theorem initBuffer_settles (DistMatrix : Fin R → Fin C → K) {a : Nat}
    (ha : a < getWorkspaceSize R C) :
    Settles (initBuffer F (4 * (R * C)) (3 * (R * C) + C + R) DistMatrix) a := by
  intro m m'
  have hfilled : ∀ {a}, a < 4 * (R * C) + 4 * R →
      (clearAssignment F R C (fillIn F DistMatrix m)).byte a =
        (clearAssignment F R C (fillIn F DistMatrix m')).byte a :=
    fun ha => settles_filled DistMatrix ha m m'
  rw [getWorkspaceSize_eq] at ha
  show (fill (starMatrix F R C).base _ F.zero (copy (distMatrix F R C).base 0 _
      (clearAssignment F R C (fillIn F DistMatrix m)))).byte a =
    (fill (starMatrix F R C).base _ F.zero (copy (distMatrix F R C).base 0 _
      (clearAssignment F R C (fillIn F DistMatrix m')))).byte a
  simp only [fill, copy, starMatrix_base, distMatrix_base]
  split
  · rfl
  · split
    · exact hfilled (by omega)
    · exact hfilled (by omega)

/-- They are written from what was written before. -/
theorem initBuffer_inWorkspace (DistMatrix : Fin R → Fin C → K) (outer m : Memory B) :
    initBuffer F (4 * (R * C)) (3 * (R * C) + C + R) DistMatrix (inWorkspace R C 0 outer m) =
      inWorkspace R C 0 outer
        (initBuffer F (4 * (R * C)) (3 * (R * C) + C + R) DistMatrix m) := by
  have hfillIn : ∀ m : Memory B, fillIn F DistMatrix (inWorkspace R C 0 outer m) =
      inWorkspace R C 0 outer (fillIn F DistMatrix m) := by
    refine foldl_within _ fun m i _ => foldl_within _ (fun m j _ => set_within (Nat.zero_le _) ?_) m
    have hk := index_lt i j
    rw [Pointer.after, getWorkspaceSize_eq]
    show 0 + 4 * (i + R * j) + 4 ≤ _
    omega
  have hclear : ∀ m : Memory B, clearAssignment F R C (inWorkspace R C 0 outer m) =
      inWorkspace R C 0 outer (clearAssignment F R C m) :=
    foldl_within _ fun m row _ => (assignment_inside (Nat.zero_le _) row).set
  show fill _ _ _ (copy _ _ _ (clearAssignment F R C (fillIn F DistMatrix _))) = _
  rw [hfillIn, hclear, copy_within, fill_within]
  · rfl
  all_goals simp only [starMatrix_base, distMatrix_base, getWorkspaceSize_eq]
  · omega
  · omega
  · omega
  · show 0 ≤ 0 ∧ 0 + 4 * (R * C) ≤ _
    omega

/-! ## The assignment vector -/

theorem get_clearAssignment (m : Memory B) (row : Fin R) :
    (assignment F R C).get (clearAssignment F R C m) row = -1 :=
  foldl_finRange_parts (fun m (row : Fin R) => (assignment F R C).get m row) (G := fun _ _ => -1)
    (fun m row r => by simp only [Pointer.get_set, Fin.val_inj]) m row

theorem get_initBuffer_assignment (DistMatrix : Fin R → Fin C → K) (m : Memory B) (row : Fin R)
    (len : Nat) :
    (assignment F R C).get (initBuffer F (4 * (R * C)) len DistMatrix m) row = -1 := by
  have hrow := row.isLt
  have hcopy : (assignment F R C).after row + 4 ≤ (distMatrix F R C).base := by
    rw [Pointer.after, assignment_base, distMatrix_base]
    omega
  have hfill : (assignment F R C).after row + 4 ≤ (starMatrix F R C).base := by
    rw [Pointer.after, assignment_base, starMatrix_base]
    omega
  refine (get_fill_of_outside (.inl hfill)).trans ((get_copy_of_outside (.inl hcopy)).trans ?_)
  exact get_clearAssignment _ row

/-- Entries that are no column, or one of the matrix. -/
def EntriesInside (F : ByteFormat K B) (R C : Nat) (m : Memory B) : Prop :=
  ∀ row : Fin R, ((assignment F R C).get m row).toInt < C

theorem toInt_ofNat_le (n : Nat) : (BitVec.ofNat 32 n).toInt ≤ n := by
  rw [BitVec.toInt_ofNat', Int.bmod_def]
  split <;> omega

theorem buildassignmentvector_inside (h : EntriesInside F R C m) :
    EntriesInside F R C (buildassignmentvector F R C m) := by
  unfold buildassignmentvector
  refine List.foldlRecOn (motive := EntriesInside F R C) _ _ h fun m hm row _ => ?_
  split
  · next col _ =>
    intro r
    rw [Pointer.get_set]
    split
    · exact (toInt_ofNat_le col).trans_lt (Int.ofNat_lt.mpr col.isLt)
    · exact hm r
  · exact hm

/-- Only what is below the working matrix has the assignment vector. -/
theorem get_assignment_outside {outer : Memory B} (row : Fin R) :
    (assignment F R C).get (inWorkspace R C (4 * (R * C) + 4 * R) outer m) row =
      (assignment F R C).get outer row := by
  refine get_within_outside fun a _ ha => ?_
  have hrow := row.isLt
  rw [Pointer.after, assignment_base] at ha
  omega

theorem results_inWorkspace (outer : Memory B) (h : EntriesInside F R C m) :
    results A F R C (inWorkspace R C 0 outer m) = results A F R C m := by
  have hentry : ∀ row : Fin R, (assignment F R C).get (inWorkspace R C 0 outer m) row =
      (assignment F R C).get m row := fun row => (assignment_inside (Nat.zero_le _) row).get
  have hcost : ∀ (row : Fin R) (col : Nat), col < C →
      (distMatrixIn F).get (inWorkspace R C 0 outer m) (row + R * col) =
        (distMatrixIn F).get m (row + R * col) := by
    intro row col hcol
    have hk : row + R * col < R * C := index_lt row ⟨col, hcol⟩
    refine get_within (Nat.zero_le _) ?_
    rw [getWorkspaceSize_eq]
    show 0 + 4 * (row + R * col) + 4 ≤ _
    omega
  unfold results computeassignmentcost
  simp only [hentry]
  refine Prod.ext rfl (List.foldl_ext _ _ _ fun cost row _ => ?_)
  split
  · next hcol =>
    have hlt := h row
    rw [hcost row _ (by omega)]
  · rfl

/-! ## Two contents of the workspace -/

/-- What `Solve` returns, when the assignment vector has been built in `m`. -/
def solvedIn (A : FloatOps K) (F : ByteFormat K B) (R C : Nat) (m : Option (Memory B)) :
    Solved ((List Int × K) × Memory B) :=
  match m with
  | none => .unfinished
  | some m => .returned (results A F R C m, m)

/-- The workspace before the first call. -/
def started (A : FloatOps K) (F : ByteFormat K B) (DistMatrix : Fin R → Fin C → K)
    (m : Memory B) : Memory B :=
  preliminary A F R C (initBuffer F (4 * (R * C)) (3 * (R * C) + C + R) DistMatrix m)

theorem solve_of_lt (h : 3 * (R * C) + C + R < 2 ^ 31) (fuel : Nat)
    (DistMatrix : Fin R → Fin C → K) (m : Memory B) :
    solve A F dblMax fuel DistMatrix m =
      solvedIn A F R C ((runMachine (search A F dblMax fuel) fuel
        (.step2b, started A F DistMatrix m)).map (buildassignmentvector F R C)) := by
  have hin : (distMatrix F R C).base + 4 * (R * C) ≤ getWorkspaceSize R C ∧
      (starMatrix F R C).base + (3 * (R * C) + C + R) ≤ getWorkspaceSize R C := by
    rw [distMatrix_base, starMatrix_base, getWorkspaceSize_eq]
    omega
  unfold solve
  rw [lengths_of_lt h]
  dsimp only
  rw [if_pos hin, runMachine_call]
  rfl

/-- The calls change nothing below the working matrix. -/
theorem eq_inWorkspace_of_runMachine {fuel turns : Nat} {c : Call R C} {m r : Memory B}
    (h : runMachine (search A F dblMax fuel) turns (c, m) = some r) :
    r = inWorkspace R C (4 * (R * C) + 4 * R) m r := by
  have hframe : runMachine (search A F dblMax fuel) turns
        (c, inWorkspace R C (4 * (R * C) + 4 * R) m m) =
      (runMachine (search A F dblMax fuel) turns (c, m)).map
        (inWorkspace R C (4 * (R * C) + 4 * R) m) :=
    runMachine_search_inWorkspace (Nat.le_refl _) fuel turns m c m
  rw [inWorkspace, within_self, h, Option.map_some] at hframe
  exact Option.some.inj hframe

theorem started_eq_inWorkspace (DistMatrix : Fin R → Fin C → K) (m : Memory B) :
    started A F DistMatrix m = inWorkspace R C (4 * (R * C) + 4 * R)
      (initBuffer F (4 * (R * C)) (3 * (R * C) + C + R) DistMatrix m)
      (started A F DistMatrix m) :=
  eq_within (fun _ m => preliminary_inWorkspace (Nat.le_refl _) m) _

/-- The assignment vector when the search ends. -/
theorem get_assignment_of_runMachine {fuel turns : Nat} {c : Call R C} {r : Memory B}
    {DistMatrix : Fin R → Fin C → K}
    (h : runMachine (search A F dblMax fuel) turns (c, started A F DistMatrix m) = some r)
    (row : Fin R) : (assignment F R C).get r row = -1 := by
  rw [eq_inWorkspace_of_runMachine h, get_assignment_outside, started_eq_inWorkspace,
    get_assignment_outside, get_initBuffer_assignment]

/-- The workspaces before the first call are the same but for the bytes outside. -/
theorem started_eq (DistMatrix : Fin R → Fin C → K) (m m' : Memory B) :
    started A F DistMatrix m = inWorkspace R C 0
      (initBuffer F (4 * (R * C)) (3 * (R * C) + C + R) DistMatrix m)
      (started A F DistMatrix m') := by
  have hinit : inWorkspace R C 0 (initBuffer F (4 * (R * C)) (3 * (R * C) + C + R) DistMatrix m)
      (initBuffer F (4 * (R * C)) (3 * (R * C) + C + R) DistMatrix m') =
        initBuffer F (4 * (R * C)) (3 * (R * C) + C + R) DistMatrix m :=
    within_of_agree fun a _ ha => initBuffer_settles DistMatrix ha m m'
  unfold started
  rw [← preliminary_inWorkspace (Nat.zero_le _), hinit]

/-- What is outside of the workspace before the first call is there at the end. -/
theorem solvedIn_inWorkspace (DistMatrix : Fin R → Fin C → K) (fuel : Nat) (outer m : Memory B) :
    solvedIn A F R C ((runMachine (search A F dblMax fuel) fuel
        (.step2b, inWorkspace R C 0 outer (started A F DistMatrix m))).map
          (buildassignmentvector F R C)) =
      (solvedIn A F R C ((runMachine (search A F dblMax fuel) fuel
        (.step2b, started A F DistMatrix m)).map (buildassignmentvector F R C))).map
          (Prod.map id (inWorkspace R C 0 outer)) := by
  rw [runMachine_search_inWorkspace (Nat.zero_le _)]
  cases hrun : runMachine (search A F dblMax fuel) fuel (.step2b, started A F DistMatrix m) with
  | none => rfl
  | some r =>
    have hentries : EntriesInside F R C r := by
      intro row
      rw [get_assignment_of_runMachine hrun row]
      exact (by decide : (-1 : BitVec 32).toInt < 0).trans_le (Int.natCast_nonneg C)
    simp only [Option.map_some, solvedIn, Solved.map]
    rw [buildassignmentvector_inWorkspace (Nat.zero_le _),
      results_inWorkspace _ (buildassignmentvector_inside hentries)]
    rfl

/-- **`Solve` neither uses nor changes what is outside of the workspace.** -/
theorem solve_inWorkspace (h : 3 * (R * C) + C + R < 2 ^ 31) (fuel : Nat)
    (DistMatrix : Fin R → Fin C → K) (outer m : Memory B) :
    solve A F dblMax fuel DistMatrix (inWorkspace R C 0 outer m) =
      (solve A F dblMax fuel DistMatrix m).map (Prod.map id (inWorkspace R C 0 outer)) := by
  have hstarted : started A F DistMatrix (inWorkspace R C 0 outer m) =
      inWorkspace R C 0 outer (started A F DistMatrix m) := by
    unfold started
    rw [initBuffer_inWorkspace, preliminary_inWorkspace (Nat.zero_le _)]
  rw [solve_of_lt h, solve_of_lt h, hstarted, solvedIn_inWorkspace]

/-- **What `Solve` returns does not depend on what the workspace holds.** -/
theorem solve_eq (h : 3 * (R * C) + C + R < 2 ^ 31) (fuel : Nat) (DistMatrix : Fin R → Fin C → K)
    (m m' : Memory B) :
    (solve A F dblMax fuel DistMatrix m).map Prod.fst =
      (solve A F dblMax fuel DistMatrix m').map Prod.fst := by
  rw [solve_of_lt h, solve_of_lt h, started_eq DistMatrix m m', solvedIn_inWorkspace]
  cases solvedIn A F R C ((runMachine (search A F dblMax fuel) fuel
    (.step2b, started A F DistMatrix m')).map (buildassignmentvector F R C)) <;> rfl

theorem solve_ne_undefined (h : 3 * (R * C) + C + R < 2 ^ 31) (fuel : Nat)
    (DistMatrix : Fin R → Fin C → K) (m : Memory B) :
    solve A F dblMax fuel DistMatrix m ≠ .undefined := by
  rw [solve_of_lt h]
  cases (runMachine (search A F dblMax fuel) fuel (.step2b, started A F DistMatrix m)).map
      (buildassignmentvector F R C) with
  | none => exact nofun
  | some r => exact nofun

theorem solve_undefined (hR : R < 2 ^ 32) (hC : C < 2 ^ 32) (hsize : R * C < 2 ^ 32)
    (h : 2 ^ 31 ≤ 3 * (R * C) + C + R) (fuel : Nat) (DistMatrix : Fin R → Fin C → K)
    (m : Memory B) : solve A F dblMax fuel DistMatrix m = .undefined := by
  unfold solve
  cases hl : lengths R C with
  | none => rfl
  | some l =>
    obtain ⟨copied, cleared⟩ := l
    refine if_neg fun hin => ?_
    obtain hlt | hlt := not_fits hR hC hsize h hl
    · omega
    · omega

end Buffer

/-! ## The workspace of a thread -/

namespace HungarianWorkspace

variable {K B : Type} {A : FloatOps K} {F : ByteFormat K B} {w : HungarianWorkspace B}

/-- `len` is the size of the block. -/
def Sized (w : HungarianWorkspace B) : Prop :=
  w.len = w.ptr.elim 0 Block.size

/-- What matches of whatever shapes leave. -/
inductive Reachable (A : FloatOps K) (F : ByteFormat K B) : HungarianWorkspace B → Prop
  | create : Reachable A F create
  | hungarianMatch {R C : Nat} {w : HungarianWorkspace B} (dblMax : (Fin R → Fin C → K) → K)
      (fuel : Nat) (costMatrix : Fin R → Fin C → K) (malloc : Option (Memory B))
      (own : Memory B) :
      Reachable A F w → Reachable A F (w.hungarianMatch A F dblMax fuel costMatrix malloc own).1

theorem Sized.refresh (h : w.Sized) (newLen : Nat) (malloc : Option (Memory B)) :
    (w.refresh newLen malloc).2.Sized := by
  unfold HungarianWorkspace.refresh
  split
  · exact h
  · split
    · split <;> rfl
    · exact h

theorem Sized.hungarianMatch {R C : Nat} (h : w.Sized) (dblMax : (Fin R → Fin C → K) → K)
    (fuel : Nat) (costMatrix : Fin R → Fin C → K) (malloc : Option (Memory B))
    (own : Memory B) : (w.hungarianMatch A F dblMax fuel costMatrix malloc own).1.Sized := by
  have hrefresh := h.refresh (getWorkspaceSize R C) malloc
  unfold HungarianWorkspace.hungarianMatch
  split
  · next w' heq =>
    rw [heq] at hrefresh
    exact hrefresh
  · next w' heq =>
    rw [heq] at hrefresh
    dsimp only
    split
    · refine Eq.trans hrefresh ?_
      cases w'.ptr <;> rfl
    · exact hrefresh

theorem Reachable.sized (h : Reachable A F w) : w.Sized := by
  induction h with
  | create => rfl
  | hungarianMatch dblMax fuel costMatrix malloc own _ ih =>
    exact ih.hungarianMatch dblMax fuel costMatrix malloc own

theorem Sized.le_size (h : w.Sized) (newLen : Nat) (malloc own : Memory B) :
    newLen ≤ ((w.refresh newLen (some malloc)).2.buffer newLen own).size := by
  unfold HungarianWorkspace.refresh
  split
  · next hzero => exact hzero.le.trans (Nat.zero_le _)
  · split
    · exact Nat.le_refl _
    · next hlen =>
      have hle : newLen ≤ w.ptr.elim 0 Block.size := h ▸ Nat.not_lt.mp hlen
      unfold buffer
      cases hptr : w.ptr with
      | none => exact Nat.le_refl _
      | some block =>
        rw [hptr] at hle
        exact hle

theorem refresh_fst (w : HungarianWorkspace B) (newLen : Nat) (malloc : Memory B) :
    (w.refresh newLen (some malloc)).1 = true := by
  unfold HungarianWorkspace.refresh
  split
  · rfl
  · split <;> rfl

variable (A F) in
/-- A match returns what `Solve` returns. -/
theorem hungarianMatch_snd {R C : Nat} (dblMax : (Fin R → Fin C → K) → K) (fuel : Nat)
    (costMatrix : Fin R → Fin C → K) (w : HungarianWorkspace B) (malloc own : Memory B) :
    ∃ m, (w.hungarianMatch A F dblMax fuel costMatrix (some malloc) own).2 =
      some ((Buffer.solve A F dblMax fuel costMatrix m).map Prod.fst) := by
  unfold HungarianWorkspace.hungarianMatch
  split
  · next w' heq =>
    have hfst := w.refresh_fst (getWorkspaceSize R C) malloc
    rw [heq] at hfst
    cases hfst
  · next w' heq =>
    refine ⟨(w'.buffer (getWorkspaceSize R C) own).memory, ?_⟩
    dsimp only
    split <;> rfl

end HungarianWorkspace

/-! ## All numbers of rows and columns -/

namespace Buffer

variable {K B : Type} {R C : Nat}

/-- What the workspace held is not seen, and the sub-arrays lie in it apart. -/
structure CarriesNothingOver (A : FloatOps K) (F : ByteFormat K B)
    (dblMax : (Fin R → Fin C → K) → K) : Prop where
  defined : ∀ (fuel : Nat) (DistMatrix : Fin R → Fin C → K) (m : Memory B),
    solve A F dblMax fuel DistMatrix m ≠ .undefined
  solve_eq : ∀ (fuel : Nat) (DistMatrix : Fin R → Fin C → K) (m m' : Memory B),
    (solve A F dblMax fuel DistMatrix m).map Prod.fst =
      (solve A F dblMax fuel DistMatrix m').map Prod.fst
  /-- Whatever the thread has matched before, and whatever `malloc` returns. -/
  hungarianMatch_eq : ∀ (fuel : Nat) (costMatrix : Fin R → Fin C → K)
    (w w' : HungarianWorkspace B) (malloc malloc' own own' : Memory B),
    (w.hungarianMatch A F dblMax fuel costMatrix (some malloc) own).2 =
      (w'.hungarianMatch A F dblMax fuel costMatrix (some malloc') own').2
  disjoint : ∀ a b : SubArray, a ≠ b →
    a.stop F R C ≤ b.start F R C ∨ b.stop F R C ≤ a.start F R C
  stop_le : ∀ a : SubArray, a.stop F R C ≤ getWorkspaceSize R C
  stop_le_size : ∀ w : HungarianWorkspace B, w.Reachable A F → ∀ (malloc own : Memory B)
    (a : SubArray), a.stop F R C ≤ ((w.refresh (getWorkspaceSize R C) (some malloc)).2.buffer
      (getWorkspaceSize R C) own).size

/-- **The workspace carries nothing over**, if the length of the `memset` fits an `int`. -/
theorem workspace_iff (A : FloatOps K) (F : ByteFormat K B) (dblMax : (Fin R → Fin C → K) → K)
    (hR : R < 2 ^ 32) (hC : C < 2 ^ 32) (hsize : R * C < 2 ^ 32) :
    CarriesNothingOver A F dblMax ↔ 3 * (R * C) + C + R < 2 ^ 31 := by
  constructor
  · intro h
    by_contra hge
    exact h.defined 0 (fun _ _ => A.zero) ⟨fun _ => F.zero⟩
      (solve_undefined hR hC hsize (Nat.not_lt.mp hge) 0 _ _)
  · intro h
    refine ⟨solve_ne_undefined h, solve_eq h, ?_, fun _ _ => disjoint F R C, stop_le F R C, ?_⟩
    · intro fuel costMatrix w w' malloc malloc' own own'
      obtain ⟨m, hm⟩ := w.hungarianMatch_snd A F dblMax fuel costMatrix malloc own
      obtain ⟨m', hm'⟩ := w'.hungarianMatch_snd A F dblMax fuel costMatrix malloc' own'
      rw [hm, hm', solve_eq h]
    · intro w hw malloc own a
      exact (stop_le F R C a).trans (hw.sized.le_size _ malloc own)

/-- Words of 32 bits with their own arithmetic. -/
def words : FloatOps (BitVec 32) where
  zero := 0
  add := (· + ·)
  sub := (· - ·)
  lt := BitVec.slt
  isZero x := x == 0

def wordBytes : Codec (BitVec 32) (BitVec 8) 4 where
  encode v k := v.extractLsb' (8 * k) 8
  decode b := BitVec.ofNat 32 (Fin.foldr 4 (fun k x => (b k).toNat + 256 * x) 0)
  decode_encode v := by
    have hv := v.isLt
    refine BitVec.eq_of_toNat_eq ?_
    simp only [Fin.foldr_succ, Fin.foldr_zero, Fin.val_succ, Fin.val_zero, BitVec.toNat_ofNat,
      BitVec.extractLsb'_toNat]
    omega

def littleEndian : ByteFormat (BitVec 32) (BitVec 8) where
  float := wordBytes
  int := wordBytes
  bool := {
    encode := fun v _ => if v then 1 else 0
    decode := fun b => b (Fin.last 0) != 0
    decode_encode := by decide }
  zero := 0
  bool_zero := rfl

theorem workspace_two_three :
    CarriesNothingOver (R := 2) (C := 3) words littleEndian fun _ => 0x7fffffff :=
  (workspace_iff words littleEndian _ (by decide) (by decide) (by decide)).mpr (by decide)

/-- One row of 2^29 columns. -/
theorem memset_overflows :
    ¬ CarriesNothingOver (R := 1) (C := 2 ^ 29) words littleEndian fun _ => 0x7fffffff :=
  fun h => h.defined 0 (fun _ _ => 0) ⟨fun _ => 0⟩
    (solve_undefined (by decide) (by decide) (by decide) (by decide) 0 _ _)

end Buffer

end CambriconGst.Hungarian
