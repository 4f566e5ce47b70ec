import CambriconGst.Lib.Calls
import CambriconGst.Properties.KalmanFilter

/-!
# The kept projection of the Kalman filter

`Project` keeps what it computed, until `Predict` or `Update` says that it is no longer that of the
mean and the covariance. `Initiate` does not say so, and leaves what is off the diagonal of the
covariance as it is.

* `call_agrees`: one call, on the filter and on an `Estimate`
* `projection_unseen`: sequences of calls
-/

namespace CambriconGst.Easytrack

open Lib Matrix

variable {K : Type} [Field K]

/-! ## Calls -/

/-- The public calls that change the filter or return something of it. -/
inductive Call (K : Type) where
  | initiate (measurement : BoundingBox K)
  | predict
  | update (bbox : BoundingBox K)
  | gatingDistance (measurements : List (BoundingBox K))

/-- The first box of a filter. -/
def Call.IsInitiate : Call K → Prop
  | initiate _ => True
  | _ => False

namespace KalmanFilter

/-- The kept projection, when it is used, is that of the mean and the covariance. -/
def UpToDate (kf : KalmanFilter K) : Prop :=
  kf.needRecalcProject = false →
    kf.projectMean = kf.mean * (updateMat K)ᵀ ∧
      kf.projectCovariance = updateMat K * kf.covariance * (updateMat K)ᵀ + kf.innovationCov

/-- The calls that are answered as if nothing were kept. -/
def Ready (kf : KalmanFilter K) : Call K → Prop
  | .initiate _ => ∀ i j, i ≠ j → kf.covariance i j = 0
  | .predict => True
  | .update _ => kf.UpToDate
  | .gatingDistance _ => kf.UpToDate

/-- The filter has the mean and the covariance of the estimate. -/
def Agrees (kf : KalmanFilter K) (e : Estimate K) : Prop :=
  kf.mean = e.mean ∧ kf.covariance = e.covariance

variable {kf : KalmanFilter K} {e : Estimate K}

theorem UpToDate.project_eq (h : kf.UpToDate) (ha : kf.Agrees e) :
    kf.project = { kf with
      projectMean := e.projectMean
      projectCovariance := e.projectCovariance
      needRecalcProject := false } := by
  obtain ⟨mean, covariance, projectMean, projectCovariance, needRecalcProject⟩ := kf
  obtain ⟨rfl, rfl⟩ := ha
  cases needRecalcProject with
  | true => rfl
  | false =>
    obtain ⟨hmean, hcov⟩ := h rfl
    obtain rfl : projectMean = e.projectMean := hmean
    obtain rfl : projectCovariance = e.projectCovariance := hcov
    rfl

theorem upToDate_project (h : kf.UpToDate) : kf.project.UpToDate := by
  rw [h.project_eq (e := { mean := kf.mean, covariance := kf.covariance }) ⟨rfl, rfl⟩]
  exact fun _ => ⟨rfl, rfl⟩

variable [LinearOrder K] [IsStrictOrderedRing K]

/-- A call, and the distances when it returns some. -/
def call (kf : KalmanFilter K) : Call K → KalmanFilter K × List K
  | .initiate measurement => (kf.initiate measurement, [])
  | .predict => (kf.predict, [])
  | .update bbox => (kf.update bbox, [])
  | .gatingDistance measurements => kf.gatingDistance measurements

end KalmanFilter

def Estimate.call [LinearOrder K] [IsStrictOrderedRing K] (e : Estimate K) :
    Call K → Estimate K × List K
  | .initiate measurement => (.initiate measurement, [])
  | .predict => (e.predict, [])
  | .update bbox => (e.update bbox, [])
  | .gatingDistance measurements => (e, e.gatingDistance measurements)

namespace KalmanFilter

section Runs

variable [LinearOrder K] [IsStrictOrderedRing K] {kf : KalmanFilter K} {e : Estimate K}

/-- **One call on both.** -/
theorem call_agrees {c : Call K} (ha : kf.Agrees e) (hc : kf.Ready c) :
    (kf.call c).1.Agrees (e.call c).1 ∧ (kf.call c).2 = (e.call c).2 := by
  cases c with
  | initiate measurement =>
    refine ⟨⟨rfl, ?_⟩, rfl⟩
    ext i j
    by_cases hij : i = j
    · subst hij
      simp [call, KalmanFilter.initiate, Estimate.call, Estimate.initiate]
    · simp [call, KalmanFilter.initiate, Estimate.call, Estimate.initiate, hij, hc i j hij]
  | predict =>
    obtain ⟨hmean, hcov⟩ := ha
    simp only [call, KalmanFilter.predict, Estimate.call, Estimate.predict, Agrees, motionCov, hmean,
      hcov, and_self]
  | update bbox =>
    have hproject := UpToDate.project_eq hc ha
    obtain ⟨hmean, hcov⟩ := ha
    simp only [call, KalmanFilter.update, Estimate.call, Estimate.update, Agrees, hproject, hmean,
      hcov, and_self]
  | gatingDistance measurements =>
    have hproject := UpToDate.project_eq hc ha
    simp only [call, KalmanFilter.gatingDistance, Estimate.call, Estimate.gatingDistance, hproject,
      and_true]
    exact ha

/-- Only `Initiate` may leave a projection behind that is not that of the mean and covariance. -/
theorem upToDate_call {c : Call K} (h : kf.UpToDate) (hc : ¬c.IsInitiate) :
    (kf.call c).1.UpToDate := by
  cases c with
  | initiate measurement => exact absurd trivial hc
  | predict => exact fun hflag => absurd hflag nofun
  | update bbox => exact fun hflag => absurd hflag nofun
  | gatingDistance measurements => exact upToDate_project h

/-- A filter that is started once and then not again. -/
theorem allowed_of_initiate_once {measurement : BoundingBox K} {cs : List (Call K)}
    (h : ∀ c ∈ cs, ¬c.IsInitiate) :
    Calls.Allowed call Ready create (.initiate measurement :: cs) := by
  refine ⟨fun _ _ _ => rfl, ?_⟩
  refine Calls.allowed_of_invariant (I := UpToDate) (P := fun c => ¬c.IsInitiate) ?_ ?_ ?_ h
  · intro kf c hkf hc
    cases c with
    | initiate measurement => exact absurd trivial hc
    | predict => trivial
    | update bbox => exact hkf
    | gatingDistance measurements => exact hkf
  · exact fun kf c hkf hc => upToDate_call hkf hc
  · exact fun hflag => absurd hflag nofun

/--
**Through every sequence of calls that the filter is ready for, what it returns, its mean and its
covariance are those of the filter that keeps nothing.**
-/
theorem projection_unseen (cs : List (Call K)) (h : Calls.Allowed call Ready create cs) :
    Calls.answers call create cs = Calls.answers Estimate.call Estimate.start cs ∧
      (Calls.after call create cs).mean = (Calls.after Estimate.call Estimate.start cs).mean ∧
      (Calls.after call create cs).covariance
        = (Calls.after Estimate.call Estimate.start cs).covariance := by
  have hstart : (create : KalmanFilter K).Agrees Estimate.start := ⟨rfl, rfl⟩
  have hstep (kf : KalmanFilter K) (e : Estimate K) (a : Call K) (ha : kf.Agrees e)
      (hc : Ready kf a) :=
    call_agrees ha hc
  obtain ⟨hstate, hanswers⟩ := Calls.refines hstep hstart h
  exact ⟨hanswers, hstate⟩

end Runs

/-! ## Calls that it is not ready for -/

/-- The box of `sampleBox`, moved by one. -/
def movedBox : BoundingBox ℚ :=
  { sampleBox with x := sampleBox.x + 1 }

theorem projection_unseen_sample :
    Calls.answers call create [.initiate sampleBox, .predict, .gatingDistance [movedBox],
        .update movedBox, .gatingDistance [sampleBox]]
      = Calls.answers Estimate.call Estimate.start [.initiate sampleBox, .predict,
        .gatingDistance [movedBox], .update movedBox, .gatingDistance [sampleBox]] :=
  (projection_unseen _ (allowed_of_initiate_once (by simp [Call.IsInitiate]))).1

/-- A box is away from the estimate of its neighbour. -/
theorem gatingDistance_moved :
    ∀ d ∈ (Estimate.initiate movedBox).gatingDistance [sampleBox], 0 < d := by
  have hsound : Sound .idle (create.initiate movedBox) := sound_initiate (by decide)
  have hstart : create.Agrees (Estimate.start : Estimate ℚ) := ⟨rfl, rfl⟩
  obtain ⟨hmean, hcov⟩ := (call_agrees (c := .initiate movedBox) hstart fun _ _ _ => rfl).1
  have hS : (Estimate.initiate movedBox).projectCovariance.PosDef := by
    have hinnovation := hsound.posDef_innovation
    rwa [show (create.initiate movedBox).covariance = (Estimate.initiate movedBox).covariance
      from hcov] at hinnovation
  have hrow : (sampleBox.toRow - (Estimate.initiate movedBox).projectMean)
      * (!![-1; 0; 0; 0] : Matrix (Fin 4) (Fin 1) ℚ) = 1 := by
    decide +kernel
  have hpos := Covariance.posDef_congr hS.inv (injective_vecMul_of_mul_eq_one hrow)
  intro d hd
  obtain rfl := List.mem_singleton.mp hd
  rw [inv_eq ((isUnit_iff_isUnit_det _).mp hS.isUnit).ne_zero]
  exact hpos.diag_pos

/-- The filter that was started from a box before finds no distance to it. -/
theorem gatingDistance_kept :
    ((((create.initiate sampleBox).gatingDistance [sampleBox]).1.initiate movedBox).gatingDistance
      [sampleBox]).2 = [0] := by
  have hrow : sampleBox.toRow
      - ((((create.initiate sampleBox).gatingDistance [sampleBox]).1.initiate movedBox).project).projectMean
        = 0 := by
    decide +kernel
  simp only [gatingDistance, List.map_cons, List.map_nil] at hrow ⊢
  rw [hrow, Matrix.zero_mul, Matrix.zero_mul]
  rfl

/--
Started anew, the filter still measures from the first box, and the covariances that the prediction
has brought in stay.
-/
theorem projection_seen :
    Calls.answers call create [.initiate sampleBox, .gatingDistance [sampleBox],
        .initiate movedBox, .gatingDistance [sampleBox]]
      ≠ Calls.answers Estimate.call Estimate.start [.initiate sampleBox,
        .gatingDistance [sampleBox], .initiate movedBox, .gatingDistance [sampleBox]] ∧
    (Calls.after call create [.initiate sampleBox, .predict, .initiate sampleBox]).covariance
      ≠ (Calls.after Estimate.call Estimate.start
        [.initiate sampleBox, .predict, .initiate sampleBox]).covariance := by
  constructor
  · intro h
    simp only [Calls.answers, List.cons.injEq] at h
    obtain ⟨-, -, -, hlast, -⟩ := h
    have hmoved := gatingDistance_moved 0
    rw [show (Estimate.initiate movedBox).gatingDistance [sampleBox] = [0] from
      hlast.symm.trans gatingDistance_kept] at hmoved
    exact lt_irrefl 0 (hmoved (List.mem_singleton_self 0))
  · intro h
    have hentry := congrFun (congrFun h 0) 4
    revert hentry
    decide +kernel

end KalmanFilter

end CambriconGst.Easytrack
