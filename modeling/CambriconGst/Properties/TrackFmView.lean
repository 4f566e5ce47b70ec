import CambriconGst.Easytrack.TrackFm
import CambriconGst.Properties.Match

/-!
# The cascade without its caches

While it computes distances the cascade fills caches: the projections of the Kalman filters and the
norms of the features. `settled` is what a track is with its caches filled; seen through it the
cascade changes nothing.

* `matchCascade_simulates`: the cascade returns what `cascadeOf`, which has no state, returns for
  the settled tracks
-/

namespace CambriconGst.TrackFm

open Lib Easytrack

variable {K : Type} [Field K]

theorem project_project (kf : KalmanFilter K) : kf.project.project = kf.project := by
  unfold KalmanFilter.project
  cases h : kf.needRecalcProject with
  | true => rfl
  | false => simp only [h, if_neg Bool.false_ne_true]

/-! ## Settled tracks -/

variable [LinearOrder K]

/-- A track with its caches filled. -/
def settled (sqrt : K → K) (track : FeatureMatchTrackObject K) : FeatureMatchTrackObject K :=
  { track with
    kf := track.kf.project
    features := track.features.map (Feature.cache sqrt) }

theorem settled_getElem? {sqrt : K → K} {ts ts' : List (FeatureMatchTrackObject K)}
    (h : ts'.map (settled sqrt) = ts.map (settled sqrt)) {i : Nat} {t' : FeatureMatchTrackObject K}
    (ht' : ts'[i]? = some t') : ∃ t, ts[i]? = some t ∧ settled sqrt t = settled sqrt t' := by
  have hi := congrArg (·[i]?) h
  simp only [List.getElem?_map, ht', Option.map_some] at hi
  obtain ⟨t, ht, he⟩ := Option.map_eq_some_iff.mp hi.symm
  exact ⟨t, ht, he⟩

/-- Two tracks that differ in their filter and features only. -/
structure Alike (t t' : FeatureMatchTrackObject K) : Prop where
  pos : t.pos = t'.pos
  trackId : t.trackId = t'.trackId
  state : t.state = t'.state
  age : t.age = t'.age
  timeSinceLastUpdate : t.timeSinceLastUpdate = t'.timeSinceLastUpdate
  hasFeature : t.hasFeature = t'.hasFeature

theorem alike_of_settled {sqrt : K → K} {t t' : FeatureMatchTrackObject K}
    (h : settled sqrt t = settled sqrt t') : Alike t t' := by
  simp only [settled, FeatureMatchTrackObject.mk.injEq] at h
  obtain ⟨-, -, hp, -, hid, -, hs, ha, ht, hf⟩ := h
  exact ⟨hp, hid, hs, ha, ht, hf⟩

/-- A computation with one track that does not see its caches. -/
theorem onTrack_simulates {α : Type} {sqrt : K → K} {f : FeatureMatchTrackObject K →
    Except Fault α × FeatureMatchTrackObject K} {g : FeatureMatchTrackObject K → Except Fault α}
    (hr : ∀ t, (f t).1 = g (settled sqrt t)) (ht : ∀ t, settled sqrt (f t).2 = settled sqrt t)
    (idx : Nat) : Attempt.Simulates (List.map (settled sqrt)) (onTrack idx f)
      fun ts => readAt .outOfRange ts idx >>= g := by
  intro ts
  show _ = readAt .outOfRange (ts.map (settled sqrt)) idx >>= g ∧ _
  unfold onTrack readAt
  rw [Attempt.exec_ofExec, List.getElem?_map]
  cases hi : ts[idx]? with
  | none => exact ⟨rfl, rfl⟩
  | some t =>
    refine ⟨hr t, ?_⟩
    show (ts.set idx (f t).2).map (settled sqrt) = ts.map (settled sqrt)
    obtain ⟨hlt, rfl⟩ := List.getElem?_eq_some_iff.mp hi
    have hlt' : idx < (ts.map (settled sqrt)).length := by rwa [List.length_map]
    rw [List.map_set, ht, ← List.getElem_map (settled sqrt) (h := hlt'), List.set_getElem_self]

theorem ageTrackIndices_settled (sqrt : K → K) (ts : List (FeatureMatchTrackObject K))
    (confirmed : List Nat) :
    ageTrackIndices (ts.map (settled sqrt)) confirmed = ageTrackIndices ts confirmed := by
  funext age
  unfold ageTrackIndices
  refine List.filter_congr fun i _ => ?_
  rw [List.getElem?_map, Option.any_map]
  rfl

variable [IsStrictOrderedRing K]

/-! ## The cascade over tracks that do not change -/

section Stateless

variable (algo : MatchAlgorithm K) (p : Params K)

def gatingOf (measurements : List (BoundingBox K)) (idx : Nat)
    (ts : List (FeatureMatchTrackObject K)) : Except Fault (List K) :=
  readAt .outOfRange ts idx >>= fun track => .ok (track.kf.gatingDistance measurements).2

def distanceOf (det : Feature K) (idx : Nat) (ts : List (FeatureMatchTrackObject K)) :
    Except Fault K :=
  readAt .outOfRange ts idx >>= fun track => (cosineDistance algo.sqrt track.features det).1

def entryOf (idx : Nat) (det : DetectObject K) (gatingDist : K)
    (ts : List (FeatureMatchTrackObject K)) : Except Fault K :=
  distanceOf algo ⟨det.feature, det.featMold⟩ idx ts >>= fun distance =>
    .ok (gatedCost p distance gatingDist)

def rowOf (columns : List (DetectObject K)) (idx : Nat) (ts : List (FeatureMatchTrackObject K)) :
    Except Fault (List K) :=
  gatingOf (columns.map fun det => toXyah det.bbox) idx ts >>= fun gatingDist =>
    (columns.zip gatingDist).mapM fun c => entryOf algo p idx c.1 c.2 ts

def roundOf (detects : List (DetectObject K)) (trackIndices unmatchedDetections : List Nat)
    (ts : List (FeatureMatchTrackObject K)) : Except Fault MatchResult :=
  unmatchedDetections.mapM (readAt .outOfRange detects) >>= fun columns =>
    (trackIndices.mapM fun idx => rowOf algo p columns idx ts) >>= fun rows =>
      arrange (CostMatrix.ofRows rows unmatchedDetections.length) p.maxCosineDistance
        unmatchedDetections trackIndices
        (algo.hungarianMatch (CostMatrix.ofRows rows unmatchedDetections.length))

/-- The result of the cascade so far with that of one more round. -/
def addRound (res round : MatchResult) : MatchResult where
  matched := res.matched ++ round.matched
  unmatchedTracks := res.unmatchedTracks ++ round.unmatchedTracks
  unmatchedDetections := round.unmatchedDetections

def roundsOf (detects : List (DetectObject K)) (aged : Nat → List Nat) :
    List Nat → MatchResult → List (FeatureMatchTrackObject K) → Except Fault MatchResult
  | [], res, _ => .ok res
  | age :: ages, res, ts =>
    if res.unmatchedDetections.isEmpty then .ok res
    else if (aged age).isEmpty then roundsOf detects aged ages res ts
    else roundOf algo p detects (aged age) res.unmatchedDetections ts >>= fun round =>
      roundsOf detects aged ages (addRound res round) ts

/-- The detections with the norms of their features. -/
def normed (detects : List (DetectObject K)) : List (DetectObject K) :=
  detects.map fun det => { det with featMold := l2Norm algo.sqrt det.feature }

/-- No detection is matched. -/
def noMatch (n : Nat) : MatchResult where
  matched := []
  unmatchedTracks := []
  unmatchedDetections := List.range n

def cascadeOf (detects : List (DetectObject K)) (confirmed : List Nat)
    (ts : List (FeatureMatchTrackObject K)) : Except Fault (List (DetectObject K) × MatchResult) :=
  if confirmed.isEmpty ∨ detects.isEmpty then .ok (detects, noMatch detects.length)
  else roundsOf algo p (normed algo detects) (ageTrackIndices ts confirmed)
    (List.range p.maxAge.toNat) (noMatch detects.length) ts >>= fun res =>
      .ok (normed algo detects, res)

end Stateless

/-! ## The simulation -/

variable {algo : MatchAlgorithm K} {p : Params K}

open Attempt

theorem trackGating_simulates (measurements : List (BoundingBox K)) (idx : Nat) :
    Simulates (List.map (settled algo.sqrt)) (trackGating measurements idx)
      (gatingOf measurements idx) := by
  refine onTrack_simulates (fun t => ?_) (fun t => ?_) idx
  · simp only [KalmanFilter.gatingDistance, settled, project_project]
  · simp only [KalmanFilter.gatingDistance, settled, project_project]

omit [IsStrictOrderedRing K] in
theorem trackDistance_simulates (det : Feature K) (idx : Nat) :
    Simulates (List.map (settled algo.sqrt)) (trackDistance algo det idx)
      (distanceOf algo det idx) := by
  refine onTrack_simulates (fun t => ?_) (fun t => ?_) idx
  · exact (cosineDistance_cache det t.features).symm
  · show settled algo.sqrt { t with features := _ } = settled algo.sqrt t
    simp only [settled, cosineDistance_feats]

omit [IsStrictOrderedRing K] in
theorem costEntry_simulates (idx : Nat) (det : DetectObject K) (gatingDist : K) :
    Simulates (List.map (settled algo.sqrt)) (costEntry algo p idx det gatingDist)
      (entryOf algo p idx det gatingDist) := by
  show Simulates _ (_ >>= _) fun ts => distanceOf algo ⟨det.feature, det.featMold⟩ idx ts >>= _
  exact (trackDistance_simulates _ idx).bind fun _ => .of_pure _

theorem costRow_simulates (columns : List (DetectObject K)) (idx : Nat) :
    Simulates (List.map (settled algo.sqrt)) (costRow algo p columns idx)
      (rowOf algo p columns idx) := by
  show Simulates _ (_ >>= _) fun ts => gatingOf _ idx ts >>= _
  refine Simulates.bind (trackGating_simulates _ idx) fun gatingDist => ?_
  exact Simulates.mapM (fun c : DetectObject K × K => costEntry_simulates idx c.1 c.2) _

theorem cascadeRound_simulates (detects : List (DetectObject K)) (trackIndices unmatched : List Nat) :
    Simulates (List.map (settled algo.sqrt)) (cascadeRound algo p detects trackIndices unmatched)
      (roundOf algo p detects trackIndices unmatched) := by
  show Simulates _ (_ >>= _) fun ts => unmatched.mapM (readAt Fault.outOfRange detects) >>= _
  refine Simulates.bind (.of_look fun _ => rfl) fun columns => ?_
  refine Simulates.bind (.mapM (costRow_simulates columns) trackIndices) fun rows => ?_
  exact .of_look fun _ => rfl

theorem cascadeRounds_simulates (detects : List (DetectObject K)) (aged : Nat → List Nat)
    (ages : List Nat) (res : MatchResult) :
    Simulates (List.map (settled algo.sqrt)) (cascadeRounds algo p detects aged ages res)
      (roundsOf algo p detects aged ages res) := by
  induction ages generalizing res with
  | nil => exact .of_pure res
  | cons age ages ih =>
    show Simulates _ _ fun ts => roundsOf algo p detects aged (age :: ages) res ts
    unfold cascadeRounds roundsOf
    by_cases hd : res.unmatchedDetections.isEmpty
    · simp only [if_pos hd]
      exact .of_pure res
    · simp only [if_neg hd]
      by_cases ha : (aged age).isEmpty
      · simp only [if_pos ha]
        exact ih res
      · simp only [if_neg ha]
        exact (cascadeRound_simulates detects _ _).bind fun round => ih (addRound res round)

/-- **Seen through `settled` the cascade changes no track.** -/
theorem matchCascade_simulates (detects : List (DetectObject K)) (confirmed : List Nat) :
    Simulates (List.map (settled algo.sqrt)) (matchCascade algo p detects confirmed)
      (cascadeOf algo p detects confirmed) := by
  show Simulates _ _ fun ts => cascadeOf algo p detects confirmed ts
  unfold matchCascade cascadeOf
  by_cases h : confirmed.isEmpty ∨ detects.isEmpty
  · simp only [if_pos h]
    exact .of_pure _
  · simp only [if_neg h]
    have hlook : Simulates (ε := Fault) (List.map (settled algo.sqrt))
        (look fun ts => .ok (ageTrackIndices ts confirmed))
        fun ts => .ok (ageTrackIndices ts confirmed) :=
      .of_look fun ts => congrArg Except.ok (ageTrackIndices_settled algo.sqrt ts confirmed).symm
    exact hlook.bind fun aged => (cascadeRounds_simulates (normed algo detects) aged _ _).bind
      fun res => .of_pure (normed algo detects, res)

end CambriconGst.TrackFm
