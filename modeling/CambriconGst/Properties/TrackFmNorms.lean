import CambriconGst.Properties.TrackFmIdentity

/-!
# The norms that are cached

A feature keeps its norm once it has been computed, and a detection the norm of its feature for the
rest of the frame.

* `norm_cache`: no norm is kept with another feature, so that a cascade that computes both norms
  anew for each distance, and compares, never finds a difference
-/

namespace CambriconGst.TrackFm

open Lib Easytrack

variable {K : Type} [Field K] [LinearOrder K]

/-! ## One feature -/

/-- The norm is that of the feature, or has not been computed. -/
def NormCached (sqrt : K → K) (f : Feature K) : Prop :=
  f.mold < 0 ∨ f.mold = l2Norm sqrt f.vec

/-- The feature, its norm not computed. -/
def forget (f : Feature K) : Feature K :=
  { f with mold := -1 }

/-- The distance with both norms computed anew. -/
def distanceAnew (sqrt : K → K) (trackFeats : List (Feature K)) (det : Feature K) :
    Except Fault K :=
  (cosineDistance sqrt (trackFeats.map forget) (forget det)).1

theorem normCached_iff {sqrt : K → K} {f : Feature K} :
    NormCached sqrt f ↔ (f.cache sqrt).mold = l2Norm sqrt f.vec := by
  unfold NormCached Feature.cache
  by_cases h : f.mold < 0
  · simp [h]
  · simp [h]

/-- Whether a norm is right can be seen with the caches filled. -/
theorem NormCached.of_cache_eq {sqrt : K → K} {f f' : Feature K} (h : NormCached sqrt f)
    (he : f'.cache sqrt = f.cache sqrt) : NormCached sqrt f' := by
  have hvec : (f'.cache sqrt).vec = (f.cache sqrt).vec := congrArg Feature.vec he
  rw [normCached_iff] at h ⊢
  rw [he, h]
  exact congrArg (l2Norm sqrt) hvec.symm

variable [IsStrictOrderedRing K]

theorem forget_normCached (sqrt : K → K) (f : Feature K) : NormCached sqrt (forget f) :=
  .inl neg_one_lt_zero

theorem NormCached.cache_forget {sqrt : K → K} {f : Feature K} (h : NormCached sqrt f) :
    (forget f).cache sqrt = f.cache sqrt := by
  have hmold := normCached_iff.mp h
  have hforget := normCached_iff.mp (forget_normCached sqrt f)
  rw [show f.cache sqrt = ⟨f.vec, (f.cache sqrt).mold⟩ from rfl, hmold]
  exact congrArg (Feature.mk f.vec) hforget

/-- **With norms that are right the distance is as with norms computed anew.** -/
theorem distanceAnew_eq {sqrt : K → K} {feats : List (Feature K)} {det : Feature K}
    (hfeats : ∀ f ∈ feats, NormCached sqrt f) (hdet : NormCached sqrt det) :
    distanceAnew sqrt feats det = (cosineDistance sqrt feats det).1 := by
  have hcache : (feats.map forget).map (Feature.cache sqrt) = feats.map (Feature.cache sqrt) := by
    rw [List.map_map]
    exact List.map_congr_left fun f hf => (hfeats f hf).cache_forget
  rw [distanceAnew, ← cosineDistance_cache_det, hdet.cache_forget, cosineDistance_cache_det,
    ← cosineDistance_cache, hcache, cosineDistance_cache]

/-! ## The cascade that compares -/

section Cascade

variable (algo : MatchAlgorithm K) (p : Params K)

/-- The distance, or an exception when it differs from the one computed anew. -/
def comparedDistance (det : Feature K) (idx : Nat) : OnTracks K K :=
  onTrack idx fun track =>
    let (r, features) := cosineDistance algo.sqrt track.features det
    (match r, distanceAnew algo.sqrt track.features det with
      | .ok d, .ok d' => if d = d' then .ok d else .error (.invalidArg "stale norm")
      | .error e, .error e' => if e = e' then .error e else .error (.invalidArg "stale norm")
      | _, _ => .error (.invalidArg "stale norm"),
      { track with features })

variable (distance : Feature K → Nat → OnTracks K K)

/-- `costEntry` with the distance it is given; likewise the others. -/
def costEntryBy (idx : Nat) (det : DetectObject K) (gatingDist : K) : OnTracks K K := do
  let distance ← distance ⟨det.feature, det.featMold⟩ idx
  return gatedCost p distance gatingDist

def costRowBy (columns : List (DetectObject K)) (idx : Nat) : OnTracks K (List K) := do
  let gatingDist ← trackGating (columns.map fun det => toXyah det.bbox) idx
  (columns.zip gatingDist).mapM fun c => costEntryBy p distance idx c.1 c.2

def cascadeRoundBy (detects : List (DetectObject K)) (trackIndices unmatchedDetections : List Nat) :
    OnTracks K MatchResult := do
  let columns ← Attempt.look fun _ => unmatchedDetections.mapM (readAt .outOfRange detects)
  let rows ← trackIndices.mapM (costRowBy p distance columns)
  let cost := CostMatrix.ofRows rows unmatchedDetections.length
  Attempt.look fun _ => arrange cost p.maxCosineDistance unmatchedDetections trackIndices
    (algo.hungarianMatch cost)

def cascadeRoundsBy (detects : List (DetectObject K)) (aged : Nat → List Nat) :
    List Nat → MatchResult → OnTracks K MatchResult
  | [], res => pure res
  | age :: ages, res =>
    if res.unmatchedDetections.isEmpty then pure res
    else if (aged age).isEmpty then cascadeRoundsBy detects aged ages res
    else do
      let round ← cascadeRoundBy algo p distance detects (aged age) res.unmatchedDetections
      cascadeRoundsBy detects aged ages (addRound res round)

def matchCascadeBy (detects : List (DetectObject K)) (confirmed : List Nat) :
    OnTracks K (List (DetectObject K) × MatchResult) :=
  if confirmed.isEmpty ∨ detects.isEmpty then pure (detects, noMatch detects.length)
  else do
    let aged ← Attempt.look fun tracks => .ok (ageTrackIndices tracks confirmed)
    let res ← cascadeRoundsBy algo p distance (normed algo detects) aged (List.range p.maxAge.toNat)
      (noMatch detects.length)
    return (normed algo detects, res)

end Cascade

variable {algo : MatchAlgorithm K} {p : Params K}

/-! ## Tracks with norms that are right -/

/-- Every norm that a track keeps is that of its feature. -/
def NormsRight (sqrt : K → K) (ts : List (FeatureMatchTrackObject K)) : Prop :=
  ∀ track ∈ ts, ∀ f ∈ track.features, NormCached sqrt f

omit [IsStrictOrderedRing K] in
/-- Filling caches leaves norms right. -/
theorem NormsRight.of_settled {sqrt : K → K} {ts ts' : List (FeatureMatchTrackObject K)}
    (h : NormsRight sqrt ts) (he : ts'.map (settled sqrt) = ts.map (settled sqrt)) :
    NormsRight sqrt ts' := by
  intro track' ht' f' hf'
  obtain ⟨i, hi⟩ := List.mem_iff_getElem?.mp ht'
  obtain ⟨track, ht, hset⟩ := settled_getElem? he hi
  have hfeats : track.features.map (Feature.cache sqrt) =
      track'.features.map (Feature.cache sqrt) :=
    congrArg FeatureMatchTrackObject.features hset
  have hmem := List.mem_map_of_mem (f := Feature.cache sqrt) hf'
  rw [← hfeats] at hmem
  obtain ⟨f, hf, hcache⟩ := List.mem_map.mp hmem
  exact (h track (List.mem_of_getElem? ht) f hf).of_cache_eq hcache.symm

open Attempt

omit [IsStrictOrderedRing K] in
theorem NormsRight.kept {α : Type} {x : OnTracks K α}
    {g : List (FeatureMatchTrackObject K) → Except Fault α}
    (hx : Simulates (List.map (settled algo.sqrt)) x g) :
    ∀ ts, NormsRight algo.sqrt ts → NormsRight algo.sqrt (x.exec ts).2 :=
  fun ts hts => hts.of_settled (hx ts).2

/-- A distance of the cascade. -/
theorem comparedDistance_agrees {det : Feature K} (hdet : NormCached algo.sqrt det) (idx : Nat) :
    AgreeOn (NormsRight algo.sqrt) (comparedDistance algo det idx)
      (trackDistance algo det idx) := by
  intro ts hts
  refine ⟨?_, NormsRight.kept (trackDistance_simulates det idx) ts hts⟩
  show (onTrack idx _).exec ts = (onTrack idx _).exec ts
  unfold onTrack
  rw [exec_ofExec, exec_ofExec]
  cases hread : readAt Fault.outOfRange ts idx with
  | error e => rfl
  | ok track =>
    have hmem : track ∈ ts := List.mem_of_getElem? (readAt_eq_ok.mp hread)
    have hanew := distanceAnew_eq (hts track hmem) hdet
    rcases hcos : cosineDistance algo.sqrt track.features det with ⟨e | d, features⟩
    · rw [hcos] at hanew
      simp [hcos, hanew]
    · rw [hcos] at hanew
      simp [hcos, hanew]

theorem costRowBy_agrees {columns : List (DetectObject K)}
    (hcols : ∀ det ∈ columns, NormCached algo.sqrt ⟨det.feature, det.featMold⟩) (idx : Nat) :
    AgreeOn (NormsRight algo.sqrt) (costRowBy p (comparedDistance algo) columns idx)
      (costRow algo p columns idx) := by
  have hgating : AgreeOn (NormsRight algo.sqrt)
      (trackGating (columns.map fun det => toXyah det.bbox) idx) _ :=
    .of_keeps (NormsRight.kept (trackGating_simulates _ idx))
  refine hgating.bind fun _ gatingDist _ _ _ => .mapM fun c hc => ?_
  exact (comparedDistance_agrees (hcols c.1 (List.of_mem_zip hc).1) idx).bind
    fun _ distance _ _ _ => .of_pure _

theorem cascadeRoundBy_agrees {detects : List (DetectObject K)}
    (hdets : ∀ det ∈ detects, NormCached algo.sqrt ⟨det.feature, det.featMold⟩)
    (trackIndices unmatched : List Nat) :
    AgreeOn (NormsRight algo.sqrt)
      (cascadeRoundBy algo p (comparedDistance algo) detects trackIndices unmatched)
      (cascadeRound algo p detects trackIndices unmatched) := by
  refine AgreeOn.bind (.of_look _) fun ts columns ts' _ hlook => ?_
  have hcols : ∀ det ∈ columns, det ∈ detects := by
    have hread : unmatched.mapM (readAt Fault.outOfRange detects) = .ok columns :=
      congrArg Prod.fst hlook
    have hall := mapM_eq_ok.mp hread
    intro det hdet
    obtain ⟨k, hk, rfl⟩ := List.mem_iff_getElem.mp hdet
    exact List.mem_of_getElem?
      (readAt_eq_ok.mp ((List.forall₂_iff_get.mp hall).2 k (hall.length_eq ▸ hk) hk))
  refine AgreeOn.bind (.mapM fun idx _ => ?_) fun _ rows _ _ _ => .of_look _
  exact costRowBy_agrees (fun det hdet => hdets det (hcols det hdet)) idx

theorem cascadeRoundsBy_agrees {detects : List (DetectObject K)}
    (hdets : ∀ det ∈ detects, NormCached algo.sqrt ⟨det.feature, det.featMold⟩)
    (aged : Nat → List Nat) (ages : List Nat) (res : MatchResult) :
    AgreeOn (NormsRight algo.sqrt)
      (cascadeRoundsBy algo p (comparedDistance algo) detects aged ages res)
      (cascadeRounds algo p detects aged ages res) := by
  induction ages generalizing res with
  | nil => exact .of_pure res
  | cons age ages ih =>
    unfold cascadeRoundsBy cascadeRounds
    by_cases hd : res.unmatchedDetections.isEmpty
    · simp only [if_pos hd]
      exact .of_pure res
    · simp only [if_neg hd]
      by_cases ha : (aged age).isEmpty
      · simp only [if_pos ha]
        exact ih res
      · simp only [if_neg ha]
        exact (cascadeRoundBy_agrees hdets _ _).bind fun _ round _ _ _ => ih (addRound res round)

omit [IsStrictOrderedRing K] in
theorem normed_normCached (detects : List (DetectObject K)) :
    ∀ det ∈ normed algo detects, NormCached algo.sqrt ⟨det.feature, det.featMold⟩ := by
  intro det hdet
  obtain ⟨det', -, rfl⟩ := List.mem_map.mp hdet
  exact .inr rfl

/-- **No distance of the cascade differs from the one computed anew.** -/
theorem matchCascadeBy_agrees (detects : List (DetectObject K)) (confirmed : List Nat) :
    AgreeOn (NormsRight algo.sqrt) (matchCascadeBy algo p (comparedDistance algo) detects confirmed)
      (matchCascade algo p detects confirmed) := by
  unfold matchCascadeBy matchCascade
  by_cases h : confirmed.isEmpty ∨ detects.isEmpty
  · simp only [if_pos h]
    exact .of_pure _
  · simp only [if_neg h]
    refine AgreeOn.bind (.of_look _) fun _ aged _ _ _ => ?_
    exact (cascadeRoundsBy_agrees (normed_normCached detects) aged _ _).bind
      fun _ res _ _ _ => .of_pure _

/-! ## Runs -/

variable {detects : List (DetectObject K)}

/-- Every detection's norm is that of its feature. -/
def DetectsRight (sqrt : K → K) (detects : List (DetectObject K)) : Prop :=
  ∀ det ∈ detects, NormCached sqrt ⟨det.feature, det.featMold⟩

theorem resetMolds_right (sqrt : K → K) (detects : List (DetectObject K)) :
    DetectsRight sqrt (resetMolds detects) := by
  intro det hdet
  obtain ⟨det', -, rfl⟩ := List.mem_map.mp hdet
  exact .inl neg_one_lt_zero

omit [IsStrictOrderedRing K] in
/-- A new track keeps its detection's norm. -/
theorem initNewTrack_right {sqrt : K → K} {det : DetectObject K}
    (h : NormCached sqrt ⟨det.feature, det.featMold⟩) :
    ∀ f ∈ (initNewTrack det).features, NormCached sqrt f := by
  intro f hf
  unfold initNewTrack at hf
  dsimp only at hf
  split at hf
  · rwa [List.mem_singleton.mp hf]
  · exact absurd hf List.not_mem_nil

omit [Field K] [LinearOrder K] [IsStrictOrderedRing K] in
theorem mem_pushFeature {nnBudget : Nat} {features : List (Feature K)} {f g : Feature K}
    (h : g ∈ pushFeature nnBudget features f) : g ∈ features ∨ g = f := by
  unfold pushFeature at h
  have hmem : g ∈ features ++ [f] := by
    dsimp only at h
    split at h
    · exact List.mem_of_mem_tail h
    · exact h
  simpa using hmem

/-- A matched track keeps its detection's norm besides. -/
theorem updateTrack_right {sqrt : K → K} {det : DetectObject K} {nextId : Nat}
    {track : FeatureMatchTrackObject K} (hdet : NormCached sqrt ⟨det.feature, det.featMold⟩)
    (h : ∀ f ∈ track.features, NormCached sqrt f) :
    ∀ f ∈ (updateTrack p det nextId track).features, NormCached sqrt f := by
  have htouch : ∀ f ∈ (touchTrack p det track).features, NormCached sqrt f := by
    intro f hf
    unfold touchTrack at hf
    dsimp only at hf
    split at hf
    · rcases mem_pushFeature hf with hf | rfl
      · exact h f hf
      · exact hdet
    · exact h f hf
  unfold updateTrack
  dsimp only
  split
  · exact htouch
  · exact htouch

omit [Field K] [LinearOrder K] [IsStrictOrderedRing K] in
theorem markMiss_features (p : Params K) (track : FeatureMatchTrackObject K) :
    (markMiss p track).features = track.features := by
  unfold markMiss
  split <;> rfl

/-- The tracks and the entries while the matches are applied. -/
structure ProgressRight (sqrt : K → K) (u : Progress K) : Prop where
  tracks : NormsRight sqrt u.tracks
  output : DetectsRight sqrt u.output

theorem updateMatched_right {sqrt : K → K} (hdets : DetectsRight sqrt detects) {u u' : Progress K}
    {pair : Nat × Nat} (hu : ProgressRight sqrt u)
    (h : updateMatched p detects u pair = .ok u') : ProgressRight sqrt u' := by
  obtain ⟨det, track, hd, ht, rfl⟩ := updateMatched_eq_ok h
  have hdet := hdets det (List.mem_of_getElem? hd)
  refine ⟨fun track' ht' => ?_, fun entry he => ?_⟩
  · rcases List.mem_or_eq_of_mem_set ht' with ht' | rfl
    · exact hu.tracks track' ht'
    · exact updateTrack_right hdet (hu.tracks track (List.mem_of_getElem? ht))
  · rcases List.mem_append.mp he with he | he
    · exact hu.output entry he
    · rw [List.mem_singleton.mp he]
      exact hdet

omit [IsStrictOrderedRing K] in
theorem startTrack_right {sqrt : K → K} (hdets : DetectsRight sqrt detects) {u u' : Progress K}
    {idx : Nat} (hu : ProgressRight sqrt u) (h : startTrack detects u idx = .ok u') :
    ProgressRight sqrt u' := by
  obtain ⟨det, hd, h⟩ := bind_eq_ok.mp h
  obtain rfl := Except.ok.inj h
  have hdet := hdets det (List.mem_of_getElem? (readAt_eq_ok.mp hd))
  refine ⟨fun track ht => ?_, fun entry he => ?_⟩
  · rcases List.mem_append.mp ht with ht | ht
    · exact hu.tracks track ht
    · rw [List.mem_singleton.mp ht]
      exact initNewTrack_right hdet
  · rcases List.mem_append.mp he with he | he
    · exact hu.output entry he
    · rw [List.mem_singleton.mp he]
      exact hdet

theorem applyMatches_right {sqrt : K → K} {m : Matches K} {ts : List (FeatureMatchTrackObject K)}
    {nextId : Nat} {u : Progress K} (hdets : DetectsRight sqrt m.detects) (hts : NormsRight sqrt ts)
    (h : applyMatches p m ts nextId = .ok u) : ProgressRight sqrt u := by
  obtain ⟨u₁, h₁, h⟩ := bind_eq_ok.mp h
  obtain ⟨u₂, h₂, h⟩ := bind_eq_ok.mp h
  obtain ⟨us, h₃, h⟩ := bind_eq_ok.mp h
  obtain rfl := Except.ok.inj h
  have hu₁ : ProgressRight sqrt u₁ := foldlM_invariant
    (fun _ pair _ _ hu hstep => updateMatched_right hdets hu hstep) h₁
    ⟨hts, fun det hdet => absurd hdet List.not_mem_nil⟩
  have hu₂ : ProgressRight sqrt u₂ := foldlM_invariant
    (fun _ idx _ _ hu hstep => startTrack_right hdets hu hstep) h₂ hu₁
  refine ⟨fun track ht f hf => ?_, hu₂.output⟩
  -- marking misses leaves the features
  have hfeats : us.map (·.features) = u₂.tracks.map (·.features) :=
    updateEach_map h₃ fun _ _ g hg track => by
      obtain rfl := Except.ok.inj hg
      exact markMiss_features p track
  have hmem := List.mem_map_of_mem (f := (·.features)) ht
  rw [hfeats] at hmem
  obtain ⟨track', ht', he⟩ := List.mem_map.mp hmem
  exact hu₂.tracks track' ht' f (he ▸ hf)

/-- The tracks as the matching leaves them, also when it throws. -/
theorem matchFrame_right {tracks : List (FeatureMatchTrackObject K)}
    (hts : NormsRight algo.sqrt tracks) (p : Params K) (detects : List (DetectObject K)) :
    NormsRight algo.sqrt (matchFrame algo p detects tracks).2 := by
  have hpred : NormsRight algo.sqrt (tracks.map predictTrack) := by
    intro track ht
    obtain ⟨track', ht', rfl⟩ := List.mem_map.mp ht
    exact hts track' ht'
  exact hpred.of_settled (matchFrame_settled algo p detects tracks)

/-- The detections as the matching leaves them. -/
theorem matchFrame_detects {tracks : List (FeatureMatchTrackObject K)} {m : Matches K}
    (hdets : DetectsRight algo.sqrt detects)
    (h : (matchFrame algo p detects tracks).1 = .ok m) : DetectsRight algo.sqrt m.detects := by
  obtain ⟨T, chance, hM⟩ := matchFrame_spec (Prod.ext h rfl)
  rcases hM.norms with he | he
  · rw [he]
    exact hdets
  · rw [he]
    exact normed_normCached detects

theorem processFrame_right {s : FeatureMatchPrivate K} {u : Progress K}
    (hs : NormsRight algo.sqrt s.tracks) (hdets : DetectsRight algo.sqrt detects)
    (h : processFrame algo s detects = .ok u) : ProgressRight algo.sqrt u := by
  obtain ⟨m, hm, ha⟩ := processFrame_eq_ok h
  exact applyMatches_right (matchFrame_detects hdets hm) (matchFrame_right hs _ _) ha

/-- A call keeps norms right, and reports right ones. -/
theorem call_right {s : FeatureMatchPrivate K} (hs : NormsRight algo.sqrt s.tracks) (c : Call K) :
    NormsRight algo.sqrt (call algo s c).1.tracks ∧
      ∀ out, (call algo s c).2 = .ok out → DetectsRight algo.sqrt out := by
  cases c with
  | setParams maxCosineDistance nnBudget maxIouDistance maxAge nInit =>
    refine ⟨hs, fun out hout => ?_⟩
    obtain rfl := Except.ok.inj hout
    exact fun det hdet => absurd hdet List.not_mem_nil
  | updateFrame detects =>
    have hdets := resetMolds_right algo.sqrt detects
    unfold call updateFrame
    by_cases hempty : s.tracks.isEmpty
    · simp only [if_pos hempty, firstEnter]
      refine ⟨fun track ht => ?_, fun out hout => ?_⟩
      · obtain ⟨det, hdet, rfl⟩ := List.mem_map.mp ht
        exact initNewTrack_right (hdets det hdet)
      · obtain rfl := Except.ok.inj hout
        intro entry he
        obtain ⟨i, hi, rfl⟩ := List.mem_mapIdx.mp he
        exact hdets (resetMolds detects)[i] (List.getElem_mem hi)
    · simp only [if_neg hempty]
      rcases hp : processFrame algo s (resetMolds detects) with ⟨e, ts⟩ | u
      · obtain rfl := processFrame_error hp
        exact ⟨matchFrame_right hs _ _, fun out hout => by simp at hout⟩
      · have hu := processFrame_right hs hdets hp
        refine ⟨fun track ht => hu.tracks track (List.mem_of_mem_filter ht), fun out hout => ?_⟩
        obtain rfl := Except.ok.inj hout
        exact hu.output

theorem reached_right {s : FeatureMatchPrivate K} (h : Reached algo s) :
    NormsRight algo.sqrt s.tracks := by
  refine Reachable.invariant (I := fun s => NormsRight algo.sqrt s.tracks) ?_ ?_ h
  · rintro s rfl track ht
    exact absurd ht List.not_mem_nil
  · rintro s t hI ⟨c, rfl⟩
    exact (call_right hI c).1

/--
**The norms that are cached.**

In every state that calls lead to, each feature of a track has no norm or its own; so have the
detections and the tracks once a frame is matched, also when it throws, and the entries that the
call appends. A cascade that computes both norms anew for each distance, and throws when the
distance differs, does in that frame what the source's does.
-/
theorem norm_cache {s : FeatureMatchPrivate K} (h : Reached algo s)
    (detects : List (DetectObject K)) :
    NormsRight algo.sqrt s.tracks ∧
    NormsRight algo.sqrt (matchFrame algo s.params (resetMolds detects) s.tracks).2 ∧
    (∀ m, (matchFrame algo s.params (resetMolds detects) s.tracks).1 = .ok m →
      DetectsRight algo.sqrt m.detects) ∧
    (∀ out, (updateFrame algo s detects).2 = .ok out → DetectsRight algo.sqrt out) ∧
    (matchCascadeBy algo s.params (comparedDistance algo) (resetMolds detects)
        (confirmedTracks s.tracks)).exec (s.tracks.map predictTrack) =
      (matchCascade algo s.params (resetMolds detects)
        (confirmedTracks s.tracks)).exec (s.tracks.map predictTrack) := by
  have hs := reached_right h
  refine ⟨hs, matchFrame_right hs _ _,
    fun m hm => matchFrame_detects (resetMolds_right algo.sqrt detects) hm,
    (call_right hs (.updateFrame detects)).2, ?_⟩
  refine (matchCascadeBy_agrees _ _ _ fun track ht => ?_).1
  obtain ⟨track', ht', rfl⟩ := List.mem_map.mp ht
  exact hs track' ht'

/-- The frame of `sampleCalls` that confirms its track. -/
theorem norm_cache_sample :
    NormsRight ratSqrt sampleStart.tracks ∧
      ∀ out, (updateFrame (munkres ratSqrt) sampleStart [sampleDetect]).2 = .ok out →
        DetectsRight ratSqrt out := by
  have hinit : Reached (munkres ratSqrt) initial := Reachable.of_init rfl
  have h := norm_cache (reached_run hinit (sampleCalls.take 2)) [sampleDetect]
  exact ⟨h.1, h.2.2.2.1⟩

end CambriconGst.TrackFm
