import CambriconGst.Properties.TrackFmIdentity

/-!
# When a frame throws

The feature vectors the cascade compares must have one length.

* `calls_return`: calls return as long as the features of the tracks in the cascade have the
  lengths of those of the detections
* `mixed_lengths_throw`: a featureless detection makes a call throw
-/

namespace CambriconGst.TrackFm

open Lib Easytrack

variable {K : Type} [Field K] [LinearOrder K]

/-! ## The distance of features -/

omit [LinearOrder K] in
theorem innerProduct_ok_iff {lhs rhs : List K} :
    (∃ x, innerProduct lhs rhs = .ok x) ↔ lhs.length = rhs.length := by
  unfold innerProduct
  by_cases h : lhs.length = rhs.length
  · rw [if_pos h]
    exact ⟨fun _ => h, fun _ => ⟨_, rfl⟩⟩
  · rw [if_neg h]
    refine ⟨?_, fun hl => absurd hl h⟩
    rintro ⟨x, hx⟩
    simp at hx

theorem maxSimilarity_ok_iff {sqrt : K → K} {det : Feature K} {feats : List (Feature K)} :
    ∀ {m : K}, (∃ x, (maxSimilarity sqrt det m feats).1 = .ok x) ↔
      ∀ f ∈ feats, f.vec.length = det.vec.length := by
  induction feats with
  | nil => exact fun {m} => ⟨fun _ f hf => absurd hf List.not_mem_nil, fun _ => ⟨m, rfl⟩⟩
  | cons f feats ih =>
    intro m
    rw [List.forall_mem_cons, maxSimilarity]
    have hiff : (∃ x, innerProduct (f.cache sqrt).vec det.vec = .ok x) ↔
        f.vec.length = det.vec.length := innerProduct_ok_iff
    cases hp : innerProduct (f.cache sqrt).vec det.vec with
    | error e =>
      have hno : f.vec.length ≠ det.vec.length := fun hl => by
        obtain ⟨x, hx⟩ := hiff.mpr hl
        rw [hp] at hx
        simp at hx
      refine ⟨?_, fun h => absurd h.1 hno⟩
      rintro ⟨x, hx⟩
      simp at hx
    | ok xy => exact ih.trans ⟨fun h => ⟨hiff.mp ⟨xy, hp⟩, h⟩, fun h => h.2⟩

theorem cosineDistance_ok_iff {sqrt : K → K} {det : Feature K} {feats : List (Feature K)} :
    (∃ x, (cosineDistance sqrt feats det).1 = .ok x) ↔
      ∀ f ∈ feats, f.vec.length = det.vec.length := by
  have hiff : (∃ x, (maxSimilarity sqrt (det.cache sqrt) 0 feats).1 = .ok x) ↔
      ∀ f ∈ feats, f.vec.length = det.vec.length := maxSimilarity_ok_iff
  rw [← hiff]
  unfold cosineDistance
  rcases maxSimilarity sqrt (det.cache sqrt) 0 feats with ⟨e | x, left⟩
  · simp [Except.map]
  · simp [Except.map]

/-! ## The cascade -/

/-- The features of a track have the length of that of a detection. -/
def CanCompare (track : FeatureMatchTrackObject K) (det : DetectObject K) : Prop :=
  ∀ f ∈ track.features, f.vec.length = det.feature.length

variable [IsStrictOrderedRing K] {algo : MatchAlgorithm K} {p : Params K}
  {ts : List (FeatureMatchTrackObject K)}

omit [IsStrictOrderedRing K] in
theorem entryOf_ok_iff {idx : Nat} {det : DetectObject K} {g : K}
    {track : FeatureMatchTrackObject K} (ht : ts[idx]? = some track) :
    (∃ c, entryOf algo p idx det g ts = .ok c) ↔ CanCompare track det := by
  unfold entryOf distanceOf
  rw [readAt_eq_ok.mpr ht]
  have hiff : (∃ d, (cosineDistance algo.sqrt track.features ⟨det.feature, det.featMold⟩).1 = .ok d) ↔
      CanCompare track det := cosineDistance_ok_iff
  rw [← hiff]
  constructor
  · rintro ⟨c, hc⟩
    obtain ⟨d, hd, -⟩ := bind_eq_ok.mp hc
    exact ⟨d, hd⟩
  · rintro ⟨d, hd⟩
    exact ⟨_, bind_eq_ok.mpr ⟨d, hd, rfl⟩⟩

theorem rowOf_ok_iff {columns : List (DetectObject K)} {idx : Nat}
    {track : FeatureMatchTrackObject K} (ht : ts[idx]? = some track) :
    (∃ row, rowOf algo p columns idx ts = .ok row) ↔ ∀ det ∈ columns, CanCompare track det := by
  unfold rowOf gatingOf
  rw [readAt_eq_ok.mpr ht]
  show (∃ row, List.mapM (fun c : DetectObject K × K => entryOf algo p idx c.1 c.2 ts) _ = .ok row) ↔ _
  rw [mapM_ok_iff]
  simp only [entryOf_ok_iff ht]
  have hlen : columns.length ≤
      (track.kf.gatingDistance (columns.map fun det => toXyah det.bbox)).2.length := by
    simp [KalmanFilter.gatingDistance]
  constructor
  · intro h det hdet
    rw [← List.map_fst_zip hlen] at hdet
    obtain ⟨c, hc, rfl⟩ := List.mem_map.mp hdet
    exact h c hc
  · intro h c hc
    exact h c.1 (List.of_mem_zip hc).1

/-- Tracks and detections by index can be compared. -/
def AllCompare (detects : List (DetectObject K)) (ts : List (FeatureMatchTrackObject K))
    (trackIndices detectIndices : List Nat) : Prop :=
  ∀ t ∈ trackIndices, ∃ track, ts[t]? = some track ∧ ∀ d ∈ detectIndices, ∀ det,
    detects[d]? = some det → CanCompare track det

theorem roundOf_ok_iff {detects : List (DetectObject K)} {trackIndices unmatched : List Nat}
    (hd : ∀ d ∈ unmatched, d < detects.length) (ht : ∀ t ∈ trackIndices, t < ts.length) :
    (∃ res, roundOf algo p detects trackIndices unmatched ts = .ok res) ↔
      AllCompare detects ts trackIndices unmatched := by
  obtain ⟨columns, hcol⟩ : ∃ columns, unmatched.mapM (readAt Fault.outOfRange detects) = .ok columns :=
    mapM_ok fun d h => ⟨_, readAt_of_lt (hd d h)⟩
  have hmem : ∀ det, det ∈ columns ↔ ∃ d ∈ unmatched, detects[d]? = some det := by
    intro det
    constructor
    · intro h
      obtain ⟨i, hi⟩ := List.mem_iff_getElem?.mp h
      obtain ⟨d, hdi, hr⟩ := mapM_getElem? hcol hi
      exact ⟨d, List.mem_of_getElem? hdi, readAt_eq_ok.mp hr⟩
    · rintro ⟨d, hdu, hr⟩
      obtain ⟨i, hi⟩ := List.mem_iff_getElem?.mp hdu
      obtain ⟨hlt, rfl⟩ := List.getElem?_eq_some_iff.mp hi
      have hlt' : i < columns.length := by rwa [mapM_length hcol]
      have hread := (List.forall₂_iff_get.mp (mapM_eq_ok.mp hcol)).2 i hlt hlt'
      obtain rfl : columns[i] = det := Option.some.inj ((readAt_eq_ok.mp hread).symm.trans hr)
      exact List.getElem_mem hlt'
  have hrows : (∃ rows, (trackIndices.mapM fun idx => rowOf algo p columns idx ts) = .ok rows) ↔
      AllCompare detects ts trackIndices unmatched := by
    rw [mapM_ok_iff]
    refine forall₂_congr fun t h => ?_
    have hlt := ht t h
    have hget := List.getElem?_eq_getElem hlt
    rw [rowOf_ok_iff hget]
    constructor
    · intro hall
      exact ⟨_, hget, fun d hdu det hdet => hall det ((hmem det).mpr ⟨d, hdu, hdet⟩)⟩
    · rintro ⟨track, htrack, hall⟩ det hdet
      obtain rfl : ts[t] = track := Option.some.inj (hget.symm.trans htrack)
      obtain ⟨d, hdu, hdet'⟩ := (hmem det).mp hdet
      exact hall d hdu det hdet'
  rw [← hrows]
  unfold roundOf
  constructor
  · rintro ⟨res, h⟩
    obtain ⟨columns', hcol', h⟩ := bind_eq_ok.mp h
    obtain rfl : columns = columns' := Except.ok.inj (hcol.symm.trans hcol')
    obtain ⟨rows, hr, -⟩ := bind_eq_ok.mp h
    exact ⟨rows, hr⟩
  · rintro ⟨rows, hr⟩
    obtain ⟨res, hres⟩ : ∃ res, arrange (CostMatrix.ofRows rows unmatched.length)
        p.maxCosineDistance unmatched trackIndices
        (algo.hungarianMatch (CostMatrix.ofRows rows unmatched.length)) = .ok res :=
      arrange_ok (algo.valid _) (mapM_length hr) rfl
    exact ⟨res, bind_eq_ok.mpr ⟨columns, hcol, bind_eq_ok.mpr ⟨rows, hr, hres⟩⟩⟩

/-- The rounds return when the tracks of every age can be compared with all detections left. -/
theorem roundsOf_ok {detects : List (DetectObject K)} {aged : Nat → List Nat} {ages : List Nat}
    (haged : ∀ age, (aged age).Nodup) (hlt : ∀ age, ∀ t ∈ aged age, t < ts.length) :
    ∀ {res : MatchResult}, res.unmatchedDetections.Nodup →
      (∀ d ∈ res.unmatchedDetections, d < detects.length) →
      (∀ age ∈ ages, AllCompare detects ts (aged age) res.unmatchedDetections) →
      ∃ res', roundsOf algo p detects aged ages res ts = .ok res' := by
  induction ages with
  | nil => exact fun {res} _ _ _ => ⟨res, rfl⟩
  | cons age ages ih =>
    intro res hn hd hall
    rw [roundsOf]
    split
    · exact ⟨res, rfl⟩
    split
    · exact ih hn hd fun a ha => hall a (List.mem_cons_of_mem _ ha)
    · have hex : ∃ round, roundOf algo p detects (aged age) res.unmatchedDetections ts = .ok round :=
        (roundOf_ok_iff hd (hlt age)).mpr (hall age List.mem_cons_self)
      obtain ⟨round, hround⟩ := hex
      have hR := roundOf_matching hround hn (haged age)
      have hsub : ∀ d ∈ round.unmatchedDetections, d ∈ res.unmatchedDetections := fun d h =>
        hR.detections.mem_iff.mp (List.mem_append_right _ h)
      have hrest : ∃ res', roundsOf algo p detects aged ages (addRound res round) ts = .ok res' := by
        refine ih (List.nodup_append.mp (hR.detections.nodup_iff.mpr hn)).2.1
          (fun d h => hd d (hsub d h)) fun a ha t ht => ?_
        obtain ⟨track, htrack, hc⟩ := hall a (List.mem_cons_of_mem _ ha) t ht
        exact ⟨track, htrack, fun d h => hc d (hsub d h)⟩
      obtain ⟨res', h⟩ := hrest
      exact ⟨res', bind_eq_ok.mpr ⟨round, hround, h⟩⟩

/-- The first round with tracks meets all detections. -/
theorem roundsOf_first {detects : List (DetectObject K)} {aged : Nat → List Nat} {age : Nat}
    {ages later : List Nat} {res res' : MatchResult} (hd : res.unmatchedDetections ≠ [])
    (hempty : ∀ a ∈ ages, aged a = []) (hage : aged age ≠ [])
    (h : roundsOf algo p detects aged (ages ++ age :: later) res ts = .ok res') :
    ∃ round, roundOf algo p detects (aged age) res.unmatchedDetections ts = .ok round := by
  have hd' : ¬res.unmatchedDetections.isEmpty := fun he => hd (List.isEmpty_iff.mp he)
  induction ages with
  | nil =>
    rw [List.nil_append, roundsOf, if_neg hd', if_neg (fun he => hage (List.isEmpty_iff.mp he))] at h
    obtain ⟨round, hround, -⟩ := bind_eq_ok.mp h
    exact ⟨round, hround⟩
  | cons a ages ih =>
    have ha : (aged a).isEmpty := List.isEmpty_iff.mpr (hempty a List.mem_cons_self)
    rw [List.cons_append, roundsOf, if_neg hd', if_pos ha] at h
    exact ih (fun b hb => hempty b (List.mem_cons_of_mem _ hb)) h

/-! ## The tracks of a frame -/

/-- The track is matched by feature in a frame. -/
def InRounds (p : Params K) (track : FeatureMatchTrackObject K) : Prop :=
  track.state = .confirmed ∧ track.hasFeature = true ∧ (track.timeSinceLastUpdate : Int) < p.maxAge

variable {s : FeatureMatchPrivate K} {detects : List (DetectObject K)}

omit [IsStrictOrderedRing K] in
theorem canCompare_view {track : FeatureMatchTrackObject K} {det : DetectObject K} {m : K} :
    CanCompare (settled algo.sqrt (predictTrack track)) { det with featMold := m } ↔
      CanCompare track det := by
  unfold CanCompare settled predictTrack
  rw [List.forall_mem_map]
  exact Iff.rfl

omit [IsStrictOrderedRing K] in
/-- The tracks of a round. -/
theorem mem_round_iff {age t : Nat} :
    t ∈ ageTrackIndices ((s.tracks.map predictTrack).map (settled algo.sqrt))
      (confirmedTracks s.tracks) age ↔
      ∃ track, s.tracks[t]? = some track ∧ track.state = .confirmed ∧ track.hasFeature = true ∧
        track.timeSinceLastUpdate = age := by
  rw [mem_ageTrackIndices, mem_confirmedTracks]
  have hview : ∀ track, s.tracks[t]? = some track →
      ((s.tracks.map predictTrack).map (settled algo.sqrt))[t]? =
        some (settled algo.sqrt (predictTrack track)) := by
    intro track ht
    rw [List.getElem?_map, List.getElem?_map, ht]
    rfl
  have hage : ∀ track : FeatureMatchTrackObject K,
      ((settled algo.sqrt (predictTrack track)).timeSinceLastUpdate : Int) - 1 =
        track.timeSinceLastUpdate := by
    intro track
    show ((track.timeSinceLastUpdate + 1 : Nat) : Int) - 1 = _
    omega
  constructor
  · rintro ⟨⟨track, ht, hc, hf⟩, track', ht', ha⟩
    rw [hview track ht] at ht'
    obtain rfl := Option.some.inj ht'
    rw [hage] at ha
    exact ⟨track, ht, hc, hf, Int.ofNat.inj ha⟩
  · rintro ⟨track, ht, hc, hf, rfl⟩
    exact ⟨⟨track, ht, hc, hf⟩, _, hview track ht, hage track⟩

omit [IsStrictOrderedRing K] in
theorem allCompare_iff {age : Nat} :
    AllCompare (normed algo detects) ((s.tracks.map predictTrack).map (settled algo.sqrt))
      (ageTrackIndices ((s.tracks.map predictTrack).map (settled algo.sqrt))
        (confirmedTracks s.tracks) age) (List.range detects.length) ↔
      ∀ track ∈ s.tracks, track.state = .confirmed → track.hasFeature = true →
        track.timeSinceLastUpdate = age → ∀ det ∈ detects, CanCompare track det := by
  have hnormed : ∀ (d : Nat) (det : DetectObject K), detects[d]? = some det → (normed algo detects)[d]? =
      some { det with featMold := l2Norm algo.sqrt det.feature } := by
    intro d det hd
    rw [normed, List.getElem?_map, hd]
    rfl
  constructor
  · intro h track hmem hc hf ha det hdet
    obtain ⟨t, ht⟩ := List.mem_iff_getElem?.mp hmem
    obtain ⟨d, hd⟩ := List.mem_iff_getElem?.mp hdet
    obtain ⟨view, hview, hall⟩ := h t (mem_round_iff.mpr ⟨track, ht, hc, hf, ha⟩)
    rw [List.getElem?_map, List.getElem?_map, ht] at hview
    obtain rfl := Option.some.inj hview
    exact canCompare_view.mp (hall d (List.mem_range.mpr (List.getElem?_eq_some_iff.mp hd).1) _
      (hnormed d det hd))
  · intro h t ht
    obtain ⟨track, ht, hc, hf, ha⟩ := mem_round_iff.mp ht
    refine ⟨settled algo.sqrt (predictTrack track), ?_, fun d _ det hdet => ?_⟩
    · rw [List.getElem?_map, List.getElem?_map, ht]
      rfl
    · rw [normed, List.getElem?_map] at hdet
      obtain ⟨det', hd, rfl⟩ := Option.map_eq_some_iff.mp hdet
      exact canCompare_view.mpr (h track (List.mem_of_getElem? ht) hc hf ha det'
        (List.mem_of_getElem? hd))

/--
The features of the tracks that a frame matches by feature have the lengths of those of the
detections.
-/
def Comparable (s : FeatureMatchPrivate K) (detects : List (DetectObject K)) : Prop :=
  ∀ track ∈ s.tracks, InRounds s.params track → ∀ det ∈ detects, CanCompare track det

/-- What the cascade returns for the tracks of a frame. -/
abbrev frameCascade (algo : MatchAlgorithm K) (s : FeatureMatchPrivate K)
    (detects : List (DetectObject K)) : Except Fault (List (DetectObject K) × MatchResult) :=
  cascadeOf algo s.params detects (confirmedTracks s.tracks)
    ((s.tracks.map predictTrack).map (settled algo.sqrt))

theorem frameCascade_ok (h : Comparable s detects) : ∃ r, frameCascade algo s detects = .ok r := by
  unfold frameCascade cascadeOf
  split
  · exact ⟨_, rfl⟩
  · have hlen : (normed algo detects).length = detects.length := List.length_map _
    have hrounds : ∃ res, roundsOf algo s.params (normed algo detects)
        (ageTrackIndices ((s.tracks.map predictTrack).map (settled algo.sqrt))
          (confirmedTracks s.tracks)) (List.range s.params.maxAge.toNat) (noMatch detects.length)
        ((s.tracks.map predictTrack).map (settled algo.sqrt)) = .ok res := by
      refine roundsOf_ok (fun _ => nodup_ageTrackIndices nodup_confirmedTracks _)
        (fun age t ht => ?_) List.nodup_range (fun d hd => ?_) fun age hage => ?_
      · obtain ⟨track, htrack, -⟩ := mem_round_iff.mp ht
        rw [List.length_map, List.length_map]
        exact (List.getElem?_eq_some_iff.mp htrack).1
      · rw [hlen]
        exact List.mem_range.mp hd
      · rw [List.mem_range] at hage
        exact allCompare_iff.mpr fun track hmem hc hf ha => h track hmem ⟨hc, hf, by omega⟩
    obtain ⟨res, hres⟩ := hrounds
    exact ⟨_, bind_eq_ok.mpr ⟨res, hres, rfl⟩⟩

/-- The tracks missed for the fewest frames are compared with every detection. -/
theorem frameCascade_youngest {r : List (DetectObject K) × MatchResult}
    (h : frameCascade algo s detects = .ok r) {track : FeatureMatchTrackObject K}
    (hmem : track ∈ s.tracks) (hin : InRounds s.params track)
    (hmin : ∀ track' ∈ s.tracks, InRounds s.params track' →
      track.timeSinceLastUpdate ≤ track'.timeSinceLastUpdate) :
    ∀ det ∈ detects, CanCompare track det := by
  obtain ⟨hc, hf, hage⟩ := hin
  obtain ⟨t, ht⟩ := List.mem_iff_getElem?.mp hmem
  intro det hdet
  have hround : t ∈ ageTrackIndices ((s.tracks.map predictTrack).map (settled algo.sqrt))
      (confirmedTracks s.tracks) track.timeSinceLastUpdate :=
    mem_round_iff.mpr ⟨track, ht, hc, hf, rfl⟩
  have hdets : detects ≠ [] := List.ne_nil_of_mem hdet
  have hconf : confirmedTracks s.tracks ≠ [] :=
    List.ne_nil_of_mem (mem_confirmedTracks.mpr ⟨track, ht, hc, hf⟩)
  unfold frameCascade cascadeOf at h
  rw [if_neg (by simp [hdets, hconf])] at h
  obtain ⟨res, hres, -⟩ := bind_eq_ok.mp h
  obtain ⟨k, hk⟩ : ∃ k, s.params.maxAge.toNat = track.timeSinceLastUpdate + 1 + k :=
    ⟨s.params.maxAge.toNat - (track.timeSinceLastUpdate + 1), by omega⟩
  rw [hk, List.range_add, List.range_succ, List.append_assoc, List.singleton_append] at hres
  have hempty : ∀ a ∈ List.range track.timeSinceLastUpdate,
      ageTrackIndices ((s.tracks.map predictTrack).map (settled algo.sqrt))
        (confirmedTracks s.tracks) a = [] := by
    intro a ha
    refine List.eq_nil_iff_forall_not_mem.mpr fun t' ht' => ?_
    obtain ⟨track', htrack', hc', hf', rfl⟩ := mem_round_iff.mp ht'
    rw [List.mem_range] at ha
    have := hmin track' (List.mem_of_getElem? htrack') ⟨hc', hf', by omega⟩
    omega
  have hfirst := roundsOf_first (by simpa [noMatch] using hdets) hempty (List.ne_nil_of_mem hround)
    hres
  refine allCompare_iff.mp ((roundOf_ok_iff (fun d hd => ?_) fun t' ht' => ?_).mp hfirst) track hmem
    hc hf rfl det hdet
  · rw [normed, List.length_map]
    exact List.mem_range.mp hd
  · obtain ⟨track', htrack', -⟩ := mem_round_iff.mp ht'
    rw [List.length_map, List.length_map]
    exact (List.getElem?_eq_some_iff.mp htrack').1

/-! ## The frame -/

omit [IsStrictOrderedRing K] in
theorem matchIou_ok {detects : List (DetectObject K)} {detectIndices trackIndices : List Nat}
    (hd : ∀ d ∈ detectIndices, d < detects.length) (ht : ∀ t ∈ trackIndices, t < ts.length) :
    ∃ res, matchIou algo p detects detectIndices trackIndices ts = .ok res := by
  unfold matchIou
  split
  · exact ⟨_, rfl⟩
  split
  · exact ⟨_, rfl⟩
  · obtain ⟨dets, hdets⟩ : ∃ dets, detectIndices.mapM (readAt Fault.outOfRange detects) = .ok dets :=
      mapM_ok fun d h => ⟨_, readAt_of_lt (hd d h)⟩
    obtain ⟨tras, htras⟩ : ∃ tras, trackIndices.mapM (readAt Fault.outOfRange ts) = .ok tras :=
      mapM_ok fun t h => ⟨_, readAt_of_lt (ht t h)⟩
    have hrows : (tras.map (·.pos)).length = trackIndices.length := by
      rw [List.length_map, mapM_length htras]
    have hcols : (dets.map fun det => boundingBox2Rect det.bbox).length = detectIndices.length := by
      rw [List.length_map, mapM_length hdets]
    obtain ⟨res, hres⟩ : ∃ res, arrange
        (iouCost (tras.map (·.pos)) (dets.map fun det => boundingBox2Rect det.bbox))
        p.maxIouDistance detectIndices trackIndices (algo.hungarianMatch
          (iouCost (tras.map (·.pos)) (dets.map fun det => boundingBox2Rect det.bbox))) = .ok res :=
      arrange_ok (algo.valid _) hrows hcols
    exact ⟨res, bind_eq_ok.mpr ⟨dets, hdets, bind_eq_ok.mpr ⟨tras, htras, hres⟩⟩⟩

/-- The matching of a frame throws just when the cascade does. -/
theorem matchFrame_ok_iff : (∃ m, (matchFrame algo s.params detects s.tracks).1 = .ok m) ↔
    ∃ r, frameCascade algo s detects = .ok r := by
  have hsims : Attempt.Simulates (List.map (settled algo.sqrt))
      (matchCascade algo s.params detects (confirmedTracks s.tracks)) _ := matchCascade_simulates _ _
  have hsim := hsims (s.tracks.map predictTrack)
  rcases hcas : (matchCascade algo s.params detects (confirmedTracks s.tracks)).exec
    (s.tracks.map predictTrack) with ⟨e | ⟨detects', cascade⟩, ts'⟩
  · rw [hcas] at hsim
    have hthrow : (matchFrame algo s.params detects s.tracks).1 = .error e := by
      unfold matchFrame matchTracks
      rw [Attempt.exec_bind_error hcas]
    rw [hthrow, frameCascade, ← hsim.1]
    constructor
    · rintro ⟨m, hm⟩
      simp at hm
    · rintro ⟨r, hr⟩
      simp at hr
  · obtain ⟨hset, hn, T, hM, hT⟩ := matchCascade_spec nodup_confirmedTracks hcas
    rw [hcas] at hsim
    have hlen : ts'.length = s.tracks.length := by
      have := congrArg List.length hset
      simpa only [List.length_map] using this
    have hdlen : detects'.length = detects.length := by
      rcases hn with rfl | rfl
      · rfl
      · exact List.length_map _
    have hiou : ∃ iou, matchIou algo s.params detects' cascade.unmatchedDetections
        (unconfirmedTracks s.tracks ++ chances ts' cascade.unmatchedTracks) ts' = .ok iou := by
      refine matchIou_ok (fun d hd => ?_) fun t ht => ?_
      · rw [hdlen]
        exact List.mem_range.mp (hM.detections.mem_iff.mp (List.mem_append_right _ hd))
      rw [hlen]
      rcases List.mem_append.mp ht with ht | ht
      · exact (mem_unconfirmedTracks.mp ht).1
      · have hc := hT.2 t (hM.tracks.mem_iff.mp (List.mem_append_right _
          (List.filter_sublist.subset ht)))
        obtain ⟨track, hget, -⟩ := mem_confirmedTracks.mp hc.1
        exact (List.getElem?_eq_some_iff.mp hget).1
    obtain ⟨iou, hiou⟩ := hiou
    refine ⟨fun _ => ⟨_, hsim.1.symm⟩, fun _ => ?_⟩
    rw [matchFrame_of_cascade hcas, hiou]
    exact ⟨_, rfl⟩

/-- What was matched can be applied. -/
theorem applyMatches_ok {m : Matches K}
    (hm : (matchFrame algo s.params detects s.tracks).1 = .ok m) (nextId : Nat) :
    ∃ u, applyMatches s.params m (matchFrame algo s.params detects s.tracks).2 nextId = .ok u := by
  obtain ⟨T, chance, hM⟩ := matchFrame_spec (Prod.ext hm rfl)
  have hdlen : m.detects.length = detects.length := by
    rcases hM.norms with h | h
    · rw [h]
    · rw [h, normed, List.length_map]
  have hdet : ∀ d, d ∈ m.pairs.map Prod.fst ++ m.iou.unmatchedDetections → d < m.detects.length := by
    intro d hd
    rw [hdlen]
    exact List.mem_range.mp (hM.detections.mem_iff.mp hd)
  have hmatched : ∃ u₁, m.pairs.foldlM (updateMatched s.params m.detects)
      { tracks := (matchFrame algo s.params detects s.tracks).2, nextId, output := [] } = .ok u₁ ∧
      u₁.tracks.length = s.tracks.length := by
    refine foldlM_ok_of_invariant (I := fun u : Progress K => u.tracks.length = s.tracks.length)
      (fun u hu pair hpair => ?_) (matchFrame_length ..)
    have hfst : pair.1 < m.detects.length :=
      hdet _ (List.mem_append_left _ (List.mem_map_of_mem hpair))
    have hsnd : pair.2 < u.tracks.length := by
      rw [hu]
      exact hM.lt_length (List.mem_append_left _ (List.mem_map_of_mem hpair))
    refine ⟨_, bind_eq_ok.mpr ⟨_, readAt_of_lt hsnd, bind_eq_ok.mpr ⟨_, readAt_of_lt hfst, rfl⟩⟩, ?_⟩
    rw [List.length_set, hu]
  obtain ⟨u₁, h₁, hl₁⟩ := hmatched
  have hstarted : ∃ u₂, m.iou.unmatchedDetections.foldlM (startTrack m.detects) u₁ = .ok u₂ ∧
      s.tracks.length ≤ u₂.tracks.length := by
    refine foldlM_ok_of_invariant (I := fun u : Progress K => s.tracks.length ≤ u.tracks.length)
      (fun u hu d hd => ?_) hl₁.ge
    refine ⟨_, bind_eq_ok.mpr ⟨_, readAt_of_lt (hdet d (List.mem_append_right _ hd)), rfl⟩, ?_⟩
    rw [List.length_append]
    omega
  obtain ⟨u₂, h₂, hl₂⟩ := hstarted
  have hmissed : ∃ tracks, updateEach Fault.outOfRange id (fun _ => .ok (markMiss s.params))
      m.iou.unmatchedTracks u₂.tracks = .ok tracks :=
    updateEach_ok fun t ht =>
      ⟨⟨_, rfl⟩, lt_of_lt_of_le (hM.lt_length (List.mem_append_right _ ht)) hl₂⟩
  obtain ⟨tracks, h₃⟩ := hmissed
  exact ⟨_, bind_eq_ok.mpr ⟨u₁, h₁, bind_eq_ok.mpr ⟨u₂, h₂, bind_eq_ok.mpr ⟨tracks, h₃, rfl⟩⟩⟩⟩

/-- A frame with tracks throws just when its cascade does. -/
theorem updateFrame_ok_iff (hs : s.tracks ≠ []) :
    (∃ out, (updateFrame algo s detects).2 = .ok out) ↔
      ∃ r, frameCascade algo s (resetMolds detects) = .ok r := by
  have hne : ¬s.tracks.isEmpty := fun he => hs (List.isEmpty_iff.mp he)
  rw [← matchFrame_ok_iff]
  unfold updateFrame
  simp only [if_neg hne]
  constructor
  · rintro ⟨out, hout⟩
    rcases hp : processFrame algo s (resetMolds detects) with ⟨e, ts⟩ | u
    · simp [hp] at hout
    · obtain ⟨m, hm, -⟩ := processFrame_eq_ok hp
      exact ⟨m, hm⟩
  · rintro ⟨m, hm⟩
    obtain ⟨u, hu⟩ := applyMatches_ok hm s.nextId
    have hp : processFrame algo s (resetMolds detects) = .ok u := by
      unfold processFrame
      rw [show matchFrame algo s.params (resetMolds detects) s.tracks = (.ok m, _) from Prod.ext hm rfl]
      simp only [hu]
    rw [hp]
    exact ⟨_, rfl⟩

/-- The frame does not throw. -/
def Returns (algo : MatchAlgorithm K) (s : FeatureMatchPrivate K) (detects : List (DetectObject K)) :
    Prop :=
  ∃ out, (updateFrame algo s detects).2 = .ok out

omit [Field K] [LinearOrder K] [IsStrictOrderedRing K] in
theorem forall_mem_resetMolds [Field K] {P : DetectObject K → Prop}
    (hP : ∀ det, P { det with featMold := -1 } ↔ P det) :
    (∀ det ∈ resetMolds detects, P det) ↔ ∀ det ∈ detects, P det := by
  unfold resetMolds
  rw [List.forall_mem_map]
  exact forall₂_congr fun det _ => hP det

theorem Comparable.returns (h : Comparable s detects) : Returns algo s detects := by
  by_cases hs : s.tracks = []
  · refine ⟨(firstEnter s (resetMolds detects)).2, ?_⟩
    unfold updateFrame
    simp only [if_pos (List.isEmpty_iff.mpr hs)]
  · refine (updateFrame_ok_iff hs).mpr (frameCascade_ok fun track hmem hin => ?_)
    exact (forall_mem_resetMolds (P := CanCompare track) fun _ => Iff.rfl).mpr (h track hmem hin)

theorem Returns.canCompare (h : Returns algo s detects) {track : FeatureMatchTrackObject K}
    (hmem : track ∈ s.tracks) (hin : InRounds s.params track)
    (hmin : ∀ track' ∈ s.tracks, InRounds s.params track' →
      track.timeSinceLastUpdate ≤ track'.timeSinceLastUpdate) :
    ∀ det ∈ detects, CanCompare track det := by
  obtain ⟨r, hr⟩ := (updateFrame_ok_iff (List.ne_nil_of_mem hmem)).mp h
  exact (forall_mem_resetMolds (P := CanCompare track) fun _ => Iff.rfl).mp
    (frameCascade_youngest hr hmem hin hmin)

/-! ## Runs -/

/-- A condition holds of the state and the detections at each frame of the calls. -/
def EachFrame (algo : MatchAlgorithm K)
    (Q : FeatureMatchPrivate K → List (DetectObject K) → Prop) :
    FeatureMatchPrivate K → List (Call K) → Prop
  | _, [] => True
  | s, c :: cs => (∀ detects, c = .updateFrame detects → Q s detects) ∧
      EachFrame algo Q (call algo s c).1 cs

theorem EachFrame.imp {Q Q' : FeatureMatchPrivate K → List (DetectObject K) → Prop}
    (hQ : ∀ s detects, Q s detects → Q' s detects) {cs : List (Call K)} :
    ∀ {s : FeatureMatchPrivate K}, EachFrame algo Q s cs → EachFrame algo Q' s cs := by
  induction cs with
  | nil => exact fun _ => trivial
  | cons c cs ih =>
    rintro s ⟨hc, hcs⟩
    exact ⟨fun detects hd => hQ s detects (hc detects hd), ih hcs⟩

/--
**No frame throws as long as the features that meet have one length.**

Conversely, a frame that does not throw has compared the tracks missed for the fewest frames with
every detection.
-/
theorem calls_return (s : FeatureMatchPrivate K) :
    (∀ cs : List (Call K), EachFrame algo Comparable s cs → EachFrame algo (Returns algo) s cs) ∧
    ∀ detects, Returns algo s detects → ∀ track ∈ s.tracks, InRounds s.params track →
      (∀ track' ∈ s.tracks, InRounds s.params track' →
        track.timeSinceLastUpdate ≤ track'.timeSinceLastUpdate) →
      ∀ det ∈ detects, CanCompare track det :=
  ⟨fun _ => EachFrame.imp fun _ _ => Comparable.returns,
    fun _ h _ hmem hin hmin => h.canCompare hmem hin hmin⟩

/-- Calls that confirm a track with a feature, then a frame with a featureless detection. -/
def mixedCalls : List (Call ℚ) :=
  sampleCalls ++ [.updateFrame [{ sampleDetect with feature := [] }]]

/-- The track of `sampleCalls` has features of length 1, and its next frame throws. -/
theorem mixed_frame :
    (∀ track ∈ (run (munkres ratSqrt) initial sampleCalls).tracks,
      ∀ f ∈ track.features, f.vec.length = 1) ∧
    ((updateFrame (munkres ratSqrt) (run (munkres ratSqrt) initial sampleCalls)
      [{ sampleDetect with feature := [] }]).2.toOption).isNone = true := by
  decide +kernel

/-- The frame with the featureless detection throws. -/
theorem mixed_lengths_throw : ¬∀ (n : Nat) (cs : List (Call ℚ)),
    (∀ detects, Call.updateFrame detects ∈ cs → ∀ det ∈ detects,
      det.feature = [] ∨ det.feature.length = n) →
    EachFrame (munkres ratSqrt) (Returns (munkres ratSqrt)) initial cs := by
  intro h
  have hcs : ∀ detects, Call.updateFrame detects ∈ mixedCalls → ∀ det ∈ detects,
      det.feature = [] ∨ det.feature.length = 1 := by
    intro detects hmem det hdet
    simp only [mixedCalls, sampleCalls, List.cons_append, List.nil_append, List.mem_cons,
      Call.updateFrame.injEq, reduceCtorEq, List.not_mem_nil, false_or, or_false] at hmem
    rcases hmem with rfl | rfl | rfl
    · exact Or.inr (List.mem_singleton.mp hdet ▸ rfl)
    · exact Or.inr (List.mem_singleton.mp hdet ▸ rfl)
    · exact Or.inl (List.mem_singleton.mp hdet ▸ rfl)
  obtain ⟨-, -, -, hlast, -⟩ := h 1 mixedCalls hcs
  obtain ⟨out, hout⟩ := hlast _ rfl
  have hthrow := mixed_frame.2
  have hout' : (updateFrame (munkres ratSqrt) (run (munkres ratSqrt) initial sampleCalls)
      [{ sampleDetect with feature := [] }]).2 = .ok out := hout
  rw [hout'] at hthrow
  exact Bool.noConfusion hthrow

/-- The feature of the track meets one of its length. -/
theorem calls_return_sample :
    EachFrame (munkres ratSqrt) (Returns (munkres ratSqrt))
      (run (munkres ratSqrt) initial sampleCalls) [.updateFrame [sampleDetect]] := by
  refine (calls_return _).1 _ ⟨fun detects h track ht _ det hdet => ?_, trivial⟩
  obtain rfl := Call.updateFrame.inj h
  obtain rfl := List.mem_singleton.mp hdet
  exact mixed_frame.1 track ht

end CambriconGst.TrackFm
