import Mathlib.Tactic.NormNum.OfScientific
import CambriconGst.Properties.MatchAlgorithm
import CambriconGst.Properties.TrackFmView

/-!
# The matching of a frame

* `matchFrame_spec`: the cascade and the IoU stage together match or leave every detection, once,
  and match no track twice
* `matchFrame_gated`: what they match is within the limits
-/

namespace CambriconGst.TrackFm

open Lib Easytrack

variable {K : Type} {ts : List (FeatureMatchTrackObject K)}

/-! ## The tracks of the cascade -/

theorem mem_confirmedTracks {tracks : List (FeatureMatchTrackObject K)} {i : Nat} :
    i ∈ confirmedTracks tracks ↔
      ∃ track, tracks[i]? = some track ∧ track.state = .confirmed ∧ track.hasFeature = true := by
  unfold confirmedTracks
  rw [List.mem_filter, List.mem_range, Option.any_eq_true]
  constructor
  · rintro ⟨-, track, ht, hc⟩
    exact ⟨track, ht, of_decide_eq_true hc⟩
  · rintro ⟨track, ht, hc⟩
    exact ⟨(List.getElem?_eq_some_iff.mp ht).1, track, ht, decide_eq_true hc⟩

theorem mem_unconfirmedTracks {tracks : List (FeatureMatchTrackObject K)} {i : Nat} :
    i ∈ unconfirmedTracks tracks ↔ i < tracks.length ∧ i ∉ confirmedTracks tracks := by
  unfold unconfirmedTracks confirmedTracks
  simp only [List.mem_filter, List.mem_range, decide_eq_true_eq]
  exact and_congr_right fun hi => by rw [not_and, forall_prop_of_true hi]

theorem nodup_ageTrackIndices {confirmed : List Nat} (h : confirmed.Nodup) (age : Nat) :
    (ageTrackIndices ts confirmed age).Nodup :=
  h.filter _

theorem mem_ageTrackIndices {confirmed : List Nat} {age t : Nat} :
    t ∈ ageTrackIndices ts confirmed age ↔ t ∈ confirmed ∧
      ∃ track, ts[t]? = some track ∧ (track.timeSinceLastUpdate : Int) - 1 = age := by
  unfold ageTrackIndices
  rw [List.mem_filter, Option.any_eq_true]
  exact and_congr_right fun _ => exists_congr fun _ => and_congr_right fun _ => decide_eq_true_iff

theorem disjoint_ageTrackIndices {confirmed : List Nat} {age age' : Nat} (h : age ≠ age') :
    (ageTrackIndices ts confirmed age).Disjoint (ageTrackIndices ts confirmed age') := by
  intro t ht ht'
  obtain ⟨-, track, hget, ha⟩ := mem_ageTrackIndices.mp ht
  obtain ⟨-, track', hget', ha'⟩ := mem_ageTrackIndices.mp ht'
  obtain rfl : track = track' := Option.some.inj (hget.symm.trans hget')
  omega

theorem nodup_confirmedTracks {tracks : List (FeatureMatchTrackObject K)} :
    (confirmedTracks tracks).Nodup :=
  List.nodup_range.filter _

/-! ## Give first missed objects a chance -/

theorem markMiss_of_not {p : Params K} {track : FeatureMatchTrackObject K}
    (hs : track.state ≠ .tentative) (ha : (track.timeSinceLastUpdate : Int) ≤ p.maxAge) :
    markMiss p track = track := by
  unfold markMiss
  rw [if_neg]
  rintro (h | h)
  · exact hs h
  · omega

/-- The tracks missed for the first time. -/
def chances (ts : List (FeatureMatchTrackObject K)) (idxs : List Nat) : List Nat :=
  idxs.filter fun i => ts[i]?.any fun track => track.timeSinceLastUpdate = 1

/-- No track is deleted that is confirmed and not too old. -/
theorem giveChance_spec {p : Params K} {idxs : List Nat} : ∀ {acc : List Nat},
    (∀ i ∈ idxs, ∃ track, ts[i]? = some track ∧ track.state ≠ .tentative ∧
      (track.timeSinceLastUpdate : Int) ≤ p.maxAge) →
    (giveChance p idxs acc).exec ts = (.ok (acc ++ chances ts idxs), ts) := by
  unfold chances
  induction idxs with
  | nil =>
    intro acc _
    rw [List.filter_nil, List.append_nil]
    rfl
  | cons idx idxs ih =>
    intro acc hidx
    obtain ⟨track, ht, hs, ha⟩ := hidx idx List.mem_cons_self
    have hrest := fun i hi => hidx i (List.mem_cons_of_mem _ hi)
    have hread : readAt Fault.outOfRange ts idx = .ok track := readAt_eq_ok.mpr ht
    have hlook : (Attempt.look fun tracks => readAt Fault.outOfRange tracks idx).exec ts =
        (Except.ok track, ts) := by
      rw [Attempt.exec_look, hread]
    rw [giveChance, Attempt.exec_bind_ok hlook]
    by_cases h1 : track.timeSinceLastUpdate = 1
    · rw [if_pos h1, ih hrest, List.filter_cons_of_pos (by simp [ht, h1]), List.append_assoc]
      rfl
    · have hstep : (onTrack idx fun track => (.ok (), markMiss p track)).exec ts
          = (Except.ok (), ts) := by
        rw [onTrack, Attempt.exec_ofExec, hread]
        obtain ⟨hlt, rfl⟩ := List.getElem?_eq_some_iff.mp ht
        show (Except.ok (), ts.set idx (markMiss p ts[idx])) = (Except.ok (), ts)
        rw [markMiss_of_not hs ha, List.set_getElem_self]
      rw [if_neg h1, Attempt.exec_bind_ok hstep, ih hrest,
        List.filter_cons_of_neg (by simp [ht, h1])]

variable [Field K] [LinearOrder K] [IsStrictOrderedRing K]

variable {algo : MatchAlgorithm K} {p : Params K}

/-! ## A round of the cascade -/

theorem gatedCost_le_iff {distance gatingDist : K} :
    gatedCost p distance gatingDist ≤ p.maxCosineDistance ↔
      distance ≤ p.maxCosineDistance ∧ gatingDist ≤ gatingThreshold := by
  unfold gatedCost
  by_cases h : distance > p.maxCosineDistance ∨ gatingDist > gatingThreshold
  · have hpos : (0 : K) < 1e-5 := by norm_num
    rw [if_pos h, add_le_iff_nonpos_right]
    constructor
    · intro hle
      exact absurd hpos (not_lt.mpr hle)
    · rintro ⟨hd, hg⟩
      rcases h with h | h
      · exact absurd hd (not_le.mpr h)
      · exact absurd hg (not_le.mpr h)
  · rw [if_neg h]
    rw [not_or, not_lt, not_lt] at h
    exact ⟨fun _ => h, fun h => h.1⟩

/-- The feature distance and the gating distance of a track and a detection are within the limits. -/
def FeatureGated (algo : MatchAlgorithm K) (p : Params K) (track : FeatureMatchTrackObject K)
    (det : DetectObject K) : Prop :=
  (∃ distance, (cosineDistance algo.sqrt track.features ⟨det.feature, det.featMold⟩).1
      = .ok distance ∧ distance ≤ p.maxCosineDistance) ∧
    ∃ gatingDist, (track.kf.gatingDistance [toXyah det.bbox]).2 = [gatingDist] ∧
      gatingDist ≤ gatingThreshold

/-- The entries of a row. -/
theorem rowOf_entry {columns : List (DetectObject K)} {idx : Nat} {row : List K}
    (h : rowOf algo p columns idx ts = .ok row) :
    row.length = columns.length ∧ ∃ track, ts[idx]? = some track ∧
      ∀ (j : Nat) (c : K), row[j]? = some c → ∃ det, columns[j]? = some det ∧
        (c ≤ p.maxCosineDistance → FeatureGated algo p track det) := by
  obtain ⟨gate, hgate, h⟩ := bind_eq_ok.mp h
  obtain ⟨track, ht, hgate⟩ := bind_eq_ok.mp hgate
  obtain rfl := Except.ok.inj hgate
  refine ⟨?_, track, readAt_eq_ok.mp ht, fun j c hc => ?_⟩
  · rw [mapM_length h]
    simp [KalmanFilter.gatingDistance]
  · obtain ⟨⟨det, g⟩, hdg, he⟩ := mapM_getElem? h hc
    obtain ⟨hdet, hg⟩ := List.getElem?_zip_eq_some.mp hdg
    refine ⟨det, hdet, fun hle => ?_⟩
    obtain ⟨distance, hd, he⟩ := bind_eq_ok.mp he
    obtain ⟨track', ht', hd⟩ := bind_eq_ok.mp hd
    obtain rfl : track = track' := Except.ok.inj (ht.symm.trans ht')
    obtain rfl := Except.ok.inj he
    obtain ⟨hdle, hgle⟩ := gatedCost_le_iff.mp hle
    refine ⟨⟨distance, hd, hdle⟩, g, ?_, hgle⟩
    simp only [KalmanFilter.gatingDistance, List.getElem?_map, hdet, Option.map_some,
      Option.some.injEq] at hg
    rw [← hg]
    rfl

/-- The detection and the track at two indices are within the limits of the cascade. -/
def CascadeFit (algo : MatchAlgorithm K) (p : Params K) (detects : List (DetectObject K))
    (ts : List (FeatureMatchTrackObject K)) (d t : Nat) : Prop :=
  ∃ det track, detects[d]? = some det ∧ ts[t]? = some track ∧ FeatureGated algo p track det

theorem roundOf_matching {detects : List (DetectObject K)} {trackIndices unmatched : List Nat}
    {res : MatchResult} (h : roundOf algo p detects trackIndices unmatched ts = .ok res)
    (hd : unmatched.Nodup) (ht : trackIndices.Nodup) :
    Matching (CascadeFit algo p detects ts) unmatched trackIndices res := by
  obtain ⟨columns, hcol, h⟩ := bind_eq_ok.mp h
  obtain ⟨rows, hrow, h⟩ := bind_eq_ok.mp h
  have hlen : rows.length = trackIndices.length := mapM_length hrow
  refine (arrange_matching h (algo.valid _) hlen hd ht).imp ?_
  rintro d t ⟨i, j, ⟨c, hc, hle⟩, hdj, hti⟩
  obtain ⟨hi, hj, hc⟩ := CostMatrix.read_eq_ok.mp hc
  have hi' : i < rows.length := hi
  obtain ⟨idx, hidx, hr⟩ := mapM_getElem? hrow (List.getElem?_eq_getElem hi')
  obtain rfl : t = idx := Option.some.inj (hti.symm.trans hidx)
  obtain ⟨hl, track, htrack, hentry⟩ := rowOf_entry hr
  have hj' : j < rows[i].length := by
    rw [hl, mapM_length hcol]
    exact hj
  have hget : rows[i][j]? = some c := by
    rw [← hc]
    show _ = some ((rows[i][j]?).getD 0)
    rw [List.getElem?_eq_getElem hj']
    rfl
  obtain ⟨det, hdet, hgate⟩ := hentry j c hget
  obtain ⟨u, hu, hread⟩ := mapM_getElem? hcol hdet
  obtain rfl : d = u := Option.some.inj (hdj.symm.trans hu)
  exact ⟨det, track, readAt_eq_ok.mp hread, htrack, hgate hle⟩

/-! ## All rounds -/

theorem matching_addRound {Fit : Nat → Nat → Prop} {D T T' : List Nat} {res res' : MatchResult}
    (h : Matching Fit D T res) (h' : Matching Fit res.unmatchedDetections T' res') :
    Matching Fit D (T ++ T') (addRound res res') := by
  refine ⟨h.detections_append h', h.tracks_append h', fun d t hm => ?_⟩
  rcases List.mem_append.mp hm with hm | hm
  · exact h.fit d t hm
  · exact h'.fit d t hm

theorem addRound_assoc (a b c : MatchResult) :
    addRound (addRound a b) c = addRound a (addRound b c) := by
  simp [addRound]

/-- The rounds add a matching with tracks of their ages. -/
theorem roundsOf_matching {detects : List (DetectObject K)} {aged : Nat → List Nat}
    (haged : ∀ age, (aged age).Nodup)
    (hdisj : ∀ age age', age ≠ age' → (aged age).Disjoint (aged age')) {ages : List Nat} :
    ∀ {res res' : MatchResult}, roundsOf algo p detects aged ages res ts = .ok res' →
      ages.Nodup → res.unmatchedDetections.Nodup →
      ∃ T added, Matching (CascadeFit algo p detects ts) res.unmatchedDetections T added ∧
        res' = addRound res added ∧ T.Nodup ∧ ∀ t ∈ T, ∃ age ∈ ages, t ∈ aged age := by
  induction ages with
  | nil =>
    intro res res' h _ _
    obtain rfl := Except.ok.inj h
    exact ⟨[], _, .nothing _, by simp [addRound], List.nodup_nil, by simp⟩
  | cons age ages ih =>
    intro res res' h hages hd
    obtain ⟨hage, hages⟩ := List.nodup_cons.mp hages
    rw [roundsOf] at h
    split at h
    · obtain rfl := Except.ok.inj h
      exact ⟨[], _, .nothing _, by simp [addRound], List.nodup_nil, by simp⟩
    split at h
    · obtain ⟨T, added, hM, he, hT, hmem⟩ := ih h hages hd
      refine ⟨T, added, hM, he, hT, fun t ht => ?_⟩
      obtain ⟨a, ha, hta⟩ := hmem t ht
      exact ⟨a, List.mem_cons_of_mem _ ha, hta⟩
    · obtain ⟨round, hround, h⟩ := bind_eq_ok.mp h
      have hR := roundOf_matching hround hd (haged age)
      have hd' : round.unmatchedDetections.Nodup :=
        (List.nodup_append.mp (hR.detections.nodup_iff.mpr hd)).2.1
      obtain ⟨T, added, hM, rfl, hT, hmem⟩ := ih h hages hd'
      refine ⟨aged age ++ T, addRound round added, matching_addRound hR hM, addRound_assoc _ _ _, ?_, ?_⟩
      · refine List.nodup_append.mpr ⟨haged age, hT, fun t ht t' ht' he => ?_⟩
        obtain ⟨a, ha, hta⟩ := hmem t' ht'
        have hne : age ≠ a := fun he => hage (he ▸ ha)
        exact hdisj age a hne ht (he ▸ hta)
      · intro t ht
        rcases List.mem_append.mp ht with ht | ht
        · exact ⟨age, List.mem_cons_self, ht⟩
        · obtain ⟨a, ha, hta⟩ := hmem t ht
          exact ⟨a, List.mem_cons_of_mem _ ha, hta⟩

/-! ## Settled tracks -/

theorem featureGated_settled {track : FeatureMatchTrackObject K} {det : DetectObject K} :
    FeatureGated algo p (settled algo.sqrt track) det ↔ FeatureGated algo p track det := by
  have hgate : (settled algo.sqrt track).kf.gatingDistance [toXyah det.bbox] =
      track.kf.gatingDistance [toXyah det.bbox] := by
    simp only [KalmanFilter.gatingDistance, settled, project_project]
  unfold FeatureGated
  rw [hgate, settled, cosineDistance_cache]

theorem cascadeFit_settled {detects : List (DetectObject K)} {d t : Nat}
    (h : CascadeFit algo p detects (ts.map (settled algo.sqrt)) d t) :
    CascadeFit algo p detects ts d t := by
  obtain ⟨det, track, hd, ht, hg⟩ := h
  rw [List.getElem?_map] at ht
  obtain ⟨track', ht', rfl⟩ := Option.map_eq_some_iff.mp ht
  exact ⟨det, track', hd, ht', featureGated_settled.mp hg⟩

/-! ## The cascade -/

/-- The tracks `T` are in the cascade: confirmed, and not older than the limit. -/
def InCascade (p : Params K) (ts : List (FeatureMatchTrackObject K)) (confirmed T : List Nat) :
    Prop :=
  T.Nodup ∧ ∀ t ∈ T, t ∈ confirmed ∧
    ∃ track, ts[t]? = some track ∧ (track.timeSinceLastUpdate : Int) ≤ p.maxAge

theorem matchCascade_spec {detects detects' : List (DetectObject K)} {confirmed : List Nat}
    {ts' : List (FeatureMatchTrackObject K)} {res : MatchResult} (hc : confirmed.Nodup)
    (h : (matchCascade algo p detects confirmed).exec ts = (.ok (detects', res), ts')) :
    ts'.map (settled algo.sqrt) = ts.map (settled algo.sqrt) ∧
      (detects' = detects ∨ detects' = normed algo detects) ∧
      ∃ T, Matching (CascadeFit algo p (normed algo detects) ts) (List.range detects.length) T res ∧
        InCascade p ts confirmed T := by
  obtain ⟨hof, hset⟩ := (matchCascade_simulates detects confirmed).eq_ok h
  refine ⟨hset, ?_⟩
  unfold cascadeOf at hof
  split at hof
  · obtain ⟨rfl, rfl⟩ := Prod.mk.inj (Except.ok.inj hof)
    exact ⟨Or.inl rfl, [], .nothing _, List.nodup_nil, by simp⟩
  · obtain ⟨res', hres, hof⟩ := bind_eq_ok.mp hof
    obtain ⟨rfl, rfl⟩ := Prod.mk.inj (Except.ok.inj hof)
    rw [ageTrackIndices_settled] at hres
    obtain ⟨T, added, hM, rfl, hT, hmem⟩ := roundsOf_matching (nodup_ageTrackIndices hc)
      (fun _ _ => disjoint_ageTrackIndices) hres List.nodup_range List.nodup_range
    refine ⟨Or.inr rfl, T, hM.imp fun _ _ => cascadeFit_settled, hT, fun t ht => ?_⟩
    obtain ⟨age, hage, hta⟩ := hmem t ht
    obtain ⟨htc, track, htrack, ha⟩ := mem_ageTrackIndices.mp hta
    rw [List.mem_range] at hage
    exact ⟨htc, track, htrack, by omega⟩

/-! ## The IoU stage -/

/-- The boxes of the detection and the track at two indices are within the limit. -/
def IouFit (p : Params K) (detects : List (DetectObject K)) (ts : List (FeatureMatchTrackObject K))
    (d t : Nat) : Prop :=
  ∃ det track, detects[d]? = some det ∧ ts[t]? = some track ∧
    1 - iou (boundingBox2Rect det.bbox) track.pos ≤ p.maxIouDistance

theorem matchIou_matching {detects : List (DetectObject K)} {detectIndices trackIndices : List Nat}
    {res : MatchResult} (h : matchIou algo p detects detectIndices trackIndices ts = .ok res)
    (hd : detectIndices.Nodup) (ht : trackIndices.Nodup) :
    Matching (IouFit p detects ts) detectIndices trackIndices res := by
  unfold matchIou at h
  split at h
  · next he =>
    obtain rfl := Except.ok.inj h
    obtain rfl := List.isEmpty_iff.mp he
    exact ⟨by simp, by simp, by simp⟩
  split at h
  · next he =>
    obtain rfl := Except.ok.inj h
    obtain rfl := List.isEmpty_iff.mp he
    exact .nothing _
  · obtain ⟨dets, hdets, h⟩ := bind_eq_ok.mp h
    obtain ⟨tras, htras, h⟩ := bind_eq_ok.mp h
    have hrows : (tras.map (·.pos)).length = trackIndices.length := by
      rw [List.length_map, mapM_length htras]
    refine (arrange_matching h (algo.valid _) hrows hd ht).imp ?_
    rintro d t ⟨i, j, ⟨c, hc, hle⟩, hdj, hti⟩
    obtain ⟨hi, hj, rfl⟩ := CostMatrix.read_eq_ok.mp hc
    have hi' : i < tras.length := by simpa [iouCost] using hi
    have hj' : j < dets.length := by simpa [iouCost] using hj
    obtain ⟨t', ht', htrack⟩ := mapM_getElem? htras (List.getElem?_eq_getElem hi')
    obtain ⟨d', hd', hdet⟩ := mapM_getElem? hdets (List.getElem?_eq_getElem hj')
    obtain rfl : t = t' := Option.some.inj (hti.symm.trans ht')
    obtain rfl : d = d' := Option.some.inj (hdj.symm.trans hd')
    refine ⟨dets[j], tras[i], readAt_eq_ok.mp hdet, readAt_eq_ok.mp htrack, ?_⟩
    simpa [iouCost] using hle

/-! ## The whole matching -/

variable {tracks : List (FeatureMatchTrackObject K)} {detects : List (DetectObject K)}

omit [LinearOrder K] [IsStrictOrderedRing K] in
theorem predictTrack_getElem? {i : Nat} {track : FeatureMatchTrackObject K}
    (h : (tracks.map predictTrack)[i]? = some track) :
    ∃ t, tracks[i]? = some t ∧ predictTrack t = track := by
  rw [List.getElem?_map] at h
  exact Option.map_eq_some_iff.mp h

omit [IsStrictOrderedRing K] in
/-- The cascade leaves no track unmatched that a miss deletes. -/
theorem inCascade_unmatched {ts' : List (FeatureMatchTrackObject K)} {T : List Nat}
    (hset : ts'.map (settled algo.sqrt) = (tracks.map predictTrack).map (settled algo.sqrt))
    (hT : InCascade p (tracks.map predictTrack) (confirmedTracks tracks) T) :
    ∀ i ∈ T, ∃ track, ts'[i]? = some track ∧ track.state ≠ .tentative ∧
      (track.timeSinceLastUpdate : Int) ≤ p.maxAge := by
  intro i hi
  obtain ⟨hc, track, ht, ha⟩ := hT.2 i hi
  obtain ⟨t₀, ht₀, hs, -⟩ := mem_confirmedTracks.mp hc
  obtain ⟨t, ht', he⟩ := settled_getElem? hset.symm ht
  have hal := alike_of_settled he
  obtain ⟨t₁, ht₁, rfl⟩ := predictTrack_getElem? ht
  obtain rfl : t₀ = t₁ := Option.some.inj (ht₀.symm.trans ht₁)
  refine ⟨t, ht', ?_, hal.timeSinceLastUpdate ▸ ha⟩
  rw [hal.state]
  show t₀.state ≠ .tentative
  rw [hs]
  exact TrackState.noConfusion

/-- After the cascade the tracks stay as they are, and what remains is matched by IoU. -/
theorem matchFrame_of_cascade {detects' : List (DetectObject K)} {cascade : MatchResult}
    {ts' : List (FeatureMatchTrackObject K)}
    (h : (matchCascade algo p detects (confirmedTracks tracks)).exec (tracks.map predictTrack)
      = (.ok (detects', cascade), ts')) :
    matchFrame algo p detects tracks =
      ((matchIou algo p detects' cascade.unmatchedDetections
        (unconfirmedTracks tracks ++ chances ts' cascade.unmatchedTracks) ts').bind
          fun iou => .ok { detects := detects', cascade, iou }, ts') := by
  obtain ⟨hset, -, T, hM, hT⟩ := matchCascade_spec nodup_confirmedTracks h
  have hsub : ∀ i ∈ cascade.unmatchedTracks, i ∈ T := fun i hi =>
    hM.tracks.mem_iff.mp (List.mem_append_right _ hi)
  unfold matchFrame matchTracks
  rw [Attempt.exec_bind_ok h]
  show Attempt.exec (giveChance p cascade.unmatchedTracks (unconfirmedTracks tracks) >>= _) ts' = _
  rw [Attempt.exec_bind_ok (giveChance_spec fun i hi => inCascade_unmatched hset hT i (hsub i hi))]
  cases hiou : matchIou algo p detects' cascade.unmatchedDetections
      (unconfirmedTracks tracks ++ chances ts' cascade.unmatchedTracks) ts' with
  | error e => rw [Attempt.exec_bind_error (by rw [Attempt.exec_look, hiou])]; rfl
  | ok iou => rw [Attempt.exec_bind_ok (by rw [Attempt.exec_look, hiou])]; rfl

/-- **The matching fills caches of the predicted tracks and leaves the rest, also when it throws.** -/
theorem matchFrame_settled (algo : MatchAlgorithm K) (p : Params K)
    (detects : List (DetectObject K)) (tracks : List (FeatureMatchTrackObject K)) :
    (matchFrame algo p detects tracks).2.map (settled algo.sqrt)
      = (tracks.map predictTrack).map (settled algo.sqrt) := by
  have hsim : Attempt.Simulates (List.map (settled algo.sqrt))
      (matchCascade algo p detects (confirmedTracks tracks)) _ := matchCascade_simulates _ _
  rcases h : (matchCascade algo p detects (confirmedTracks tracks)).exec (tracks.map predictTrack)
    with ⟨e | ⟨detects', cascade⟩, ts'⟩
  · unfold matchFrame matchTracks
    rw [Attempt.exec_bind_error h]
    have := (hsim (tracks.map predictTrack)).2
    rwa [h] at this
  · rw [matchFrame_of_cascade h]
    exact (matchCascade_spec nodup_confirmedTracks h).1

/--
What the matching of a frame returns, with the tracks `T` of the cascade and those that are given
a chance by IoU.
-/
structure FrameMatching (algo : MatchAlgorithm K) (p : Params K) (detects : List (DetectObject K))
    (tracks : List (FeatureMatchTrackObject K)) (m : Matches K) (T chance : List Nat) : Prop where
  norms : m.detects = detects ∨ m.detects = normed algo detects
  inCascade : InCascade p (tracks.map predictTrack) (confirmedTracks tracks) T
  again : chance.Sublist m.cascade.unmatchedTracks
  byFeature : Matching (CascadeFit algo p (normed algo detects) (tracks.map predictTrack))
    (List.range detects.length) T m.cascade
  byIou : Matching (IouFit p detects (tracks.map predictTrack)) m.cascade.unmatchedDetections
    (unconfirmedTracks tracks ++ chance) m.iou

/-- The pairs of both stages. -/
abbrev Matches.pairs (m : Matches K) : List (Nat × Nat) :=
  m.cascade.matched ++ m.iou.matched

omit [IsStrictOrderedRing K] in
theorem iouFit_settled {detects' : List (DetectObject K)}
    (hn : detects' = detects ∨ detects' = normed algo detects)
    {ts' : List (FeatureMatchTrackObject K)}
    (hset : ts'.map (settled algo.sqrt) = ts.map (settled algo.sqrt)) {d t : Nat}
    (h : IouFit p detects' ts' d t) : IouFit p detects ts d t := by
  obtain ⟨det, track, hd, ht, hle⟩ := h
  obtain ⟨track', ht', he⟩ := settled_getElem? hset ht
  have hdet : ∃ det', detects[d]? = some det' ∧ det'.bbox = det.bbox := by
    rcases hn with rfl | rfl
    · exact ⟨det, hd, rfl⟩
    · rw [normed, List.getElem?_map] at hd
      obtain ⟨det', hd', rfl⟩ := Option.map_eq_some_iff.mp hd
      exact ⟨det', hd', rfl⟩
  obtain ⟨det', hd', hb⟩ := hdet
  exact ⟨det', track', hd', ht', by rw [hb, (alike_of_settled he).pos]; exact hle⟩

omit [Field K] [LinearOrder K] [IsStrictOrderedRing K] in
theorem nodup_iouTracks {T chance unmatched matched : List Nat}
    (hT : InCascade p ts (confirmedTracks tracks) T) (hperm : (matched ++ unmatched).Perm T)
    (hc : chance.Sublist unmatched) :
    (matched ++ (unconfirmedTracks tracks ++ chance)).Nodup := by
  have hnd : (matched ++ unmatched).Nodup := hperm.nodup_iff.mpr hT.1
  have hmc : (matched ++ chance).Nodup := hnd.sublist (hc.append_left matched)
  have hconf : ∀ t ∈ matched ++ chance, t ∈ confirmedTracks tracks := fun t ht =>
    (hT.2 t (hperm.mem_iff.mp ((hc.append_left matched).subset ht))).1
  refine (List.perm_append_comm_assoc _ _ _).nodup_iff.mpr (List.nodup_append.mpr ⟨?_, hmc, ?_⟩)
  · exact List.nodup_range.filter _
  · rintro t hu t' ht' rfl
    exact (mem_unconfirmedTracks.mp hu).2 (hconf t ht')

/-- **The matching of a frame.** -/
theorem matchFrame_spec {m : Matches K} {ts' : List (FeatureMatchTrackObject K)}
    (h : matchFrame algo p detects tracks = (.ok m, ts')) :
    ∃ T chance, FrameMatching algo p detects tracks m T chance := by
  rcases hcas : (matchCascade algo p detects (confirmedTracks tracks)).exec
    (tracks.map predictTrack) with ⟨e | ⟨detects', cascade⟩, ts₁⟩
  · unfold matchFrame matchTracks at h
    rw [Attempt.exec_bind_error hcas] at h
    simp at h
  · rw [matchFrame_of_cascade hcas] at h
    obtain ⟨hres, rfl⟩ := Prod.mk.inj h
    obtain ⟨iou, hiou, hm⟩ := bind_eq_ok.mp hres
    obtain rfl := Except.ok.inj hm
    obtain ⟨hset, hn, T, hM, hT⟩ := matchCascade_spec nodup_confirmedTracks hcas
    have hc : (chances ts₁ cascade.unmatchedTracks).Sublist cascade.unmatchedTracks :=
      List.filter_sublist
    have hd : cascade.unmatchedDetections.Nodup :=
      (List.nodup_append.mp (hM.detections.nodup_iff.mpr List.nodup_range)).2.1
    have ht := (List.nodup_append.mp (nodup_iouTracks hT hM.tracks hc)).2.1
    exact ⟨T, _, hn, hT, hc, hM, (matchIou_matching hiou hd ht).imp fun _ _ =>
      iouFit_settled hn hset⟩

namespace FrameMatching

variable {m : Matches K} {T chance : List Nat}

/-- Every detection is matched or left, once. -/
theorem detections (h : FrameMatching algo p detects tracks m T chance) :
    (m.pairs.map Prod.fst ++ m.iou.unmatchedDetections).Perm (List.range detects.length) :=
  h.byFeature.detections_append h.byIou

theorem nodup_detections (h : FrameMatching algo p detects tracks m T chance) :
    (m.pairs.map Prod.fst).Nodup :=
  (List.nodup_append.mp (h.detections.nodup_iff.mpr List.nodup_range)).1

theorem tracks_perm (h : FrameMatching algo p detects tracks m T chance) :
    (m.pairs.map Prod.snd ++ m.iou.unmatchedTracks).Perm
      (m.cascade.matched.map Prod.snd ++ (unconfirmedTracks tracks ++ chance)) := by
  rw [List.map_append, List.append_assoc]
  exact h.byIou.tracks.append_left _

/-- No track is matched twice, or matched and missed. -/
theorem nodup_tracks (h : FrameMatching algo p detects tracks m T chance) :
    (m.pairs.map Prod.snd ++ m.iou.unmatchedTracks).Nodup :=
  h.tracks_perm.nodup_iff.mpr (nodup_iouTracks h.inCascade h.byFeature.tracks h.again)

theorem lt_length (h : FrameMatching algo p detects tracks m T chance) {t : Nat}
    (ht : t ∈ m.pairs.map Prod.snd ++ m.iou.unmatchedTracks) : t < tracks.length := by
  have hconf : ∀ t ∈ T, t < tracks.length := fun t ht => by
    obtain ⟨track, hget, -⟩ := mem_confirmedTracks.mp (h.inCascade.2 t ht).1
    exact (List.getElem?_eq_some_iff.mp hget).1
  rcases List.mem_append.mp (h.tracks_perm.mem_iff.mp ht) with ht | ht
  · exact hconf t (h.byFeature.tracks.mem_iff.mp (List.mem_append_left _ ht))
  · rcases List.mem_append.mp ht with ht | ht
    · exact (mem_unconfirmedTracks.mp ht).1
    · exact hconf t (h.byFeature.tracks.mem_iff.mp (List.mem_append_right _ (h.again.subset ht)))

/-- A track that is not in the cascade is matched or missed. -/
theorem matched_or_missed (h : FrameMatching algo p detects tracks m T chance) {t : Nat}
    (ht : t ∈ unconfirmedTracks tracks) :
    t ∈ m.pairs.map Prod.snd ∨ t ∈ m.iou.unmatchedTracks :=
  List.mem_append.mp (h.tracks_perm.mem_iff.mpr
    (List.mem_append_right _ (List.mem_append_left _ ht)))

end FrameMatching

/-! ## Gating -/

/-- The cascade has computed the norms of the detections beforehand. -/
theorem cascadeFit_normed {d t : Nat}
    (h : CascadeFit algo p (normed algo (resetMolds detects)) ts d t) :
    CascadeFit algo p (resetMolds detects) ts d t := by
  obtain ⟨det, track, hd, ht, ⟨distance, hdist, hle⟩, hgate⟩ := h
  unfold normed resetMolds at hd
  rw [List.map_map, List.getElem?_map] at hd
  obtain ⟨det', hd', rfl⟩ := Option.map_eq_some_iff.mp hd
  refine ⟨{ det' with featMold := -1 }, track, ?_, ht, ⟨distance, ?_, hle⟩, hgate⟩
  · rw [resetMolds, List.getElem?_map, hd']
    rfl
  · have hcache : (⟨det'.feature, l2Norm algo.sqrt det'.feature⟩ : Feature K) =
        Feature.cache algo.sqrt ⟨det'.feature, -1⟩ := by
      rw [Feature.cache, if_pos (by norm_num)]
    rw [← cosineDistance_cache_det, ← hcache]
    exact hdist

/--
**What a frame matches is within the limits.**

Each pair of the cascade has a feature distance of at most `maxCosineDistance` and a gating
distance of at most `gatingThreshold`, each pair of the IoU stage has boxes with 1 - IoU of at most
`maxIouDistance`; tracks are as predicted for the frame.
-/
theorem matchFrame_gated (s : FeatureMatchPrivate K) (detects : List (DetectObject K))
    {m : Matches K} (h : (matchFrame algo s.params (resetMolds detects) s.tracks).1 = .ok m) :
    (∀ d t, (d, t) ∈ m.cascade.matched →
      CascadeFit algo s.params (resetMolds detects) (s.tracks.map predictTrack) d t) ∧
    ∀ d t, (d, t) ∈ m.iou.matched →
      IouFit s.params (resetMolds detects) (s.tracks.map predictTrack) d t := by
  obtain ⟨T, chance, hM⟩ := matchFrame_spec (Prod.ext h rfl)
  exact ⟨fun d t hm => cascadeFit_normed (hM.byFeature.fit d t hm), hM.byIou.fit⟩

/-- A detection with a feature. -/
def sampleDetect : DetectObject ℚ where
  label := 0
  score := 1
  bbox := { x := 0, y := 0, width := 1, height := 1 }
  trackId := -1
  detectId := -1
  feature := [1]
  featMold := -1

/-- A confirmed track with the feature of the detection. -/
def sampleTracks : FeatureMatchPrivate ℚ :=
  { initial with
    tracks := [{ initNewTrack sampleDetect with state := .confirmed, trackId := 0 }]
    nextId := 1 }

/-- The cascade matches them. -/
theorem matchFrame_gated_sample :
    CascadeFit (munkres ratSqrt) sampleTracks.params (resetMolds [sampleDetect])
      (sampleTracks.tracks.map predictTrack) 0 0 := by
  have h : (matchFrame (munkres ratSqrt) sampleTracks.params (resetMolds [sampleDetect])
      sampleTracks.tracks).1 = .ok {
        detects := [{ sampleDetect with featMold := 1 }]
        cascade := { matched := [(0, 0)], unmatchedTracks := [], unmatchedDetections := [] }
        iou := { matched := [], unmatchedTracks := [], unmatchedDetections := [] } } := by
    decide +kernel
  exact (matchFrame_gated sampleTracks [sampleDetect] h).1 0 0 List.mem_cons_self

end CambriconGst.TrackFm
