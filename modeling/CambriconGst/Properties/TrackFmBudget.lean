import CambriconGst.Lib.Latest
import CambriconGst.Properties.TrackFmLifecycle

/-!
# The feature budget

* `frame_held`: what a frame does to the features of a track
* `sampled_suffix`: the features of a track are the last ones that were appended to it
* `feature_budget`: they are no more than the budget just when they were so before
-/

namespace CambriconGst.TrackFm

open Lib Easytrack

variable {K : Type}

/-- The features of a track that has features, without their norms. -/
def held (track : FeatureMatchTrackObject K) : Option (List (List K)) :=
  if track.hasFeature then some (track.features.map (·.vec)) else none

theorem held_markMiss (p : Params K) (track : FeatureMatchTrackObject K) :
    held (markMiss p track) = held track := by
  unfold markMiss
  split <;> rfl

variable [Field K] [LinearOrder K]

theorem held_initNewTrack (det : DetectObject K) : held (initNewTrack det) =
    if (det.feature.any fun val => val ≠ 0) = true then some [det.feature] else none := by
  unfold held initNewTrack
  by_cases h : (det.feature.any fun val => val ≠ 0) = true
  · simp only [if_pos h]
    rfl
  · simp only [if_neg h]

/-- The norms are no part of what is held. -/
theorem held_settled (sqrt : K → K) (track : FeatureMatchTrackObject K) :
    held (settled sqrt track) = held track := by
  unfold held settled
  simp only [List.map_map]
  rfl

variable [IsStrictOrderedRing K] {p : Params K}

theorem held_updateTrack (det : DetectObject K) (nextId : Nat)
    (track : FeatureMatchTrackObject K) : held (updateTrack p det nextId track) =
      (held track).map fun xs => Latest.push p.nnBudget xs det.feature := by
  have htouch : held (updateTrack p det nextId track) = held (touchTrack p det track) := by
    unfold updateTrack
    by_cases h : Confirms p (touchTrack p det track)
    · simp only [if_pos h, held]
    · simp only [if_neg h]
  rw [htouch]
  unfold held touchTrack
  by_cases h : track.hasFeature = true
  · simp only [if_pos h, Option.map_some, Option.some.injEq]
    exact Latest.push_map _
  · simp only [if_neg h, Option.map_none]

/-! ## One frame -/

section Frames

variable (algo : MatchAlgorithm K) (s : FeatureMatchPrivate K) (detects : List (DetectObject K))

/-- The feature of the detection that a frame matches with the track at an index. -/
def matchedFeature (i : Nat) : Option (List K) :=
  match (matchFrame algo s.params (resetMolds detects) s.tracks).1 with
  | .error _ => none
  | .ok m => (m.pairs.find? fun pair => pair.2 = i).bind fun pair =>
      detects[pair.1]?.map (·.feature)

/-- The detections that a frame starts tracks for, which come after those there are. -/
def newDetections : List Nat :=
  if s.tracks.isEmpty then List.range detects.length
  else
    match (matchFrame algo s.params (resetMolds detects) s.tracks).1 with
    | .error _ => []
    | .ok m => m.iou.unmatchedDetections

end Frames

variable {algo : MatchAlgorithm K} {s : FeatureMatchPrivate K} {detects out : List (DetectObject K)}

theorem matchFrame_held (algo : MatchAlgorithm K) (p : Params K) (detects : List (DetectObject K))
    {tracks : List (FeatureMatchTrackObject K)} {i : Nat} {track : FeatureMatchTrackObject K}
    (h : tracks[i]? = some track) :
    ∃ track', (matchFrame algo p detects tracks).2[i]? = some track' ∧
      held track' = held track := by
  obtain ⟨track', ht', -⟩ := exists_matchFrame_control algo p detects h
  refine ⟨track', ht', ?_⟩
  obtain ⟨pred, hpred, he⟩ := settled_getElem? (matchFrame_settled algo p detects tracks) ht'
  obtain ⟨track₀, ht₀, rfl⟩ := predictTrack_getElem? hpred
  obtain rfl : track = track₀ := Option.some.inj (h.symm.trans ht₀)
  rw [← held_settled algo.sqrt track', ← he, held_settled]
  rfl

omit [LinearOrder K] [IsStrictOrderedRing K] in
/-- Only the norms of the detections change. -/
theorem feature_of_norms {detects' : List (DetectObject K)} {d : Nat} {det : DetectObject K}
    (hn : detects' = resetMolds detects ∨ detects' = normed algo (resetMolds detects))
    (h : detects'[d]? = some det) : detects[d]?.map (·.feature) = some det.feature := by
  rcases hn with rfl | rfl
  · rw [resetMolds, List.getElem?_map] at h
    obtain ⟨det', hd, rfl⟩ := Option.map_eq_some_iff.mp h
    rw [hd]
    rfl
  · rw [normed, resetMolds, List.map_map, List.getElem?_map] at h
    obtain ⟨det', hd, rfl⟩ := Option.map_eq_some_iff.mp h
    rw [hd]
    rfl

/-- The features at the end of a frame, before dead tracks are erased. -/
structure HeldAfter (algo : MatchAlgorithm K) (s : FeatureMatchPrivate K)
    (detects : List (DetectObject K)) (u : Progress K) : Prop where
  length : u.tracks.length = s.tracks.length + (newDetections algo s detects).length
  there : ∀ i track, s.tracks[i]? = some track → ∃ after, u.tracks[i]? = some after ∧
    held after = (held track).map fun xs => ((matchedFeature algo s detects i).map fun f =>
      Latest.push s.params.nnBudget xs f).getD xs
  started : ∀ k d, (newDetections algo s detects)[k]? = some d → ∃ det after,
    detects[d]? = some det ∧ u.tracks[s.tracks.length + k]? = some after ∧
      held after = held (initNewTrack det)

theorem processFrame_held (hs : s.tracks ≠ []) {u : Progress K}
    (h : processFrame algo s (resetMolds detects) = .ok u) : HeldAfter algo s detects u := by
  obtain ⟨m, hm, ha⟩ := processFrame_eq_ok h
  obtain ⟨T, chance, hM⟩ := matchFrame_spec (Prod.ext hm rfl)
  have hn := matchFrame_length algo s.params (resetMolds detects) s.tracks
  have hA := applyMatches_applied hM.nodup_tracks (fun t ht => hn.symm ▸ hM.lt_length ht) ha
  have hne : ¬s.tracks.isEmpty := fun he => hs (List.isEmpty_iff.mp he)
  have hnew : newDetections algo s detects = m.iou.unmatchedDetections := by
    simp only [newDetections, if_neg hne, hm]
  have hmatched : ∀ i, matchedFeature algo s detects i =
      (m.pairs.find? fun pair => pair.2 = i).bind fun pair => detects[pair.1]?.map (·.feature) :=
    fun i => by simp only [matchedFeature, hm]
  refine ⟨by rw [hA.length, hn, hnew], fun i track hi => ?_, fun k d hk => ?_⟩
  · obtain ⟨track', ht', hheld⟩ := matchFrame_held algo s.params (resetMolds detects) hi
    rw [hmatched]
    cases hf : m.pairs.find? fun pair => pair.2 = i with
    | some pair =>
      obtain rfl : pair.2 = i := by simpa using List.find?_some hf
      obtain ⟨det, before, k, hd, hb, hu, -⟩ := hA.matched pair (List.mem_of_find?_eq_some hf)
      obtain rfl : track' = before := Option.some.inj (ht'.symm.trans hb)
      refine ⟨_, hu, ?_⟩
      rw [held_updateTrack, hheld, Option.bind_some, feature_of_norms hM.norms hd]
      rfl
    | none =>
      have hnot : i ∉ m.pairs.map Prod.snd := by
        rintro hi
        obtain ⟨pair, hp, rfl⟩ := List.mem_map.mp hi
        have := List.find?_eq_none.mp hf pair hp
        simp at this
      have hself : held track = (held track).map fun xs => xs := by
        rw [Option.map_id']
      by_cases hmiss : i ∈ m.iou.unmatchedTracks
      · exact ⟨_, hA.missed i track' ht' hmiss, (held_markMiss _ _).trans (hheld.trans hself)⟩
      · exact ⟨track', hA.rest i track' ht' hnot hmiss, hheld.trans hself⟩
  · rw [hnew] at hk
    obtain ⟨after, hget, det, hd, rfl⟩ := hA.started k d hk
    obtain ⟨det', hd', hf⟩ := Option.map_eq_some_iff.mp (feature_of_norms hM.norms hd)
    refine ⟨det', _, hd', hn ▸ hget, ?_⟩
    rw [held_initNewTrack, held_initNewTrack, hf]

theorem updateFrame_error {e : Fault} (h : (updateFrame algo s detects).2 = .error e) :
    survivor algo s (.updateFrame detects) = some ∧ (updateFrame algo s detects).1.tracks =
      (matchFrame algo s.params (resetMolds detects) s.tracks).2 := by
  by_cases hs : s.tracks.isEmpty
  · simp [updateFrame, firstEnter, hs] at h
  · rcases hp : processFrame algo s (resetMolds detects) with ⟨e', ts⟩ | u
    · refine ⟨?_, ?_⟩
      · funext i
        simp only [survivor, if_neg hs, hp]
      · simp only [updateFrame, if_neg hs, hp]
        exact processFrame_error hp
    · simp [updateFrame, hs, hp] at h

/-! ## One call -/

/-- The feature that a call appends to the track at an index. -/
def appendedBy (algo : MatchAlgorithm K) (s : FeatureMatchPrivate K) :
    Call K → Nat → Option (List K)
  | .setParams .., _ => none
  | .updateFrame detects, i =>
    match (updateFrame algo s detects).2 with
    | .error _ => none
    | .ok _ => matchedFeature algo s detects i

/-- **What a call does to the features of a track.** -/
theorem call_held {c : Call K} {i j : Nat} {track : FeatureMatchTrackObject K}
    (hi : s.tracks[i]? = some track) (hj : survivor algo s c i = some j) :
    ∃ after, (call algo s c).1.tracks[j]? = some after ∧
      held after = (held track).map fun xs =>
        ((appendedBy algo s c i).map fun f => Latest.push s.params.nnBudget xs f).getD xs := by
  have hself : held track = (held track).map fun xs => xs := by
    rw [Option.map_id']
  cases c with
  | setParams maxCosineDistance nnBudget maxIouDistance maxAge nInit =>
    obtain rfl := Option.some.inj hj
    exact ⟨track, hi, hself⟩
  | updateFrame detects =>
    have hs : s.tracks ≠ [] := by
      rintro hnil
      rw [hnil] at hi
      simp at hi
    rcases hr : (updateFrame algo s detects).2 with e | out
    · obtain ⟨hsurv, htracks⟩ := updateFrame_error hr
      rw [hsurv] at hj
      obtain rfl := Option.some.inj hj
      obtain ⟨track', ht', hheld⟩ := matchFrame_held algo s.params (resetMolds detects) hi
      refine ⟨track', ?_, ?_⟩
      · rw [call, htracks, ht']
      · simp only [appendedBy, hr]
        exact hheld.trans hself
    · obtain ⟨u, hp, hsurv, htracks⟩ := updateFrame_process hs hr
      obtain ⟨after, ha, hheld⟩ := (processFrame_held hs hp).there i track hi
      rw [hsurv] at hj
      obtain ⟨after', ha', -, hkept⟩ := keptAt_eq_some hj
      obtain rfl : after = after' := Option.some.inj (ha.symm.trans ha')
      refine ⟨after, ?_, ?_⟩
      · rw [call, htracks, hkept]
      · simp only [appendedBy, hr]
        exact hheld

/-- What a new track holds. -/
theorem started_held (hok : (updateFrame algo s detects).2 = .ok out) {k d j : Nat}
    (hd : (newDetections algo s detects)[k]? = some d)
    (hj : survivor algo s (.updateFrame detects) (s.tracks.length + k) = some j) :
    ∃ det after, detects[d]? = some det ∧ (updateFrame algo s detects).1.tracks[j]? = some after ∧
      held after = held (initNewTrack det) := by
  by_cases hs : s.tracks = []
  · have hempty := List.isEmpty_iff.mpr hs
    simp only [newDetections, if_pos hempty] at hd
    simp only [survivor, if_pos hempty, Option.some.injEq] at hj
    obtain ⟨hk, hdk⟩ := List.getElem?_eq_some_iff.mp hd
    rw [List.getElem_range] at hdk
    rw [List.length_range] at hk
    subst hdk
    have hjk : j = k := by
      rw [← hj, hs, List.length_nil, Nat.zero_add]
    refine ⟨detects[k], initNewTrack { detects[k] with featMold := -1 },
      List.getElem?_eq_getElem hk, ?_, ?_⟩
    · simp only [updateFrame, firstEnter, if_pos hempty]
      rw [hjk, List.getElem?_map, resetMolds, List.getElem?_map, List.getElem?_eq_getElem hk]
      rfl
    · rw [held_initNewTrack, held_initNewTrack]
  · obtain ⟨u, hp, hsurv, htracks⟩ := updateFrame_process hs hok
    obtain ⟨det, after, hdet, ha, hheld⟩ := (processFrame_held hs hp).started k d hd
    rw [hsurv] at hj
    obtain ⟨after', ha', -, hkept⟩ := keptAt_eq_some hj
    obtain rfl : after = after' := Option.some.inj (ha.symm.trans ha')
    exact ⟨det, after, hdet, by rw [htracks, hkept], hheld⟩

/-- A track after a call was there before it, or is a new one. -/
theorem call_origin {c : Call K} {j : Nat} {after : FeatureMatchTrackObject K}
    (h : (call algo s c).1.tracks[j]? = some after) :
    (∃ i track, s.tracks[i]? = some track ∧ survivor algo s c i = some j) ∨
    ∃ detects out k d, c = .updateFrame detects ∧ (updateFrame algo s detects).2 = .ok out ∧
      (newDetections algo s detects)[k]? = some d ∧
      survivor algo s c (s.tracks.length + k) = some j := by
  cases c with
  | setParams maxCosineDistance nnBudget maxIouDistance maxAge nInit =>
    exact .inl ⟨j, after, h, rfl⟩
  | updateFrame detects =>
    rw [call] at h
    rcases hr : (updateFrame algo s detects).2 with e | out
    · obtain ⟨hsurv, htracks⟩ := updateFrame_error hr
      rw [htracks] at h
      obtain ⟨track, ht, -⟩ := matchFrame_control h
      exact .inl ⟨j, track, ht, by rw [hsurv]⟩
    · by_cases hs : s.tracks = []
      · have hempty := List.isEmpty_iff.mpr hs
        refine .inr ⟨detects, out, j, j, rfl, hr, ?_, ?_⟩
        · have hlt := (List.getElem?_eq_some_iff.mp h).1
          simp only [updateFrame, firstEnter, if_pos hempty, resetMolds, List.length_map] at hlt
          simp only [newDetections, if_pos hempty]
          exact List.getElem?_range hlt
        · simp only [survivor, if_pos hempty]
          rw [hs, List.length_nil, Nat.zero_add]
      · obtain ⟨u, hp, hsurv, htracks⟩ := updateFrame_process hs hr
        rw [htracks] at h
        obtain ⟨i, hi, hk⟩ := exists_of_filter_getElem? h
        rw [← hsurv] at hk
        rcases Nat.lt_or_ge i s.tracks.length with hlt | hge
        · exact .inl ⟨i, _, List.getElem?_eq_getElem hlt, hk⟩
        · have hilt := (List.getElem?_eq_some_iff.mp hi).1
          rw [(processFrame_held hs hp).length] at hilt
          refine .inr ⟨detects, out, i - s.tracks.length, _, rfl, hr,
            List.getElem?_eq_getElem (by omega), ?_⟩
          rw [Nat.add_sub_cancel' hge]
          exact hk

/-! ## Runs -/

/-- A track by its index, with the features that were appended to it, oldest first. -/
inductive Sampled (algo : MatchAlgorithm K) : FeatureMatchPrivate K → Nat → List (List K) → Prop
    where
  | started {s : FeatureMatchPrivate K} {detects out : List (DetectObject K)} {k d j : Nat}
      {det : DetectObject K} (hok : (updateFrame algo s detects).2 = .ok out)
      (hd : (newDetections algo s detects)[k]? = some d) (hdet : detects[d]? = some det)
      (hf : (det.feature.any fun val => val ≠ 0) = true)
      (hj : survivor algo s (.updateFrame detects) (s.tracks.length + k) = some j) :
      Sampled algo (updateFrame algo s detects).1 j [det.feature]
  | call {s : FeatureMatchPrivate K} {c : Call K} {i j : Nat} {history : List (List K)}
      (h : Sampled algo s i history) (hj : survivor algo s c i = some j) :
      Sampled algo (call algo s c).1 j (history ++ (appendedBy algo s c i).toList)

/-- **The features of a track are the last ones that were appended to it.** -/
theorem sampled_suffix {i : Nat} {history : List (List K)} (h : Sampled algo s i history) :
    ∃ track xs, s.tracks[i]? = some track ∧ held track = some xs ∧ xs <:+ history := by
  induction h with
  | started hok hd hdet hf hj =>
    obtain ⟨det', after, hdet', ha, hheld⟩ := started_held hok hd hj
    obtain rfl := Option.some.inj (hdet.symm.trans hdet')
    rw [held_initNewTrack, if_pos hf] at hheld
    exact ⟨after, _, ha, hheld, List.suffix_rfl⟩
  | @call s c i j history h hj ih =>
    obtain ⟨track, xs, ht, hxs, hsuf⟩ := ih
    obtain ⟨after, ha, hheld⟩ := call_held ht hj
    rw [hxs, Option.map_some] at hheld
    refine ⟨after, _, ha, hheld, ?_⟩
    cases appendedBy algo s c i with
    | none => rwa [Option.map_none, Option.getD_none, Option.toList_none, List.append_nil]
    | some f => exact Latest.push_suffix hsuf

/-- Every track with features is one of these. -/
theorem exists_sampled (h : Reached algo s) : ∀ {i : Nat} {track : FeatureMatchTrackObject K},
    s.tracks[i]? = some track → track.hasFeature = true → ∃ history, Sampled algo s i history := by
  refine Reachable.invariant (I := fun s => ∀ {i : Nat} {track : FeatureMatchTrackObject K},
    s.tracks[i]? = some track → track.hasFeature = true → ∃ history, Sampled algo s i history)
    ?_ ?_ h
  · rintro s rfl i track hi
    simp [initial] at hi
  · rintro s t ih ⟨c, rfl⟩ j after hj hf
    have hsome : held after = some (after.features.map (·.vec)) := if_pos hf
    rcases call_origin hj with ⟨i, track, hi, hk⟩ | ⟨detects, out, k, d, rfl, hok, hd, hk⟩
    · obtain ⟨after', ha', hheld⟩ := call_held hi hk
      obtain rfl : after = after' := Option.some.inj (hj.symm.trans ha')
      have hft : track.hasFeature = true := by
        by_contra hno
        rw [hsome, held, if_neg hno] at hheld
        simp at hheld
      obtain ⟨history, hS⟩ := ih hi hft
      exact ⟨_, hS.call hk⟩
    · obtain ⟨det, after', hdet, ha', hheld⟩ := started_held hok hd hk
      obtain rfl : after = after' := Option.some.inj (hj.symm.trans ha')
      rw [hsome, held_initNewTrack] at hheld
      by_cases hany : (det.feature.any fun val => val ≠ 0) = true
      · exact ⟨_, .started hok hd hdet hany hk⟩
      · rw [if_neg hany] at hheld
        simp at hheld

/-! ## The budget -/

/-- A budget is positive, and not below the number of features that a track holds. -/
def KeepsBudget (s : FeatureMatchPrivate K) : Call K → Prop
  | .setParams _ nnBudget _ _ _ => 1 ≤ nnBudget ∧ nnBudget < 2 ^ 31 ∧
      ∀ track ∈ s.tracks, ∀ xs, held track = some xs → (xs.length : Int) ≤ nnBudget
  | .updateFrame _ => True

/-- A call that keeps the budget. -/
def StepKeeping (algo : MatchAlgorithm K) (s t : FeatureMatchPrivate K) : Prop :=
  ∃ c, KeepsBudget s c ∧ t = (call algo s c).1

/-- Every track holds no more features than the budget. -/
structure Within (s : FeatureMatchPrivate K) : Prop where
  pos : 1 ≤ s.params.nnBudget
  length_le : ∀ track ∈ s.tracks, ∀ xs, held track = some xs → xs.length ≤ s.params.nnBudget

theorem call_within {c : Call K} (hc : KeepsBudget s c) (h : Within s) :
    Within (call algo s c).1 := by
  cases c with
  | setParams maxCosineDistance nnBudget maxIouDistance maxAge nInit =>
    obtain ⟨hpos, hlt, hle⟩ := hc
    have hbudget : ((nnBudget % 2 ^ 32).toNat : Int) = nnBudget := by omega
    constructor
    · show 1 ≤ (nnBudget % 2 ^ 32).toNat
      omega
    · intro track ht xs hxs
      have := hle track ht xs hxs
      show xs.length ≤ (nnBudget % 2 ^ 32).toNat
      omega
  | updateFrame detects =>
    have hparams : (call algo s (.updateFrame detects)).1.params = s.params := updateFrame_params
    refine ⟨hparams ▸ h.pos, fun after hmem ys hys => ?_⟩
    rw [hparams]
    obtain ⟨j, hj⟩ := List.mem_iff_getElem?.mp hmem
    rcases call_origin hj with ⟨i, track, hi, hk⟩ | ⟨detects, out, k, d, hc, hok, hd, hk⟩
    · obtain ⟨after', ha', hheld⟩ := call_held hi hk
      obtain rfl : after = after' := Option.some.inj (hj.symm.trans ha')
      obtain ⟨xs, hxs, rfl⟩ := Option.map_eq_some_iff.mp (hheld.symm.trans hys)
      have hle := h.length_le track (List.mem_of_getElem? hi) xs hxs
      cases appendedBy algo s (.updateFrame detects) i with
      | none => exact hle
      | some f => exact Latest.length_push_le_iff.mpr hle
    · cases hc
      obtain ⟨det, after', -, ha', hheld⟩ := started_held hok hd hk
      obtain rfl : after = after' := Option.some.inj (hj.symm.trans ha')
      rw [held_initNewTrack, hys] at hheld
      split at hheld
      · rw [Option.some.inj hheld]
        exact h.pos
      · simp at hheld

theorem reachable_within (h : Reachable (fun s => s = initial) (StepKeeping algo) s) :
    Within s := by
  refine h.invariant ?_ ?_
  · rintro s rfl
    exact ⟨Nat.le_of_ble_eq_true rfl, by simp [initial]⟩
  · rintro s t ih ⟨c, hc, rfl⟩
    exact call_within hc ih

/--
**The feature budget.**

A frame matches a track that has features with a detection. The features of the track are then the
last ones that were appended to it, in the order of appending. They are no more than the budget just
when they were no more than it before; and so they are in every run in which no call of `SetParams`
gives a budget below the number of features that a track holds.
-/
theorem feature_budget (h : Reached algo s) (hok : (updateFrame algo s detects).2 = .ok out)
    {i j : Nat} {track : FeatureMatchTrackObject K} {f : List K} (hi : s.tracks[i]? = some track)
    (hf : track.hasFeature = true) (hm : matchedFeature algo s detects i = some f)
    (hj : survivor algo s (.updateFrame detects) i = some j) :
    (∃ history, Sampled algo s i history) ∧
    ∃ after, (updateFrame algo s detects).1.tracks[j]? = some after ∧ after.hasFeature = true ∧
      (∀ history, Sampled algo s i history →
        after.features.map (·.vec) <:+ history ++ [f]) ∧
      (after.features.length ≤ s.params.nnBudget ↔
        track.features.length ≤ s.params.nnBudget) ∧
      (Reachable (fun s => s = initial) (StepKeeping algo) s →
        after.features.length ≤ s.params.nnBudget) := by
  have happ : appendedBy algo s (.updateFrame detects) i = some f := by
    simp only [appendedBy, hok, hm]
  have htrack : held track = some (track.features.map (·.vec)) := if_pos hf
  obtain ⟨after, ha, hheld⟩ := call_held hi hj
  rw [htrack, happ] at hheld
  have hfa : after.hasFeature = true := by
    by_contra hno
    rw [held, if_neg hno] at hheld
    simp at hheld
  have hpush : after.features.map (·.vec) =
      Latest.push s.params.nnBudget (track.features.map (·.vec)) f := by
    rw [held, if_pos hfa] at hheld
    exact Option.some.inj hheld
  have hiff : after.features.length ≤ s.params.nnBudget ↔
      track.features.length ≤ s.params.nnBudget := by
    rw [← List.length_map (f := fun x : Feature K => x.vec), hpush, Latest.length_push_le_iff,
      List.length_map]
  refine ⟨exists_sampled h hi hf, after, ha, hfa, fun history hS => ?_, hiff, fun hr => ?_⟩
  · obtain ⟨track', xs, ht', hxs, hsuf⟩ := sampled_suffix hS
    obtain rfl : track = track' := Option.some.inj (hi.symm.trans ht')
    obtain rfl := Option.some.inj (htrack.symm.trans hxs)
    rw [hpush]
    exact Latest.push_suffix hsuf
  · have hle := (reachable_within hr).length_le track (List.mem_of_getElem? hi) _ htrack
    rw [List.length_map] at hle
    exact hiff.mpr hle

/-! ## Samples -/

theorem budget_sample :
    matchedFeature (munkres ratSqrt) sampleStart [sampleDetect] 0 = some [1] ∧
    survivor (munkres ratSqrt) sampleStart (.updateFrame [sampleDetect]) 0 = some 0 ∧
    (sampleStart.tracks[0]?).map (·.hasFeature) = some true ∧
    sampleStart.params.nnBudget = 100 := by
  decide +kernel

/-- `feature_budget` on the second frame of `sampleCalls`. -/
theorem feature_budget_sample :
    ∃ after, (updateFrame (munkres ratSqrt) sampleStart [sampleDetect]).1.tracks[0]? = some after ∧
      after.features.length ≤ 100 := by
  obtain ⟨hm, hj, htrack, hbudget⟩ := budget_sample
  obtain ⟨track, hi, hf⟩ := Option.map_eq_some_iff.mp htrack
  have hkeeping : Reachable (fun s => s = initial) (StepKeeping (munkres ratSqrt)) sampleStart := by
    have hset : StepKeeping (munkres ratSqrt) initial (run (munkres ratSqrt) initial
        (sampleCalls.take 1)) :=
      ⟨sampleCalls[0], ⟨by decide, by decide, fun _ ht => absurd ht List.not_mem_nil⟩, rfl⟩
    have h₀ : Reachable (fun s => s = initial) (StepKeeping (munkres ratSqrt)) initial :=
      .of_init rfl
    exact (h₀.tail hset).tail ⟨.updateFrame [sampleDetect], trivial, rfl⟩
  obtain ⟨-, after, ha, -, -, -, hle⟩ :=
    feature_budget (reached_run (.of_init rfl) _) sample_output hi hf hm hj
  exact ⟨after, ha, hbudget ▸ hle hkeeping⟩

/-- A track gets two features, and then the budget is lowered to one. -/
def budgetCalls : List (Call ℚ) :=
  [.updateFrame [sampleDetect], .updateFrame [sampleDetect], .setParams 0.2 1 0.7 30 3]

theorem budget_frame :
    (run (munkres ratSqrt) initial budgetCalls).params.nnBudget = 1 ∧
    matchedFeature (munkres ratSqrt) (run (munkres ratSqrt) initial budgetCalls) [sampleDetect] 0 =
      some [1] ∧
    survivor (munkres ratSqrt) (run (munkres ratSqrt) initial budgetCalls)
      (.updateFrame [sampleDetect]) 0 = some 0 ∧
    ((updateFrame (munkres ratSqrt) (run (munkres ratSqrt) initial budgetCalls)
      [sampleDetect]).1.tracks[0]?).map (fun track => (track.hasFeature, track.features.length)) =
      some (true, 2) := by
  decide +kernel

/-- The budgets that calls give are positive. -/
def PositiveBudget : Call K → Prop
  | .setParams _ nnBudget _ _ _ => 1 ≤ nnBudget
  | .updateFrame _ => True

/-- The third match of the track leaves it with two features. -/
theorem budget_lowered : ¬∀ (cs : List (Call ℚ)), (∀ c ∈ cs, PositiveBudget c) →
    ∀ (detects : List (DetectObject ℚ)) (i j : Nat) (f : List ℚ)
      (after : FeatureMatchTrackObject ℚ),
      matchedFeature (munkres ratSqrt) (run (munkres ratSqrt) initial cs) detects i = some f →
      survivor (munkres ratSqrt) (run (munkres ratSqrt) initial cs) (.updateFrame detects) i =
        some j →
      (updateFrame (munkres ratSqrt) (run (munkres ratSqrt) initial cs) detects).1.tracks[j]? =
        some after → after.hasFeature = true →
      after.features.length ≤ (run (munkres ratSqrt) initial cs).params.nnBudget := by
  intro h
  obtain ⟨hbudget, hm, hj, hafter⟩ := budget_frame
  obtain ⟨after, ha, hlen⟩ := Option.map_eq_some_iff.mp hafter
  obtain ⟨hf, hlen⟩ := Prod.mk.inj hlen
  have hpos : ∀ c ∈ budgetCalls, PositiveBudget c := by
    simp [budgetCalls, PositiveBudget]
  have hle := h budgetCalls hpos [sampleDetect] 0 0 [1] after hm hj ha hf
  rw [hlen, hbudget] at hle
  exact absurd hle (by decide)

end CambriconGst.TrackFm
