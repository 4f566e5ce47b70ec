import CambriconGst.Properties.TrackFmMatching

/-!
# A frame of the feature match tracker

* `updateFrame_ok`: what a call that returns does to each track, and what it appends
* `updateFrame_conserves`: detections are neither lost nor duplicated
-/

namespace CambriconGst.TrackFm

open Lib Easytrack

variable {K : Type}

/-! ## The control part of a track -/

/-- What the life and the identity of a track depend on. -/
structure Control where
  trackId : Int
  state : TrackState
  age : Nat
  timeSinceLastUpdate : Nat
deriving DecidableEq

def control (track : FeatureMatchTrackObject K) : Control where
  trackId := track.trackId
  state := track.state
  age := track.age
  timeSinceLastUpdate := track.timeSinceLastUpdate

namespace Control

/-- The control part of a new track. -/
def start : Control where
  trackId := -1
  state := .tentative
  age := 1
  timeSinceLastUpdate := 0

def predict (c : Control) : Control :=
  { c with timeSinceLastUpdate := c.timeSinceLastUpdate + 1 }

/-- A match turns the track from tentative to confirmed. -/
def Confirms (p : Params K) (c : Control) : Prop :=
  c.state = .tentative ∧ p.nInit ≤ c.age

instance (p : Params K) (c : Control) : Decidable (c.Confirms p) :=
  inferInstanceAs (Decidable (_ ∧ _))

/-- A match, with the id at hand. -/
def update (p : Params K) (nextId : Nat) (c : Control) : Control where
  trackId := if c.Confirms p then toInt32 nextId else c.trackId
  state := if c.Confirms p then .confirmed else c.state
  age := c.age + 1
  timeSinceLastUpdate := 0

def miss (p : Params K) (c : Control) : Control :=
  if c.state = .tentative ∨ c.timeSinceLastUpdate > p.maxAge then { c with state := .deleted }
  else c

def Dead (p : Params K) (c : Control) : Prop :=
  c.state = .deleted ∨ c.timeSinceLastUpdate > p.maxAge

end Control

theorem control_markMiss (p : Params K) (track : FeatureMatchTrackObject K) :
    control (markMiss p track) = (control track).miss p := by
  unfold markMiss Control.miss
  have hiff : (control track).state = .tentative ∨ (control track).timeSinceLastUpdate > p.maxAge ↔
      track.state = .tentative ∨ track.timeSinceLastUpdate > p.maxAge := Iff.rfl
  by_cases h : track.state = .tentative ∨ track.timeSinceLastUpdate > p.maxAge
  · rw [if_pos h, if_pos (hiff.mpr h)]
    rfl
  · rw [if_neg h, if_neg (mt hiff.mp h)]

theorem control_alike {t t' : FeatureMatchTrackObject K} (h : Alike t t') :
    control t = control t' := by
  obtain ⟨-, hid, hs, ha, ht, -⟩ := h
  simp only [control, hid, hs, ha, ht]

variable [Field K] [LinearOrder K]

theorem control_initNewTrack (det : DetectObject K) : control (initNewTrack det) = .start := rfl

variable [IsStrictOrderedRing K] {p : Params K} {detects : List (DetectObject K)}

theorem confirms_touchTrack {det : DetectObject K} {track : FeatureMatchTrackObject K} :
    Confirms p (touchTrack p det track) ↔ (control track).Confirms p := by
  show track.state = .tentative ∧ ((track.age + 1 : Nat) : Int) > p.nInit ↔
    track.state = .tentative ∧ p.nInit ≤ track.age
  exact and_congr_right fun _ => by omega

theorem control_updateTrack (det : DetectObject K) (nextId : Nat)
    (track : FeatureMatchTrackObject K) :
    control (updateTrack p det nextId track) = (control track).update p nextId := by
  unfold updateTrack Control.update
  by_cases h : Confirms p (touchTrack p det track)
  · rw [if_pos h, if_pos (confirms_touchTrack.mp h), if_pos (confirms_touchTrack.mp h)]
    simp only [control, touchTrack]
  · rw [if_neg h, if_neg (mt confirms_touchTrack.mpr h), if_neg (mt confirms_touchTrack.mpr h)]
    simp only [control, touchTrack]

/-! ## Matched tracks -/

/-- The entry appended for a detection and a track. -/
def Reports (detects : List (DetectObject K)) (tracks : List (FeatureMatchTrackObject K))
    (pair : Nat × Nat) (entry : DetectObject K) : Prop :=
  ∃ det track, detects[pair.1]? = some det ∧ tracks[pair.2]? = some track ∧
    entry = { det with trackId := track.trackId, detectId := pair.1 }

theorem updateMatched_eq_ok {u u' : Progress K} {pair : Nat × Nat}
    (h : updateMatched p detects u pair = .ok u') :
    ∃ det track, detects[pair.1]? = some det ∧ u.tracks[pair.2]? = some track ∧
      u' = {
        tracks := u.tracks.set pair.2 (updateTrack p det u.nextId track)
        nextId := if (control track).Confirms p then u.nextId + 1 else u.nextId
        output := u.output ++ [{ det with trackId := track.trackId, detectId := pair.1 }] } := by
  obtain ⟨track, ht, h⟩ := bind_eq_ok.mp h
  obtain ⟨det, hd, h⟩ := bind_eq_ok.mp h
  obtain rfl := Except.ok.inj h
  refine ⟨det, track, readAt_eq_ok.mp hd, readAt_eq_ok.mp ht, ?_⟩
  simp only [confirms_touchTrack]

/-- A matched track after the loop: `k` was the next id when it was updated. -/
def UpdatedBy (p : Params K) (detects : List (DetectObject K))
    (tracks : List (FeatureMatchTrackObject K)) (nextId : Nat) (u : Progress K)
    (pair : Nat × Nat) : Prop :=
  ∃ det track k, detects[pair.1]? = some det ∧ tracks[pair.2]? = some track ∧
    u.tracks[pair.2]? = some (updateTrack p det k track) ∧ nextId ≤ k ∧
    ((control track).Confirms p → k < u.nextId)

/-- What the loop over the matches does to `tracks`. -/
structure Updated (p : Params K) (detects : List (DetectObject K)) (pairs : List (Nat × Nat))
    (tracks : List (FeatureMatchTrackObject K)) (nextId : Nat) (u : Progress K)
    (entries : List (DetectObject K)) : Prop where
  length : u.tracks.length = tracks.length
  nextId_le : nextId ≤ u.nextId
  matched : ∀ pair ∈ pairs, UpdatedBy p detects tracks nextId u pair
  rest : ∀ t, t ∉ pairs.map Prod.snd → u.tracks[t]? = tracks[t]?
  reports : List.Forall₂ (Reports detects tracks) pairs entries

/-- The loop from `u` on, which has not yet reached the tracks of `pairs`. -/
theorem updateMatched_foldFrom {tracks : List (FeatureMatchTrackObject K)}
    {pairs : List (Nat × Nat)} : ∀ {u u' : Progress K},
    (∀ t ∈ pairs.map Prod.snd, u.tracks[t]? = tracks[t]?) → (pairs.map Prod.snd).Nodup →
    pairs.foldlM (updateMatched p detects) u = .ok u' →
    u'.tracks.length = u.tracks.length ∧ u.nextId ≤ u'.nextId ∧
      (∀ pair ∈ pairs, UpdatedBy p detects tracks u.nextId u' pair) ∧
      (∀ t, t ∉ pairs.map Prod.snd → u'.tracks[t]? = u.tracks[t]?) ∧
      ∃ entries, List.Forall₂ (Reports detects tracks) pairs entries ∧
        u'.output = u.output ++ entries := by
  induction pairs with
  | nil =>
    intro u u' _ _ h
    obtain rfl := Except.ok.inj h
    exact ⟨rfl, le_rfl, by simp, fun _ _ => rfl, [], .nil, by simp⟩
  | cons pair pairs ih =>
    intro u u' hsame hn h
    rw [List.map_cons, List.nodup_cons] at hn
    rw [List.foldlM_cons] at h
    obtain ⟨u₁, h₁, h⟩ := bind_eq_ok.mp h
    obtain ⟨det, track, hd, ht, rfl⟩ := updateMatched_eq_ok h₁
    have ht₀ : tracks[pair.2]? = some track := (hsame _ List.mem_cons_self).symm.trans ht
    have hother : ∀ t ∈ pairs.map Prod.snd,
        (u.tracks.set pair.2 (updateTrack p det u.nextId track))[t]? = tracks[t]? := by
      intro t ht
      have hne : pair.2 ≠ t := fun he => hn.1 (he ▸ ht)
      rw [List.getElem?_set_ne hne]
      exact hsame t (List.mem_cons_of_mem _ ht)
    obtain ⟨hlen, hle, hm, hrest, entries, hrep, hout⟩ := ih hother hn.2 h
    have hnext : u.nextId ≤ if (control track).Confirms p then u.nextId + 1 else u.nextId := by
      split <;> omega
    refine ⟨by rw [hlen, List.length_set], hnext.trans hle, ?_, ?_, _,
      .cons ⟨det, track, hd, ht₀, rfl⟩ hrep, ?_⟩
    · intro q hq
      rcases List.mem_cons.mp hq with rfl | hq
      · refine ⟨det, track, u.nextId, hd, ht₀, ?_, le_rfl, fun hc => ?_⟩
        · rw [hrest _ hn.1, List.getElem?_set_self (List.getElem?_eq_some_iff.mp ht).1]
        · simp only [if_pos hc] at hle
          exact hle
      · obtain ⟨det', track', k, hd', ht', hu', hk, hc⟩ := hm q hq
        exact ⟨det', track', k, hd', ht', hu', hnext.trans hk, hc⟩
    · intro t hnt
      rw [List.map_cons, List.mem_cons, not_or] at hnt
      rw [hrest t hnt.2, List.getElem?_set_ne (Ne.symm hnt.1)]
    · rw [hout, List.append_assoc]
      rfl

theorem updateMatched_fold {pairs : List (Nat × Nat)} {tracks : List (FeatureMatchTrackObject K)}
    {nextId : Nat} {u : Progress K} (hn : (pairs.map Prod.snd).Nodup)
    (h : pairs.foldlM (updateMatched p detects) { tracks, nextId, output := [] } = .ok u) :
    Updated p detects pairs tracks nextId u u.output := by
  obtain ⟨hlen, hle, hm, hrest, entries, hrep, hout⟩ :=
    updateMatched_foldFrom (fun _ _ => rfl) hn h
  rw [List.nil_append] at hout
  exact ⟨hlen, hle, hm, hrest, hout ▸ hrep⟩

/-! ## New tracks -/

/-- The entry appended for a detection that starts a track. -/
def ReportsNew (detects : List (DetectObject K)) (idx : Nat) (entry : DetectObject K) : Prop :=
  ∃ det, detects[idx]? = some det ∧ entry = { det with trackId := -1, detectId := idx }

/-- A track that a detection starts. -/
def Starts (detects : List (DetectObject K)) (idx : Nat) (track : FeatureMatchTrackObject K) :
    Prop :=
  ∃ det, detects[idx]? = some det ∧ track = initNewTrack det

omit [IsStrictOrderedRing K] in
/-- The loop over the detections left. -/
theorem startTrack_fold {idxs : List Nat} : ∀ {u u' : Progress K},
    idxs.foldlM (startTrack detects) u = .ok u' →
    ∃ new entries, List.Forall₂ (Starts detects) idxs new ∧
      List.Forall₂ (ReportsNew detects) idxs entries ∧
      u' = { tracks := u.tracks ++ new, nextId := u.nextId, output := u.output ++ entries } := by
  induction idxs with
  | nil =>
    intro u u' h
    obtain rfl := Except.ok.inj h
    exact ⟨[], [], .nil, .nil, by simp⟩
  | cons idx idxs ih =>
    intro u u' h
    rw [List.foldlM_cons] at h
    obtain ⟨u₁, h₁, h⟩ := bind_eq_ok.mp h
    obtain ⟨det, hd, h₁⟩ := bind_eq_ok.mp h₁
    obtain rfl := Except.ok.inj h₁
    obtain ⟨new, entries, hnew, hrep, rfl⟩ := ih h
    have hget := readAt_eq_ok.mp hd
    refine ⟨initNewTrack det :: new, _ :: entries, .cons ⟨det, hget, rfl⟩ hnew,
      .cons ⟨det, hget, rfl⟩ hrep, ?_⟩
    simp only [List.append_assoc, List.singleton_append]
    rfl

/-! ## The matches, applied -/

/-- The tracks after the matches `m` were applied to `tracks`. -/
structure Applied (p : Params K) (m : Matches K) (tracks : List (FeatureMatchTrackObject K))
    (nextId : Nat) (u : Progress K) : Prop where
  length : u.tracks.length = tracks.length + m.iou.unmatchedDetections.length
  nextId_le : nextId ≤ u.nextId
  matched : ∀ pair ∈ m.pairs, UpdatedBy p m.detects tracks nextId u pair
  missed : ∀ t track, tracks[t]? = some track → t ∈ m.iou.unmatchedTracks →
    u.tracks[t]? = some (markMiss p track)
  rest : ∀ t track, tracks[t]? = some track → t ∉ m.pairs.map Prod.snd →
    t ∉ m.iou.unmatchedTracks → u.tracks[t]? = some track
  started : ∀ k d, m.iou.unmatchedDetections[k]? = some d →
    ∃ track, u.tracks[tracks.length + k]? = some track ∧ Starts m.detects d track
  output : ∃ entries new, u.output = entries ++ new ∧
    List.Forall₂ (Reports m.detects tracks) m.pairs entries ∧
    List.Forall₂ (ReportsNew m.detects) m.iou.unmatchedDetections new

theorem applyMatches_applied {m : Matches K} {tracks : List (FeatureMatchTrackObject K)}
    {nextId : Nat} {u : Progress K}
    (hn : (m.pairs.map Prod.snd ++ m.iou.unmatchedTracks).Nodup)
    (hlt : ∀ t ∈ m.pairs.map Prod.snd ++ m.iou.unmatchedTracks, t < tracks.length)
    (h : applyMatches p m tracks nextId = .ok u) : Applied p m tracks nextId u := by
  obtain ⟨hnp, hnu, hdisj⟩ := List.nodup_append.mp hn
  obtain ⟨u₁, h₁, h⟩ := bind_eq_ok.mp h
  obtain ⟨u₂, h₂, h⟩ := bind_eq_ok.mp h
  obtain ⟨us, h₃, h⟩ := bind_eq_ok.mp h
  obtain rfl := Except.ok.inj h
  have hU := updateMatched_fold hnp h₁
  obtain ⟨new, fresh, hnew, hrep, rfl⟩ := startTrack_fold h₂
  have hlen : u₁.tracks.length = tracks.length := hU.length
  have hleft : ∀ t, t < tracks.length → (u₁.tracks ++ new)[t]? = u₁.tracks[t]? := fun t ht =>
    List.getElem?_append_left (hlen ▸ ht)
  have hkeep : ∀ t, t ∉ m.iou.unmatchedTracks → us[t]? = (u₁.tracks ++ new)[t]? := fun t ht =>
    updateEach_getElem?_of_notMem h₃ (by rwa [List.map_id])
  constructor
  · rw [updateEach_length h₃, List.length_append, hlen, hnew.length_eq]
  · exact hU.nextId_le
  · intro pair hp
    obtain ⟨det, track, k, hd, ht, hu, hk⟩ := hU.matched pair hp
    have hmem : pair.2 ∈ m.pairs.map Prod.snd := List.mem_map_of_mem hp
    have hnot : pair.2 ∉ m.iou.unmatchedTracks := fun hu => hdisj _ hmem _ hu rfl
    refine ⟨det, track, k, hd, ht, ?_, hk⟩
    rw [hkeep _ hnot, hleft _ (hlt _ (List.mem_append_left _ hmem))]
    exact hu
  · intro t track ht hmiss
    have hnot : t ∉ m.pairs.map Prod.snd := fun hmem => hdisj t hmem t hmiss rfl
    obtain ⟨g, hg, hget⟩ := updateEach_getElem?_of_mem h₃ (by rwa [List.map_id]) hmiss
    obtain rfl := Except.ok.inj hg
    rw [id, hleft t (List.getElem?_eq_some_iff.mp ht).1, hU.rest t hnot, ht] at hget
    exact hget
  · intro t track ht hnot hmiss
    rw [hkeep t hmiss, hleft t (List.getElem?_eq_some_iff.mp ht).1, hU.rest t hnot, ht]
  · intro k d hd
    have hnot : tracks.length + k ∉ m.iou.unmatchedTracks := fun hu =>
      absurd (hlt _ (List.mem_append_right _ hu)) (by omega)
    have hk := (List.getElem?_eq_some_iff.mp hd).1
    have hk' : k < new.length := hnew.length_eq ▸ hk
    refine ⟨new[k], ?_, ?_⟩
    · rw [hkeep _ hnot, List.getElem?_append_right (by omega), hlen, Nat.add_sub_cancel_left,
        List.getElem?_eq_getElem hk']
    · have := (List.forall₂_iff_get.mp hnew).2 k hk hk'
      rwa [List.get_eq_getElem, (List.getElem?_eq_some_iff.mp hd).2] at this
  · exact ⟨u₁.output, fresh, rfl, hU.reports, hrep⟩

/-! ## The whole frame -/

variable {algo : MatchAlgorithm K}

/-- The entry shows the detection at an index. -/
def Carries (detects : List (DetectObject K)) (d : Nat) (entry : DetectObject K) : Prop :=
  entry.detectId = d ∧ ∃ det, detects[d]? = some det ∧ entry.label = det.label ∧
    entry.score = det.score ∧ entry.bbox = det.bbox ∧ entry.feature = det.feature

omit [LinearOrder K] [IsStrictOrderedRing K] in
/-- The norms do not matter. -/
theorem Carries.of_norms {detects' : List (DetectObject K)}
    (hn : detects' = detects ∨ detects' = normed algo detects) {d : Nat} {entry : DetectObject K}
    (h : Carries detects' d entry) : Carries detects d entry := by
  obtain ⟨hd, det, hget, hdet⟩ := h
  rcases hn with rfl | rfl
  · exact ⟨hd, det, hget, hdet⟩
  · rw [normed, List.getElem?_map] at hget
    obtain ⟨det', hget', rfl⟩ := Option.map_eq_some_iff.mp hget
    exact ⟨hd, det', hget', hdet⟩

/-- What a frame with tracks does: `u` are its tracks before dead ones are erased. -/
structure Frame (algo : MatchAlgorithm K) (s : FeatureMatchPrivate K)
    (detects : List (DetectObject K)) (m : Matches K) (u : Progress K) : Prop where
  matching : (matchFrame algo s.params detects s.tracks).1 = .ok m
  length : u.tracks.length = s.tracks.length + m.iou.unmatchedDetections.length
  nextId_le : s.nextId ≤ u.nextId
  matched : ∀ d t, (d, t) ∈ m.pairs → ∃ track after k, s.tracks[t]? = some track ∧
    u.tracks[t]? = some after ∧ control after = (control track).predict.update s.params k ∧
    s.nextId ≤ k ∧ ((control track).Confirms s.params → k < u.nextId)
  unmatched : ∀ t track, s.tracks[t]? = some track → t ∉ m.pairs.map Prod.snd →
    ∃ after, u.tracks[t]? = some after ∧ (control after = (control track).predict.miss s.params ∨
      track.state = .confirmed ∧ control after = (control track).predict)
  started : ∀ t after, s.tracks.length ≤ t → u.tracks[t]? = some after → control after = .start
  output : ∃ entries new, u.output = entries ++ new ∧
    List.Forall₂ (fun pair entry => Carries detects pair.1 entry ∧
      ∃ track, s.tracks[pair.2]? = some track ∧ entry.trackId = track.trackId) m.pairs entries ∧
    List.Forall₂ (fun d entry => Carries detects d entry ∧ entry.trackId = -1)
      m.iou.unmatchedDetections new

theorem matchFrame_length (algo : MatchAlgorithm K) (p : Params K)
    (detects : List (DetectObject K)) (tracks : List (FeatureMatchTrackObject K)) :
    (matchFrame algo p detects tracks).2.length = tracks.length := by
  have := congrArg List.length (matchFrame_settled algo p detects tracks)
  simpa only [List.length_map] using this

/-- A track after the matching and before the frame. -/
theorem matchFrame_control {tracks : List (FeatureMatchTrackObject K)} {t : Nat}
    {track' : FeatureMatchTrackObject K}
    (h : (matchFrame algo p detects tracks).2[t]? = some track') :
    ∃ track, tracks[t]? = some track ∧ control track' = (control track).predict := by
  obtain ⟨pred, hpred, he⟩ := settled_getElem? (matchFrame_settled algo p detects tracks) h
  obtain ⟨track, ht, rfl⟩ := predictTrack_getElem? hpred
  exact ⟨track, ht, (control_alike (alike_of_settled he)).symm⟩

theorem exists_matchFrame_control (algo : MatchAlgorithm K) (p : Params K)
    (detects : List (DetectObject K)) {tracks : List (FeatureMatchTrackObject K)} {t : Nat}
    {track : FeatureMatchTrackObject K} (h : tracks[t]? = some track) :
    ∃ track', (matchFrame algo p detects tracks).2[t]? = some track' ∧
      control track' = (control track).predict := by
  have hlt : t < (matchFrame algo p detects tracks).2.length := by
    rw [matchFrame_length]
    exact (List.getElem?_eq_some_iff.mp h).1
  have hget := List.getElem?_eq_getElem hlt
  obtain ⟨track₀, ht₀, hc⟩ := matchFrame_control hget
  obtain rfl : track = track₀ := Option.some.inj (h.symm.trans ht₀)
  exact ⟨_, hget, hc⟩

theorem applyMatches_frame {s : FeatureMatchPrivate K} {m : Matches K} {u : Progress K}
    (hm : (matchFrame algo s.params detects s.tracks).1 = .ok m)
    (h : applyMatches s.params m (matchFrame algo s.params detects s.tracks).2 s.nextId = .ok u) :
    Frame algo s detects m u := by
  obtain ⟨T, chance, hM⟩ := matchFrame_spec (Prod.ext hm rfl)
  have hn := matchFrame_length algo s.params detects s.tracks
  have hA := applyMatches_applied hM.nodup_tracks (fun t ht => hn.symm ▸ hM.lt_length ht) h
  constructor
  · exact hm
  · rw [hA.length, hn]
  · exact hA.nextId_le
  · intro d t hdt
    obtain ⟨det, track', k, -, ht', hu, hk, hc⟩ := hA.matched _ hdt
    obtain ⟨track, ht, hctl⟩ := matchFrame_control ht'
    refine ⟨track, updateTrack s.params det k track', k, ht, hu, ?_, hk, fun hcf => hc ?_⟩
    · rw [control_updateTrack, hctl]
    · rw [hctl]
      exact hcf
  · intro t track ht hnot
    obtain ⟨track', ht', hctl⟩ := exists_matchFrame_control algo s.params detects ht
    have hlt : t < s.tracks.length := (List.getElem?_eq_some_iff.mp ht).1
    by_cases hmiss : t ∈ m.iou.unmatchedTracks
    · exact ⟨_, hA.missed t track' ht' hmiss, Or.inl (by rw [control_markMiss, hctl])⟩
    · refine ⟨track', hA.rest t track' ht' hnot hmiss, Or.inr ⟨?_, hctl⟩⟩
      have hconf : t ∈ confirmedTracks s.tracks := by
        by_contra hno
        rcases hM.matched_or_missed (mem_unconfirmedTracks.mpr ⟨hlt, hno⟩) with h | h
        · exact hnot h
        · exact hmiss h
      obtain ⟨track₀, ht₀, hs, -⟩ := mem_confirmedTracks.mp hconf
      obtain rfl : track = track₀ := Option.some.inj (ht.symm.trans ht₀)
      exact hs
  · intro t after hge hget
    have hk : t - s.tracks.length < m.iou.unmatchedDetections.length := by
      have hlt := (List.getElem?_eq_some_iff.mp hget).1
      rw [hA.length, hn] at hlt
      omega
    obtain ⟨track, htrack, det, -, rfl⟩ := hA.started _ _ (List.getElem?_eq_getElem hk)
    rw [hn, Nat.add_sub_cancel' hge, hget] at htrack
    rw [Option.some.inj htrack]
    exact control_initNewTrack det
  · obtain ⟨entries, fresh, hout, hrep, hnew⟩ := hA.output
    refine ⟨entries, fresh, hout, hrep.imp ?_, hnew.imp ?_⟩
    · rintro pair entry ⟨det, track', hd, ht', rfl⟩
      obtain ⟨track, ht, hctl⟩ := matchFrame_control ht'
      exact ⟨Carries.of_norms hM.norms ⟨rfl, det, hd, rfl, rfl, rfl, rfl⟩, track, ht,
        congrArg Control.trackId hctl⟩
    · rintro idx entry ⟨det, hd, rfl⟩
      exact ⟨Carries.of_norms hM.norms ⟨rfl, det, hd, rfl, rfl, rfl, rfl⟩, rfl⟩

theorem processFrame_eq_ok {s : FeatureMatchPrivate K} {u : Progress K}
    (h : processFrame algo s detects = .ok u) :
    ∃ m, (matchFrame algo s.params detects s.tracks).1 = .ok m ∧
      applyMatches s.params m (matchFrame algo s.params detects s.tracks).2 s.nextId = .ok u := by
  unfold processFrame at h
  rcases hm : matchFrame algo s.params detects s.tracks with ⟨e | m, ts⟩
  · simp only [hm] at h
    simp at h
  · simp only [hm] at h
    cases ha : applyMatches s.params m ts s.nextId with
    | error e =>
      simp only [ha] at h
      simp at h
    | ok u' =>
      simp only [ha] at h
      obtain rfl := Except.ok.inj h
      exact ⟨m, rfl, ha⟩

theorem processFrame_ok {s : FeatureMatchPrivate K} {u : Progress K}
    (h : processFrame algo s detects = .ok u) : ∃ m, Frame algo s detects m u := by
  obtain ⟨m, hm, ha⟩ := processFrame_eq_ok h
  exact ⟨m, applyMatches_frame hm ha⟩

/-- **What a call that returns does.** -/
theorem updateFrame_ok {s s' : FeatureMatchPrivate K} {out : List (DetectObject K)}
    (h : updateFrame algo s detects = (s', .ok out)) :
    (s.tracks = [] ∧ s' = { s with tracks := (resetMolds detects).map initNewTrack } ∧
      out = (resetMolds detects).mapIdx fun i det => { det with trackId := -1, detectId := i }) ∨
    (s.tracks ≠ [] ∧ ∃ m u, Frame algo s (resetMolds detects) m u ∧ out = u.output ∧
      s' = { s with
        tracks := u.tracks.filter fun track => ¬Dead s.params track
        nextId := u.nextId }) := by
  unfold updateFrame at h
  by_cases hs : s.tracks.isEmpty
  · simp only [if_pos hs, firstEnter] at h
    obtain ⟨rfl, hout⟩ := Prod.mk.inj h
    exact Or.inl ⟨List.isEmpty_iff.mp hs, rfl, (Except.ok.inj hout).symm⟩
  · simp only [if_neg hs] at h
    refine Or.inr ⟨fun he => hs (List.isEmpty_iff.mpr he), ?_⟩
    rcases hp : processFrame algo s (resetMolds detects) with ⟨e, ts⟩ | u
    · simp only [hp] at h
      simp at h
    · simp only [hp] at h
      obtain ⟨rfl, hout⟩ := Prod.mk.inj h
      obtain ⟨m, hF⟩ := processFrame_ok hp
      exact ⟨m, u, hF, (Except.ok.inj hout).symm, rfl⟩

/-! ## Detections are neither lost nor duplicated -/

omit [LinearOrder K] [IsStrictOrderedRing K] in
/-- Entries for detections that are a permutation of all of them. -/
theorem carries_conserves {idxs : List Nat} {out : List (DetectObject K)}
    (hp : idxs.Perm (List.range detects.length))
    (h : List.Forall₂ (Carries (resetMolds detects)) idxs out) :
    out.length = detects.length ∧
      (out.map (·.detectId)).Perm ((List.range detects.length).map fun d : Nat => (d : Int)) ∧
      ∀ entry ∈ out, ∃ (d : Nat) (det : DetectObject K), entry.detectId = d ∧
        detects[d]? = some det ∧ entry.label = det.label ∧ entry.score = det.score ∧
        entry.bbox = det.bbox ∧ entry.feature = det.feature := by
  refine ⟨?_, ?_, ?_⟩
  · rw [← h.length_eq, hp.length_eq, List.length_range]
  · have hids : out.map (·.detectId) = idxs.map fun d : Nat => (d : Int) := by
      clear hp
      induction h with
      | nil => rfl
      | cons hd _ ih => rw [List.map_cons, List.map_cons, hd.1, ih]
    rw [hids]
    exact hp.map _
  · clear hp
    induction h with
    | nil => simp
    | cons hd _ ih =>
      intro entry he
      rcases List.mem_cons.mp he with rfl | he
      · obtain ⟨hid, det, hget, hdet⟩ := hd
        rw [resetMolds, List.getElem?_map] at hget
        obtain ⟨det', hget', rfl⟩ := Option.map_eq_some_iff.mp hget
        exact ⟨_, det', hid, hget', hdet⟩
      · exact ih entry he

/--
**Detections are neither lost nor duplicated.**

A call that returns appends one entry for each detection, with its data; no track and no detection
is matched twice, by both stages together.
-/
theorem updateFrame_conserves {s : FeatureMatchPrivate K} {out : List (DetectObject K)}
    (h : (updateFrame algo s detects).2 = .ok out) :
    out.length = detects.length ∧
      (out.map (·.detectId)).Perm ((List.range detects.length).map fun d : Nat => (d : Int)) ∧
      (∀ entry ∈ out, ∃ (d : Nat) (det : DetectObject K), entry.detectId = d ∧
        detects[d]? = some det ∧ entry.label = det.label ∧ entry.score = det.score ∧
        entry.bbox = det.bbox ∧ entry.feature = det.feature) ∧
      ∀ m, (matchFrame algo s.params (resetMolds detects) s.tracks).1 = .ok m →
        (m.pairs.map Prod.snd).Nodup ∧ (∀ t ∈ m.pairs.map Prod.snd, t < s.tracks.length) ∧
        (m.pairs.map Prod.fst).Nodup ∧ ∀ d ∈ m.pairs.map Prod.fst, d < detects.length := by
  have hlen : (resetMolds detects).length = detects.length := List.length_map _
  have hmatch : ∀ m, (matchFrame algo s.params (resetMolds detects) s.tracks).1 = .ok m →
      (m.pairs.map Prod.snd).Nodup ∧ (∀ t ∈ m.pairs.map Prod.snd, t < s.tracks.length) ∧
      (m.pairs.map Prod.fst).Nodup ∧ ∀ d ∈ m.pairs.map Prod.fst, d < detects.length := by
    intro m hm
    obtain ⟨T, chance, hM⟩ := matchFrame_spec (Prod.ext hm rfl)
    refine ⟨(List.nodup_append.mp hM.nodup_tracks).1,
      fun t ht => hM.lt_length (List.mem_append_left _ ht), hM.nodup_detections, fun d hd => ?_⟩
    rw [← hlen]
    exact List.mem_range.mp (hM.detections.mem_iff.mp (List.mem_append_left _ hd))
  have hcons : ∃ idxs, idxs.Perm (List.range detects.length) ∧
      List.Forall₂ (Carries (resetMolds detects)) idxs out := by
    rcases updateFrame_ok (Prod.ext rfl h) with ⟨-, -, rfl⟩ | ⟨-, m, u, hF, rfl, -⟩
    · refine ⟨_, .refl _, List.forall₂_iff_get.mpr ⟨by simp [hlen], fun i hi hi' => ?_⟩⟩
      have hlt : i < (resetMolds detects).length := by simpa [hlen] using hi
      simp only [List.get_eq_getElem, List.getElem_range, List.getElem_mapIdx]
      exact ⟨rfl, _, List.getElem?_eq_getElem hlt, rfl, rfl, rfl, rfl⟩
    · obtain ⟨T, chance, hM⟩ := matchFrame_spec (Prod.ext hF.matching rfl)
      obtain ⟨entries, new, hout, hent, hnew⟩ := hF.output
      refine ⟨_, hlen ▸ hM.detections, ?_⟩
      rw [hout]
      exact List.rel_append (List.forall₂_map_left_iff.mpr (hent.imp fun _ _ h => h.1))
        (hnew.imp fun _ _ h => h.1)
  obtain ⟨idxs, hp, hc⟩ := hcons
  obtain ⟨hl, hids, hdata⟩ := carries_conserves hp hc
  exact ⟨hl, hids, hdata, hmatch⟩

theorem updateFrame_conserves_sample :
    (([{ sampleDetect with trackId := 0, detectId := 0, featMold := 1 }] :
      List (DetectObject ℚ)).map (·.detectId)).Perm ((List.range 1).map fun d : Nat => (d : Int)) := by
  have h : (updateFrame (munkres ratSqrt) sampleTracks [sampleDetect]).2
      = .ok [{ sampleDetect with trackId := 0, detectId := 0, featMold := 1 }] := by
    decide +kernel
  exact (updateFrame_conserves h).2.1

end CambriconGst.TrackFm
