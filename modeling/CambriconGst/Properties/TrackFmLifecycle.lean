import CambriconGst.Lib.Lifecycle
import CambriconGst.Properties.TrackFmIdentity

/-!
# The life of a track

* `frame_phase`: a frame takes a track through one step of `Lifecycle`
* `tracked_lifecycle`: when a track is confirmed and when it is gone
-/

namespace CambriconGst.TrackFm

open Lib Lib.Lifecycle Easytrack

variable {K : Type}

/-- A track in `tracks_` between frames is in a phase of its life. -/
def InPhase (c : Control) : Phase → Prop
  | .tentative k => c.state = .tentative ∧ c.age = k + 1 ∧ c.timeSinceLastUpdate = 0
  | .confirmed k => c.state = .confirmed ∧ c.timeSinceLastUpdate = k
  | .gone => False

variable {p : Params K} {n a : Nat}

/-- A match is an observation. -/
theorem inPhase_update (hn : p.nInit = n) {c : Control} {φ : Phase} (h : InPhase c φ) (k : Nat) :
    InPhase (c.predict.update p k) (φ.next n a true) := by
  cases φ with
  | tentative hits =>
    obtain ⟨hs, hage, ht⟩ := h
    have hiff : c.predict.Confirms p ↔ n ≤ hits + 1 := by
      show c.state = .tentative ∧ p.nInit ≤ (c.age : Int) ↔ _
      rw [hage, hn]
      exact ⟨fun hc => by omega, fun hc => ⟨hs, by omega⟩⟩
    unfold Phase.next
    by_cases hc : n ≤ hits + 1
    · simp only [if_pos hc]
      exact ⟨if_pos (hiff.mpr hc), rfl⟩
    · simp only [if_neg hc]
      exact ⟨(if_neg (mt hiff.mp hc)).trans hs, congrArg (· + 1) hage, rfl⟩
  | confirmed misses =>
    obtain ⟨hs, -⟩ := h
    have hno : ¬c.predict.Confirms p := fun hc => by
      have : c.state = .tentative := hc.1
      rw [hs] at this
      exact TrackState.noConfusion this
    exact ⟨(if_neg hno).trans hs, rfl⟩
  | gone => exact h.elim

theorem InPhase.state_ne_deleted {c : Control} {φ : Phase} (h : InPhase c φ) :
    c.state ≠ .deleted := by
  intro hdel
  cases φ with
  | tentative hits => exact TrackState.noConfusion (hdel.symm.trans h.1)
  | confirmed misses => exact TrackState.noConfusion (hdel.symm.trans h.1)
  | gone => exact h.elim

/-- `MarkMiss` deletes a tentative track. -/
theorem inPhase_miss_tentative {c : Control} {hits : Nat} (h : InPhase c (.tentative hits)) :
    (c.predict.miss p).state = .deleted := by
  have hst : c.predict.state = .tentative := h.1
  unfold Control.miss
  rw [if_pos (Or.inl hst)]

/-- `MarkMiss` leaves a confirmed track as it is for `max_age` frames. -/
theorem inPhase_miss_confirmed (ha : p.maxAge = a) {c : Control} {misses : Nat}
    (h : InPhase c (.confirmed misses)) (hk : misses + 1 ≤ a) :
    c.predict.miss p = c.predict := by
  obtain ⟨hst, htime⟩ := h
  have htime' : c.predict.timeSinceLastUpdate = misses + 1 := congrArg (· + 1) htime
  unfold Control.miss
  rw [if_neg]
  rintro (ht | ht)
  · exact TrackState.noConfusion (hst.symm.trans ht)
  · rw [htime', ha] at ht
    omega

theorem miss_timeSinceLastUpdate (c : Control) :
    (c.miss p).timeSinceLastUpdate = c.timeSinceLastUpdate := by
  unfold Control.miss
  split <;> rfl

/--
A frame without a match is a miss, with or without a call of `MarkMiss`: a confirmed track that no
round of the cascade has come to only grows older.
-/
theorem inPhase_miss (ha : p.maxAge = a) {c after : Control} {φ : Phase} (h : InPhase c φ)
    (hafter : after = c.predict.miss p ∨ c.predict.state = .confirmed ∧ after = c.predict) :
    (φ.next n a false = .gone ∧ after.Dead p) ∨
      (¬after.Dead p ∧ InPhase after (φ.next n a false)) := by
  cases φ with
  | tentative hits =>
    rcases hafter with rfl | ⟨hconf, -⟩
    · exact Or.inl ⟨rfl, Or.inl (inPhase_miss_tentative h)⟩
    · exact absurd (h.1.symm.trans hconf) TrackState.noConfusion
  | confirmed misses =>
    have htime : after.timeSinceLastUpdate = misses + 1 := by
      have hpredict : c.predict.timeSinceLastUpdate = misses + 1 := congrArg (· + 1) h.2
      rcases hafter with rfl | ⟨-, rfl⟩
      · rw [miss_timeSinceLastUpdate, hpredict]
      · exact hpredict
    unfold Phase.next
    by_cases hk : misses + 1 ≤ a
    · simp only [if_pos hk]
      have hpredict : after = c.predict := by
        rcases hafter with hc | ⟨-, hc⟩
        · exact hc.trans (inPhase_miss_confirmed ha h hk)
        · exact hc
      have hin : InPhase after (.confirmed (misses + 1)) := ⟨hpredict ▸ h.1, htime⟩
      refine Or.inr ⟨?_, hin⟩
      rintro (hdel | hold)
      · exact hin.state_ne_deleted hdel
      · omega
    · simp only [if_neg hk]
      exact Or.inl ⟨trivial, Or.inr (by omega)⟩
  | gone => exact h.elim

variable [Field K] [LinearOrder K] [IsStrictOrderedRing K] {algo : MatchAlgorithm K}
  {s : FeatureMatchPrivate K} {detects out : List (DetectObject K)}

/-! ## One frame -/

/-- The frame matches the track at an index, in either stage. -/
def matchedIn (algo : MatchAlgorithm K) (s : FeatureMatchPrivate K)
    (detects : List (DetectObject K)) (i : Nat) : Bool :=
  match (matchFrame algo s.params (resetMolds detects) s.tracks).1 with
  | .error _ => false
  | .ok m => i ∈ m.pairs.map Prod.snd

/-- A call that returns, with tracks. -/
theorem updateFrame_process (hs : s.tracks ≠ []) (h : (updateFrame algo s detects).2 = .ok out) :
    ∃ u, processFrame algo s (resetMolds detects) = .ok u ∧
      survivor algo s (.updateFrame detects) = keptAt (alive s.params) u.tracks ∧
      (updateFrame algo s detects).1.tracks = u.tracks.filter (alive s.params) := by
  have hne : ¬s.tracks.isEmpty := fun he => hs (List.isEmpty_iff.mp he)
  rcases hp : processFrame algo s (resetMolds detects) with ⟨e, ts⟩ | u
  · simp [updateFrame, hne, hp] at h
  · refine ⟨u, rfl, ?_, ?_⟩
    · funext i
      simp only [survivor, if_neg hne, hp]
    · simp only [updateFrame, if_neg hne, hp]
      rfl

/-- A frame with tracks that returns. -/
theorem updateFrame_frame (hs : s.tracks ≠ []) (h : (updateFrame algo s detects).2 = .ok out) :
    ∃ m u, Frame algo s (resetMolds detects) m u ∧
      (∀ i, matchedIn algo s detects i = decide (i ∈ m.pairs.map Prod.snd)) ∧
      survivor algo s (.updateFrame detects) = keptAt (alive s.params) u.tracks ∧
      (updateFrame algo s detects).1.tracks = u.tracks.filter (alive s.params) := by
  obtain ⟨u, hp, hsurv, htracks⟩ := updateFrame_process hs h
  obtain ⟨m, hF⟩ := processFrame_ok hp
  exact ⟨m, u, hF, fun i => by simp only [matchedIn, hF.matching], hsurv, htracks⟩

theorem updateFrame_params : (updateFrame algo s detects).1.params = s.params := by
  unfold updateFrame
  by_cases hs : s.tracks.isEmpty
  · simp only [if_pos hs]
    rfl
  · simp only [if_neg hs]
    cases processFrame algo s (resetMolds detects) with
    | error e => rfl
    | ok u => rfl

omit [Field K] [LinearOrder K] [IsStrictOrderedRing K] in
theorem alive_iff {track : FeatureMatchTrackObject K} :
    alive p track = true ↔ ¬(control track).Dead p := by
  unfold alive
  exact decide_eq_true_iff

omit [Field K] [LinearOrder K] [IsStrictOrderedRing K] in
theorem alive_kept {ts : List (FeatureMatchTrackObject K)} {i : Nat}
    {track : FeatureMatchTrackObject K} (hi : ts[i]? = some track)
    (hal : ¬(control track).Dead p) :
    ∃ j, keptAt (alive p) ts i = some j ∧ (ts.filter (alive p))[j]? = some track := by
  obtain ⟨j, hj⟩ := exists_keptAt hi (alive_iff.mpr hal)
  obtain ⟨track', hi', -, hf⟩ := keptAt_eq_some hj
  obtain rfl : track = track' := Option.some.inj (hi.symm.trans hi')
  exact ⟨j, hj, hf⟩

/-- **A frame takes a track through one step of its life.** -/
theorem frame_phase (hn : s.params.nInit = n) (ha : s.params.maxAge = a)
    (h : (updateFrame algo s detects).2 = .ok out) {i : Nat} {track : FeatureMatchTrackObject K}
    (hi : s.tracks[i]? = some track) {φ : Phase} (hφ : InPhase (control track) φ) :
    (φ.next n a (matchedIn algo s detects i) = .gone ∧
      survivor algo s (.updateFrame detects) i = none) ∨
    ∃ j after, survivor algo s (.updateFrame detects) i = some j ∧
      (updateFrame algo s detects).1.tracks[j]? = some after ∧
      InPhase (control after) (φ.next n a (matchedIn algo s detects i)) := by
  have hne : s.tracks ≠ [] := by
    rintro he
    rw [he] at hi
    simp at hi
  obtain ⟨m, u, hF, hmatch, hsurv, htracks⟩ := updateFrame_frame hne h
  rw [hmatch, hsurv, htracks]
  by_cases hm : i ∈ m.pairs.map Prod.snd
  · rw [decide_eq_true hm]
    obtain ⟨⟨d, t⟩, hdt, rfl⟩ := List.mem_map.mp hm
    obtain ⟨track', after, k, ht, hget, hc, -⟩ := hF.matched d t hdt
    obtain rfl : track = track' := Option.some.inj (hi.symm.trans ht)
    have hin : InPhase (control after) (φ.next n a true) := by
      rw [hc]
      exact inPhase_update hn hφ k
    -- a match resets the misses, so that the track outlives the erasure
    have hal : ¬(control after).Dead s.params := by
      rintro (hdel | hold)
      · exact hin.state_ne_deleted hdel
      · have htime : (control after).timeSinceLastUpdate = 0 := by
          rw [hc]
          rfl
        rw [htime, ha] at hold
        omega
    obtain ⟨j, hj, hf⟩ := alive_kept hget hal
    exact Or.inr ⟨j, after, hj, hf, hin⟩
  · rw [decide_eq_false hm]
    obtain ⟨after, hget, hc⟩ := hF.unmatched i track hi hm
    rcases inPhase_miss ha hφ hc with ⟨hgone, hdead⟩ | ⟨hal, hin⟩
    · have hfalse : alive s.params after = false :=
        Bool.eq_false_iff.mpr fun hal => alive_iff.mp hal hdead
      exact Or.inl ⟨hgone, keptAt_eq_none hget hfalse⟩
    · obtain ⟨j, hj, hf⟩ := alive_kept hget hal
      exact Or.inr ⟨j, after, hj, hf, hin⟩

/-! ## From its creation on -/

/-- A track by its index, with the frames since its creation, newest first: which matched it. -/
inductive Tracked (algo : MatchAlgorithm K) : FeatureMatchPrivate K → Nat → List Bool → Prop where
  | created {s : FeatureMatchPrivate K} {detects out : List (DetectObject K)} {j : Nat}
      (hok : (updateFrame algo s detects).2 = .ok out)
      (hj : j < (updateFrame algo s detects).1.tracks.length)
      (hnew : ∀ i < s.tracks.length, survivor algo s (.updateFrame detects) i ≠ some j) :
      Tracked algo (updateFrame algo s detects).1 j []
  | frame {s : FeatureMatchPrivate K} {detects out : List (DetectObject K)} {i j : Nat}
      {h : List Bool} (ht : Tracked algo s i h) (hok : (updateFrame algo s detects).2 = .ok out)
      (hj : survivor algo s (.updateFrame detects) i = some j) :
      Tracked algo (updateFrame algo s detects).1 j (matchedIn algo s detects i :: h)

/-- A track that was not there before is a new one. -/
theorem created_start (h : (updateFrame algo s detects).2 = .ok out) {j : Nat}
    (hj : j < (updateFrame algo s detects).1.tracks.length)
    (hnew : ∀ i < s.tracks.length, survivor algo s (.updateFrame detects) i ≠ some j) :
    ∃ track, (updateFrame algo s detects).1.tracks[j]? = some track ∧ control track = .start := by
  by_cases hs : s.tracks = []
  · have htracks : (updateFrame algo s detects).1.tracks = (resetMolds detects).map initNewTrack := by
      unfold updateFrame
      simp only [if_pos (List.isEmpty_iff.mpr hs)]
      rfl
    rw [htracks] at hj ⊢
    refine ⟨_, List.getElem?_eq_getElem hj, ?_⟩
    obtain ⟨det, -, hdet⟩ := List.mem_map.mp (List.getElem_mem hj)
    rw [← hdet]
    exact control_initNewTrack det
  · obtain ⟨m, u, hF, -, hsurv, htracks⟩ := updateFrame_frame hs h
    rw [htracks] at hj ⊢
    have hget := List.getElem?_eq_getElem hj
    obtain ⟨i, hi, hk⟩ := exists_of_filter_getElem? hget
    refine ⟨_, hget, hF.started i _ (Nat.le_of_not_lt fun hlt => ?_) hi⟩
    have := hnew i hlt
    rw [hsurv] at this
    exact this hk

/-- The phase of a track is the one its frames explain. -/
theorem tracked_phase {j : Nat} {h : List Bool} (hT : Tracked algo s j h)
    (hn : s.params.nInit = n) (ha : s.params.maxAge = a) :
    ∃ track, s.tracks[j]? = some track ∧ InPhase (control track) (phase n a h) := by
  induction hT with
  | created hok hj hnew =>
    obtain ⟨track, ht, hc⟩ := created_start hok hj hnew
    refine ⟨track, ht, ?_⟩
    rw [hc]
    exact ⟨rfl, rfl, rfl⟩
  | frame _ hok hj ih =>
    rw [updateFrame_params] at hn ha
    obtain ⟨track, ht, hφ⟩ := ih hn ha
    rcases frame_phase hn ha hok ht hφ with ⟨-, hnone⟩ | ⟨j', after, hj', hget, hin⟩
    · rw [hj] at hnone
      exact absurd hnone (Option.some_ne_none _)
    · obtain rfl := Option.some.inj (hj.symm.trans hj')
      exact ⟨after, hget, hin⟩

/--
**The life of a track.**

Between frames a track is tentative or confirmed, and it is confirmed just when the first `n_init`
frames after its creation all matched it. At the next frame a tentative track stays just when it is
matched, and a confirmed one just when it was missed in at most `max_age` frames in a row.
-/
theorem tracked_lifecycle (hn : 1 ≤ s.params.nInit) (ha : 1 ≤ s.params.maxAge) {i : Nat}
    {h : List Bool} (hT : Tracked algo s i h) :
    ∃ track, s.tracks[i]? = some track ∧ (track.state = .tentative ∨ track.state = .confirmed) ∧
      (track.state = .confirmed ↔ SeenFirst s.params.nInit.toNat h) ∧
      ∀ detects out, (updateFrame algo s detects).2 = .ok out →
        (track.state = .tentative →
          (survivor algo s (.updateFrame detects) i ≠ none ↔ matchedIn algo s detects i = true)) ∧
        (track.state = .confirmed → (survivor algo s (.updateFrame detects) i ≠ none ↔
          (misses (matchedIn algo s detects i :: h) : Int) ≤ s.params.maxAge)) := by
  obtain ⟨n, hn'⟩ := Int.eq_ofNat_of_zero_le (Int.le_trans (by decide) hn)
  obtain ⟨a, ha'⟩ := Int.eq_ofNat_of_zero_le (Int.le_trans (by decide) ha)
  have hpos : 0 < n := by omega
  obtain ⟨track, ht, hφ⟩ := tracked_phase hT hn' ha'
  -- the track survives a frame just when its phase does not end there
  have hsurv : ∀ detects out, (updateFrame algo s detects).2 = .ok out →
      (survivor algo s (.updateFrame detects) i ≠ none ↔
        phase n a (matchedIn algo s detects i :: h) ≠ .gone) := by
    intro detects out hok
    rcases frame_phase hn' ha' hok ht hφ with ⟨hgone, hnone⟩ | ⟨j, after, hj, -, hin⟩
    · exact ⟨fun hc => absurd hnone hc, fun hc => absurd hgone hc⟩
    · refine ⟨fun _ hgone => ?_, fun _ hc => ?_⟩
      · rw [show (phase n a h).next n a (matchedIn algo s detects i) = .gone from hgone] at hin
        exact hin
      · rw [hj] at hc
        exact absurd hc (Option.some_ne_none _)
  have hgone : phase n a h ≠ .gone := fun hc => by
    rw [hc] at hφ
    exact hφ
  have hiff := phase_confirmed_iff hpos hgone
  rw [hn', ha', Int.toNat_natCast]
  refine ⟨track, ht, ?_⟩
  cases hψ : phase n a h with
  | tentative k =>
    rw [hψ] at hφ hiff
    have hst : track.state = .tentative := hφ.1
    rw [hst]
    refine ⟨Or.inl rfl, ⟨fun hc => TrackState.noConfusion hc, fun hs => ?_⟩, fun detects out hok =>
      ⟨fun _ => ?_, fun hc => TrackState.noConfusion hc⟩⟩
    · obtain ⟨k', hk'⟩ := hiff.mpr hs
      exact Phase.noConfusion hk'
    · rw [hsurv detects out hok, phase, hψ]
      cases matchedIn algo s detects i with
      | true =>
        unfold Phase.next
        by_cases hc : n ≤ k + 1
        · simp only [if_pos hc, ne_eq, reduceCtorEq, not_false_eq_true]
        · simp only [if_neg hc, ne_eq, reduceCtorEq, not_false_eq_true]
      | false => exact ⟨fun hc => absurd rfl hc, fun hc => Bool.noConfusion hc⟩
  | confirmed k =>
    rw [hψ] at hφ hiff
    have hst : track.state = .confirmed := hφ.1
    rw [hst]
    refine ⟨Or.inr rfl, ⟨fun _ => hiff.mp ⟨k, rfl⟩, fun _ => rfl⟩, fun detects out hok =>
      ⟨fun hc => TrackState.noConfusion hc, fun _ => ?_⟩⟩
    rw [hsurv detects out hok, ne_eq, next_confirmed_gone_iff hpos hψ]
    omega
  | gone => exact absurd hψ hgone

/-- The track of `sampleCalls` after its two frames. -/
theorem tracked_lifecycle_sample : ∃ track,
    (run (munkres ratSqrt) initial sampleCalls).tracks[0]? = some track ∧
      (track.state = .confirmed ↔ SeenFirst 1 [true]) := by
  have hm : matchedIn (munkres ratSqrt) sampleStart [sampleDetect] 0 = true := by
    decide +kernel
  have hT₀ : Tracked (munkres ratSqrt) (updateFrame (munkres ratSqrt)
      (run (munkres ratSqrt) initial (sampleCalls.take 1)) [sampleDetect]).1 0 [] :=
    Tracked.created rfl (by decide +kernel) fun i hi => absurd hi (Nat.not_lt_zero i)
  have hT : Tracked (munkres ratSqrt) (run (munkres ratSqrt) initial sampleCalls) 0 [true] :=
    hm ▸ Tracked.frame hT₀ sample_output (by decide +kernel)
  have hn : (run (munkres ratSqrt) initial sampleCalls).params.nInit = 1 := by
    decide +kernel
  obtain ⟨track, ht, -, hc, -⟩ := tracked_lifecycle (by rw [hn]) (by decide +kernel) hT
  rw [hn] at hc
  exact ⟨track, ht, hc⟩

end CambriconGst.TrackFm
