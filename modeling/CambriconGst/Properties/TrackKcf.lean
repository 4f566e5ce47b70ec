import Mathlib.Tactic.Ring
import CambriconGst.Easytrack.TrackKcf
import CambriconGst.Properties.Match
import CambriconGst.Properties.MatchAlgorithm

/-!
# The tracks of the KCF tracker

* `processTrack_valid`: ids stay pairwise distinct and below the next id
* `processTrack_associated_iff`: when a key frame leaves each detection with one track, and with
  each track only what the assignment gave it
-/

namespace CambriconGst.TrackKcf

open Lib Easytrack

variable {K : Type}

/-! ## The invariant -/

/-- The tracks between frames. -/
structure Valid (p : KcfTrackPrivate K) : Prop where
  nodup : (p.trackObjs.map (·.trackId)).Nodup
  lt : ∀ t ∈ p.trackObjs, t.trackId < p.nextIdx
  confirmed : ∀ t ∈ p.trackObjs, t.state = .confirmed

/-- Only ids and states matter. -/
theorem Valid.congr {p : KcfTrackPrivate K} (h : Valid p) {ts : List (KcfTrackObject K)}
    (hts : ts.map (fun t => (t.trackId, t.state)) = p.trackObjs.map fun t => (t.trackId, t.state)) :
    Valid { p with trackObjs := ts } := by
  have hids : ts.map (·.trackId) = p.trackObjs.map (·.trackId) := by
    have := congrArg (List.map Prod.fst) hts
    simpa only [List.map_map, Function.comp_def] using this
  have hmem : ∀ t ∈ ts, ∃ t₀ ∈ p.trackObjs, t₀.trackId = t.trackId ∧ t₀.state = t.state := by
    intro t ht
    have hm : (t.trackId, t.state) ∈ ts.map fun t => (t.trackId, t.state) :=
      List.mem_map.mpr ⟨t, ht, rfl⟩
    rw [hts] at hm
    obtain ⟨t₀, ht₀, he⟩ := List.mem_map.mp hm
    exact ⟨t₀, ht₀, (Prod.mk.inj he).1, (Prod.mk.inj he).2⟩
  refine ⟨?_, fun t ht => ?_, fun t ht => ?_⟩
  · exact hids ▸ h.nodup
  · obtain ⟨t₀, ht₀, he, -⟩ := hmem t ht
    exact he ▸ h.lt t₀ ht₀
  · obtain ⟨t₀, ht₀, -, hs⟩ := hmem t ht
    exact hs ▸ h.confirmed t₀ ht₀

/-- A state the tracker can be in. -/
abbrev ValidTracks (K : Type) := { p : KcfTrackPrivate K // Valid p }

variable [Field K]

/-- The tracks `N` that `pushTrack` appends for the detections at `idxs`, ids counting from `n`. -/
structure Pushed (detObjs : List (DetectObject K)) (n : Int) (idxs : List Nat)
    (N : List (KcfTrackObject K)) : Prop where
  ids : N.map (·.trackId) = (List.range idxs.length).map fun k => n + (k : Nat)
  outIdx : N.map (·.kcfOutIdx) = idxs
  new : ∀ t ∈ N, t.state = .confirmed ∧
    ∃ det, detObjs[t.kcfOutIdx]? = some det ∧ t.rect = boundingBox2Rect det.bbox

theorem pushTracks_spec {detObjs : List (DetectObject K)} {idxs : List Nat} :
    ∀ {p p' : KcfTrackPrivate K}, idxs.foldlM (pushTrack detObjs) p = .ok p' →
      ∃ N, Pushed detObjs p.nextIdx idxs N ∧
        p' = { trackObjs := p.trackObjs ++ N, nextIdx := p.nextIdx + idxs.length } := by
  induction idxs with
  | nil =>
    intro p p' h
    obtain rfl := Except.ok.inj h
    exact ⟨[], ⟨rfl, rfl, by simp⟩, by simp⟩
  | cons idx idxs ih =>
    intro p p' h
    obtain ⟨q, hq, h⟩ := bind_eq_ok.mp h
    obtain ⟨det, hd, hq⟩ := bind_eq_ok.mp hq
    obtain rfl := Except.ok.inj hq
    obtain ⟨N, ⟨hids, hout, hnew⟩, rfl⟩ := ih h
    refine ⟨newTrack p.nextIdx det idx :: N, ⟨?_, ?_, ?_⟩, ?_⟩
    · rw [List.map_cons, hids, List.length_cons, List.range_succ_eq_map, List.map_cons,
        List.map_map]
      congr 1
      · simp [newTrack]
      · exact List.map_congr_left fun k _ => by simp only [Function.comp, Nat.cast_succ]; ring
    · rw [List.map_cons, hout]
      rfl
    · intro t ht
      rcases List.mem_cons.mp ht with rfl | ht
      · exact ⟨rfl, det, readAt_eq_ok.mp hd, rfl⟩
      · exact hnew t ht
    · simp only [List.append_assoc, List.singleton_append, List.length_cons, Nat.cast_succ]
      congr 1
      ring

/-- New tracks after those kept keep the invariant. -/
theorem Valid.push {detObjs : List (DetectObject K)} {p : KcfTrackPrivate K} {idxs : List Nat}
    {N : List (KcfTrackObject K)} (h : Valid p) (hN : Pushed detObjs p.nextIdx idxs N) :
    Valid { trackObjs := p.trackObjs ++ N, nextIdx := p.nextIdx + idxs.length } := by
  have hid : ∀ t ∈ N, p.nextIdx ≤ t.trackId ∧ t.trackId < p.nextIdx + idxs.length := by
    intro t ht
    have hm : t.trackId ∈ N.map (·.trackId) := List.mem_map.mpr ⟨t, ht, rfl⟩
    rw [hN.ids] at hm
    obtain ⟨k, hk, he⟩ := List.mem_map.mp hm
    rw [List.mem_range] at hk
    omega
  refine ⟨?_, fun t ht => ?_, fun t ht => ?_⟩
  · rw [List.map_append, List.nodup_append]
    refine ⟨h.nodup, ?_, fun a ha b hb => ?_⟩
    · rw [hN.ids]
      exact List.nodup_range.map fun a b he => by simpa using he
    · obtain ⟨t, ht, rfl⟩ := List.mem_map.mp ha
      obtain ⟨t', ht', rfl⟩ := List.mem_map.mp hb
      have := h.lt t ht
      have := (hid t' ht').1
      omega
  · rcases List.mem_append.mp ht with ht | ht
    · have := h.lt t ht
      simp only
      omega
    · exact (hid t ht).2
  · rcases List.mem_append.mp ht with ht | ht
    · exact h.confirmed t ht
    · exact (hN.new t ht).1

/-! ## A key frame -/

theorem matchTrack_eq_ok {detObjs : List (DetectObject K)} {m : Nat × Nat}
    {g : KcfTrackObject K → KcfTrackObject K} : matchTrack detObjs m = .ok g ↔
      ∃ det, detObjs[m.1]? = some det ∧ takeDetection det m.1 = g := by
  unfold matchTrack
  rw [bind_eq_ok]
  exact exists_congr fun det =>
    and_congr readAt_eq_ok ⟨fun hg => Except.ok.inj hg, fun hg => congrArg Except.ok hg⟩

variable [LinearOrder K] {algo : MatchAlgorithm K} {maxIouDistance : K}

/--
The assignment of a key frame gives column `j` to row `i` within the limit: detection `i` and
track `j`, as the cost matrix is built.
-/
def Assigned (algo : MatchAlgorithm K) (maxIouDistance : K) (detObjs : List (DetectObject K))
    (trackObjs : List (KcfTrackObject K)) (i j : Nat) : Prop :=
  Accepted (distCost detObjs trackObjs) maxIouDistance
    (algo.hungarianMatch (distCost detObjs trackObjs)) i j

/--
The tracks of a key frame before the deleted ones are erased: row `i` of the assignment has been
taken for track `i`, its column for a detection.
-/
structure Marked (algo : MatchAlgorithm K) (maxIouDistance : K) (detObjs : List (DetectObject K))
    (trackObjs us : List (KcfTrackObject K)) : Prop where
  length : us.length = trackObjs.length
  ids : us.map (·.trackId) = trackObjs.map (·.trackId)
  rows : detObjs.length ≤ trackObjs.length
  cols : ∀ i j, Assigned algo maxIouDistance detObjs trackObjs i j → j < detObjs.length
  taken : ∀ i j, Assigned algo maxIouDistance detObjs trackObjs i j → ∃ det,
    detObjs[j]? = some det ∧ us[i]? = trackObjs[i]?.map (takeDetection det j)
  deleted : ∀ i, i < detObjs.length → (∀ j, ¬Assigned algo maxIouDistance detObjs trackObjs i j) →
    us[i]? = trackObjs[i]?.map fun tra => { tra with state := .deleted }
  rest : ∀ i, detObjs.length ≤ i → us[i]? = trackObjs[i]?

theorem hungarianMatch_length (detObjs : List (DetectObject K))
    (trackObjs : List (KcfTrackObject K)) :
    (algo.hungarianMatch (distCost detObjs trackObjs)).length = detObjs.length := by
  rw [(algo.valid _).length]
  simp [distCost, iouCost]

section Arranged

variable {detObjs : List (DetectObject K)} {trackObjs : List (KcfTrackObject K)} {res : MatchResult}

/-- What `arrange` returns on a key frame. -/
abbrev KeyFrame (algo : MatchAlgorithm K) (maxIouDistance : K) (detObjs : List (DetectObject K))
    (trackObjs : List (KcfTrackObject K)) (res : MatchResult) : Prop :=
  ArrangeSpec (distCost detObjs trackObjs) maxIouDistance (List.range detObjs.length)
    (List.range (algo.hungarianMatch (distCost detObjs trackObjs)).length)
    (algo.hungarianMatch (distCost detObjs trackObjs)) res

theorem mem_matched (h : KeyFrame algo maxIouDistance detObjs trackObjs res) {i j : Nat} :
    (j, i) ∈ res.matched ↔ Assigned algo maxIouDistance detObjs trackObjs i j := by
  rw [h.mem]
  constructor
  · rintro ⟨i', j', ha, hj, hi⟩
    obtain ⟨_, hj⟩ := List.getElem?_eq_some_iff.mp hj
    obtain ⟨_, hi⟩ := List.getElem?_eq_some_iff.mp hi
    rw [List.getElem_range] at hj hi
    subst hj hi
    exact ha
  · intro ha
    have hj : j < detObjs.length := by simpa using h.cols i j ha
    obtain ⟨hi, -⟩ := List.getElem?_eq_some_iff.mp ha.1
    exact ⟨i, j, ha, List.getElem?_range hj, List.getElem?_range hi⟩

theorem mem_unmatchedTracks (h : KeyFrame algo maxIouDistance detObjs trackObjs res) {i : Nat} :
    i ∈ res.unmatchedTracks ↔
      i < detObjs.length ∧ ∀ j, ¬Assigned algo maxIouDistance detObjs trackObjs i j := by
  have hperm := h.tracks
  rw [List.take_of_length_le (by simp), hungarianMatch_length] at hperm
  have hnd := List.nodup_append.mp (hperm.nodup_iff.mpr List.nodup_range)
  have hmem : i ∈ res.matched.map Prod.snd ↔
      ∃ j, Assigned algo maxIouDistance detObjs trackObjs i j := by
    rw [List.mem_map]
    exact ⟨fun ⟨⟨j, i'⟩, hm, he⟩ => ⟨j, by obtain rfl : i' = i := he; exact (mem_matched h).mp hm⟩,
      fun ⟨j, hj⟩ => ⟨(j, i), (mem_matched h).mpr hj, rfl⟩⟩
  have hrange := hperm.mem_iff (a := i)
  rw [List.mem_append, List.mem_range, hmem] at hrange
  constructor
  · intro hi
    refine ⟨hrange.mp (Or.inr hi), fun j hj => ?_⟩
    exact hnd.2.2 i (hmem.mpr ⟨j, hj⟩) i hi rfl
  · rintro ⟨hlt, hno⟩
    exact (hrange.mpr hlt).resolve_left fun ⟨j, hj⟩ => hno j hj

theorem nodup_unmatchedTracks (h : KeyFrame algo maxIouDistance detObjs trackObjs res) :
    res.unmatchedTracks.Nodup :=
  (List.nodup_append.mp (h.tracks.nodup_iff.mpr (List.nodup_range.sublist (List.take_sublist _ _)))).2.1

end Arranged

/-- What the key frame branch does when it reads nothing out of range. -/
theorem associate_spec {detObjs : List (DetectObject K)} {p p' : KcfTrackPrivate K}
    (h : associate algo maxIouDistance detObjs p = .ok p') :
    ∃ res us N, KeyFrame algo maxIouDistance detObjs p.trackObjs res ∧
      Marked algo maxIouDistance detObjs p.trackObjs us ∧
      Pushed detObjs p.nextIdx res.unmatchedDetections N ∧
      p' = { trackObjs := (us.filter fun tra => tra.state ≠ .deleted) ++ N
             nextIdx := p.nextIdx + res.unmatchedDetections.length } := by
  obtain ⟨res, hres, h⟩ := bind_eq_ok.mp h
  obtain ⟨ts, hts, h⟩ := bind_eq_ok.mp h
  obtain ⟨us, hus, h⟩ := bind_eq_ok.mp h
  obtain ⟨N, hN, rfl⟩ := pushTracks_spec h
  have hK : KeyFrame algo maxIouDistance detObjs p.trackObjs res := arrange_spec hres
  refine ⟨res, us, N, hK, ?_, hN, rfl⟩
  have hsnd : (res.matched.map Prod.snd).Nodup := hK.nodup_tracks List.nodup_range
  -- the two loops write at indices that the result keeps apart
  have hun : ∀ {i}, i ∉ res.unmatchedTracks → us[i]? = ts[i]? := fun hi =>
    updateEach_getElem?_of_notMem hus (by simpa using hi)
  have hin : ∀ {i j}, Assigned algo maxIouDistance detObjs p.trackObjs i j →
      i ∉ res.unmatchedTracks := fun ha hm => ((mem_unmatchedTracks hK).mp hm).2 _ ha
  have hout : ∀ {i}, (∀ j, ¬Assigned algo maxIouDistance detObjs p.trackObjs i j) →
      ts[i]? = p.trackObjs[i]? := by
    intro i hno
    refine updateEach_getElem?_of_notMem hts fun hm => ?_
    obtain ⟨⟨j, i'⟩, hji, rfl⟩ := List.mem_map.mp hm
    exact hno j ((mem_matched hK).mp hji)
  have hlen : us.length = p.trackObjs.length := (updateEach_length hus).trans (updateEach_length hts)
  -- each row of the result is written by one of the loops, so that it is a track
  have hrows : ∀ i, i < detObjs.length → i < p.trackObjs.length := by
    intro i hi
    by_cases hex : ∃ j, Assigned algo maxIouDistance detObjs p.trackObjs i j
    · obtain ⟨j, hj⟩ := hex
      exact updateEach_lt hts _ ((mem_matched hK).mpr hj)
    · rw [← updateEach_length hts]
      exact updateEach_lt hus i ((mem_unmatchedTracks hK).mpr ⟨hi, fun j hj => hex ⟨j, hj⟩⟩)
  constructor
  · exact hlen
  · rw [updateEach_map hus (fun _ _ g hg x => by obtain rfl := Except.ok.inj hg; rfl),
      updateEach_map hts (fun m _ g hg x => by obtain ⟨det, -, rfl⟩ := matchTrack_eq_ok.mp hg; rfl)]
  · by_contra hlt
    exact absurd (hrows p.trackObjs.length (by omega)) (lt_irrefl _)
  · intro i j ha
    simpa using hK.cols i j ha
  · intro i j ha
    obtain ⟨g, hg, hget⟩ := updateEach_getElem?_of_mem hts hsnd ((mem_matched hK).mpr ha)
    obtain ⟨det, hd, rfl⟩ := matchTrack_eq_ok.mp hg
    exact ⟨det, hd, (hun (hin ha)).trans hget⟩
  · intro i hi hno
    obtain ⟨g, hg, hget⟩ := updateEach_getElem?_of_mem hus
      (by simpa using nodup_unmatchedTracks hK) ((mem_unmatchedTracks hK).mpr ⟨hi, hno⟩)
    obtain rfl := Except.ok.inj hg
    rw [id, hout hno] at hget
    exact hget
  · intro i hi
    have hno : ∀ j, ¬Assigned algo maxIouDistance detObjs p.trackObjs i j := by
      intro j hj
      have := (List.getElem?_eq_some_iff.mp hj.1).1
      rw [hungarianMatch_length] at this
      omega
    rw [hun fun hm => by have := ((mem_unmatchedTracks hK).mp hm).1; omega, hout hno]

/-- The key frame branch succeeds when there are as many detections as tracks. -/
theorem associate_ok {detObjs : List (DetectObject K)} {p : KcfTrackPrivate K}
    (hlen : p.trackObjs.length = detObjs.length) :
    ∃ p', associate algo maxIouDistance detObjs p = .ok p' := by
  have hv := algo.valid (distCost detObjs p.trackObjs)
  have hrows : (distCost detObjs p.trackObjs).rows
      = (List.range (algo.hungarianMatch (distCost detObjs p.trackObjs)).length).length := by
    rw [List.length_range, hv.length]
  have hcols : (distCost detObjs p.trackObjs).cols = (List.range detObjs.length).length := by
    simp [distCost, iouCost, hlen]
  obtain ⟨res, hres⟩ : ∃ res, arrange (distCost detObjs p.trackObjs) maxIouDistance _ _ _ = .ok res :=
    arrange_ok hv hrows hcols
  have hK : KeyFrame algo maxIouDistance detObjs p.trackObjs res := arrange_spec hres
  obtain ⟨ts, hts⟩ : ∃ ts, updateEach Fault.outOfRange Prod.snd (matchTrack detObjs) res.matched
      p.trackObjs = .ok ts := updateEach_ok fun m hm => by
      have ha := (mem_matched hK).mp hm
      have hj : m.1 < detObjs.length := by simpa using hK.cols _ _ ha
      have hi := (List.getElem?_eq_some_iff.mp ha.1).1
      rw [hungarianMatch_length] at hi
      exact ⟨⟨_, matchTrack_eq_ok.mpr ⟨detObjs[m.1], List.getElem?_eq_getElem hj, rfl⟩⟩, by omega⟩
  obtain ⟨us, hus⟩ : ∃ us, updateEach Fault.outOfRange id
      (fun _ => .ok fun tra => { tra with state := .deleted }) res.unmatchedTracks ts = .ok us :=
    updateEach_ok fun i hi => by
      have := ((mem_unmatchedTracks hK).mp hi).1
      rw [updateEach_length hts]
      exact ⟨⟨_, rfl⟩, by simpa using hlen ▸ this⟩
  obtain ⟨p', hp'⟩ : ∃ p', res.unmatchedDetections.foldlM (pushTrack detObjs)
      { p with trackObjs := us.filter fun tra => tra.state ≠ .deleted } = .ok p' :=
    foldlM_ok fun q idx hidx => by
      rw [hK.remained] at hidx
      have hlt : idx < detObjs.length := List.mem_range.mp ((List.diff_subset _ _) hidx)
      exact ⟨_, bind_eq_ok.mpr ⟨detObjs[idx], readAt_of_lt hlt, rfl⟩⟩
  exact ⟨p', bind_eq_ok.mpr ⟨res, hres, bind_eq_ok.mpr ⟨ts, hts, bind_eq_ok.mpr ⟨us, hus, hp'⟩⟩⟩⟩

theorem associate_valid {detObjs : List (DetectObject K)} {p p' : KcfTrackPrivate K} (hv : Valid p)
    (h : associate algo maxIouDistance detObjs p = .ok p') : Valid p' := by
  obtain ⟨res, us, N, -, hM, hN, rfl⟩ := associate_spec h
  refine Valid.push (p := { p with trackObjs := us.filter fun tra => tra.state ≠ .deleted })
    ⟨?_, fun t ht => ?_, fun t ht => ?_⟩ hN
  · exact (hM.ids ▸ hv.nodup).sublist (List.filter_sublist.map _)
  · have hm : t.trackId ∈ us.map (·.trackId) := List.mem_map.mpr ⟨t, (List.mem_filter.mp ht).1, rfl⟩
    rw [hM.ids] at hm
    obtain ⟨t₀, ht₀, he⟩ := List.mem_map.mp hm
    exact he ▸ hv.lt t₀ ht₀
  · obtain ⟨ht, hs⟩ := List.mem_filter.mp ht
    obtain ⟨i, hi⟩ := List.mem_iff_getElem?.mp ht
    by_cases hlt : i < detObjs.length
    · by_cases hex : ∃ j, Assigned algo maxIouDistance detObjs p.trackObjs i j
      · obtain ⟨j, hj⟩ := hex
        obtain ⟨det, -, hu⟩ := hM.taken i j hj
        obtain ⟨t₀, h₀, rfl⟩ := Option.map_eq_some_iff.mp (hu.symm.trans hi)
        exact hv.confirmed t₀ (List.mem_of_getElem? h₀)
      · have hu := hM.deleted i hlt fun j hj => hex ⟨j, hj⟩
        obtain ⟨t₀, -, rfl⟩ := Option.map_eq_some_iff.mp (hu.symm.trans hi)
        simp at hs
    · exact hv.confirmed t (List.mem_of_getElem? ((hM.rest i (by omega)).symm.trans hi))

/-- **The invariant holds after every frame.** -/
theorem processTrack_valid {detObjs : List (DetectObject K)} {frameIndex : Nat}
    {p p' : KcfTrackPrivate K} (hv : Valid p)
    (h : processTrack algo maxIouDistance detObjs frameIndex p = .ok p') : Valid p' := by
  unfold processTrack at h
  split at h
  · obtain rfl := Except.ok.inj h
    exact ⟨List.nodup_nil, by simp, by simp⟩
  · split at h
    · obtain ⟨N, hN, rfl⟩ := pushTracks_spec h
      exact hv.push hN
    · split at h
      · obtain ⟨ts, hts, h⟩ := bind_eq_ok.mp h
        obtain rfl := Except.ok.inj h
        refine hv.congr (mapM_map (fun t t' hf => ?_) hts)
        obtain ⟨det, -, hf⟩ := bind_eq_ok.mp hf
        obtain rfl := Except.ok.inj hf
        rfl
      · exact associate_valid hv h

/-! ## Association -/

/--
What a key frame is to leave, from the tracks of `p`: one track for each detection, and of the old
tracks those the assignment gave a detection, with that detection.
-/
structure Associated (algo : MatchAlgorithm K) (maxIouDistance : K)
    (detObjs : List (DetectObject K)) (p p' : KcfTrackPrivate K) : Prop where
  detections : (p'.trackObjs.map (·.kcfOutIdx)).Perm (List.range detObjs.length)
  rects : ∀ t ∈ p'.trackObjs,
    ∃ det, detObjs[t.kcfOutIdx]? = some det ∧ t.rect = boundingBox2Rect det.bbox
  kept : ∀ (j : Nat) t, p.trackObjs[j]? = some t → ∀ t' ∈ p'.trackObjs, t'.trackId = t.trackId →
    Assigned algo maxIouDistance detObjs p.trackObjs t'.kcfOutIdx j
  removed : ∀ (j : Nat) t, p.trackObjs[j]? = some t →
    (∀ i, ¬Assigned algo maxIouDistance detObjs p.trackObjs i j) →
    ∀ t' ∈ p'.trackObjs, t'.trackId ≠ t.trackId

/--
No detection; or as many detections as tracks, and whatever the assignment pairs within the limit
it pairs both ways.
-/
def Balanced (algo : MatchAlgorithm K) (maxIouDistance : K) (detObjs : List (DetectObject K))
    (trackObjs : List (KcfTrackObject K)) : Prop :=
  detObjs = [] ∨ (trackObjs.length = detObjs.length ∧
    ∀ i j, Assigned algo maxIouDistance detObjs trackObjs i j →
      Assigned algo maxIouDistance detObjs trackObjs j i)

/-- A taken track stays on, under its id. -/
theorem Marked.mem_kept {detObjs : List (DetectObject K)} {p : KcfTrackPrivate K}
    {us : List (KcfTrackObject K)} (hM : Marked algo maxIouDistance detObjs p.trackObjs us)
    (hv : Valid p) {i j : Nat} (ha : Assigned algo maxIouDistance detObjs p.trackObjs i j) :
    ∃ t det, p.trackObjs[i]? = some t ∧ detObjs[j]? = some det ∧
      takeDetection det j t ∈ us.filter fun tra => tra.state ≠ .deleted := by
  obtain ⟨det, hd, hu⟩ := hM.taken i j ha
  have hi := (List.getElem?_eq_some_iff.mp ha.1).1
  rw [hungarianMatch_length] at hi
  have hlt : i < p.trackObjs.length := lt_of_lt_of_le hi hM.rows
  have ht := List.getElem?_eq_getElem hlt
  refine ⟨p.trackObjs[i], det, ht, hd, List.mem_filter.mpr ⟨?_, ?_⟩⟩
  · rw [ht] at hu
    exact List.mem_of_getElem? hu
  · have := hv.confirmed _ (List.mem_of_getElem? ht)
    simp [takeDetection, this]

/-- With as many detections as tracks, only taken tracks stay on. -/
theorem Marked.taken_of_kept {detObjs : List (DetectObject K)} {p : KcfTrackPrivate K}
    {us : List (KcfTrackObject K)} (hM : Marked algo maxIouDistance detObjs p.trackObjs us)
    (hlen : p.trackObjs.length = detObjs.length) {i : Nat} {t' : KcfTrackObject K}
    (hi : us[i]? = some t') (hs : t'.state ≠ .deleted) :
    ∃ t det, p.trackObjs[i]? = some t ∧ detObjs[t'.kcfOutIdx]? = some det ∧
      t' = takeDetection det t'.kcfOutIdx t ∧
      Assigned algo maxIouDistance detObjs p.trackObjs i t'.kcfOutIdx := by
  have hlt : i < detObjs.length := by
    rw [← hlen, ← hM.length]
    exact (List.getElem?_eq_some_iff.mp hi).1
  by_cases hex : ∃ j, Assigned algo maxIouDistance detObjs p.trackObjs i j
  · obtain ⟨j, hj⟩ := hex
    obtain ⟨det, hd, hu⟩ := hM.taken i j hj
    obtain ⟨t, ht, rfl⟩ := Option.map_eq_some_iff.mp (hu.symm.trans hi)
    exact ⟨t, det, ht, hd, rfl, hj⟩
  · have hu := hM.deleted i hlt fun j hj => hex ⟨j, hj⟩
    obtain ⟨t, -, rfl⟩ := Option.map_eq_some_iff.mp (hu.symm.trans hi)
    exact absurd rfl hs

/-- The detections the surviving tracks carry are those matched. -/
theorem Marked.perm_kept {detObjs : List (DetectObject K)} {p : KcfTrackPrivate K}
    {us : List (KcfTrackObject K)} {res : MatchResult}
    (hM : Marked algo maxIouDistance detObjs p.trackObjs us) (hv : Valid p)
    (hK : KeyFrame algo maxIouDistance detObjs p.trackObjs res)
    (hlen : p.trackObjs.length = detObjs.length) :
    ((us.filter fun tra => tra.state ≠ .deleted).map (·.kcfOutIdx)).Perm
      (res.matched.map Prod.fst) := by
  have hassign := algo.valid (distCost detObjs p.trackObjs)
  refine (List.perm_ext_iff_of_nodup ?_
    (hK.nodup_detections hassign List.nodup_range List.nodup_range)).mpr fun d => ?_
  · rw [List.Nodup, List.pairwise_map, List.pairwise_filter, List.pairwise_iff_getElem]
    intro i i' hi hi' hlt hs hs' he
    obtain ⟨-, -, -, -, -, ha⟩ :=
      hM.taken_of_kept hlen (List.getElem?_eq_getElem hi) (by simpa using hs)
    obtain ⟨-, -, -, -, -, ha'⟩ :=
      hM.taken_of_kept hlen (List.getElem?_eq_getElem hi') (by simpa using hs')
    rw [he] at ha
    exact absurd (ha.row_unique hassign ha') (by omega)
  · rw [List.mem_map, List.mem_map]
    constructor
    · rintro ⟨t', ht', rfl⟩
      obtain ⟨hm, hs⟩ := List.mem_filter.mp ht'
      obtain ⟨i, hi⟩ := List.mem_iff_getElem?.mp hm
      obtain ⟨-, -, -, -, -, ha⟩ := hM.taken_of_kept hlen hi (by simpa using hs)
      exact ⟨(t'.kcfOutIdx, i), (mem_matched hK).mpr ha, rfl⟩
    · rintro ⟨⟨j, i⟩, hm, rfl⟩
      obtain ⟨t, det, -, -, hin⟩ := hM.mem_kept hv ((mem_matched hK).mp hm)
      exact ⟨_, hin, rfl⟩

/-- With as many detections as tracks, each detection gets one track. -/
theorem associate_perm {detObjs : List (DetectObject K)} {p p' : KcfTrackPrivate K}
    (hv : Valid p) (hlen : p.trackObjs.length = detObjs.length)
    (h : associate algo maxIouDistance detObjs p = .ok p') :
    (p'.trackObjs.map (·.kcfOutIdx)).Perm (List.range detObjs.length) := by
  obtain ⟨res, us, N, hK, hM, hN, rfl⟩ := associate_spec h
  rw [List.map_append, hN.outIdx]
  exact ((hM.perm_kept hv hK hlen).append_right _).trans
    (hK.detections (algo.valid (distCost detObjs p.trackObjs)) List.nodup_range List.nodup_range)

theorem associate_associated {detObjs : List (DetectObject K)} {p p' : KcfTrackPrivate K}
    (hv : Valid p) (hlen : p.trackObjs.length = detObjs.length)
    (hsymm : ∀ i j, Assigned algo maxIouDistance detObjs p.trackObjs i j →
      Assigned algo maxIouDistance detObjs p.trackObjs j i)
    (h : associate algo maxIouDistance detObjs p = .ok p') :
    Associated algo maxIouDistance detObjs p p' := by
  have hperm := associate_perm hv hlen h
  obtain ⟨res, us, N, hK, hM, hN, rfl⟩ := associate_spec h
  have hkept : ∀ (j : Nat) t, p.trackObjs[j]? = some t →
      ∀ t' ∈ (us.filter fun tra => tra.state ≠ .deleted) ++ N, t'.trackId = t.trackId →
        Assigned algo maxIouDistance detObjs p.trackObjs t'.kcfOutIdx j := by
    intro j t ht t' ht' he
    rcases List.mem_append.mp ht' with ht' | ht'
    · obtain ⟨hm, hs⟩ := List.mem_filter.mp ht'
      obtain ⟨i, hi⟩ := List.mem_iff_getElem?.mp hm
      obtain ⟨t₀, det, h₀, -, htake, ha⟩ := hM.taken_of_kept hlen hi (by simpa using hs)
      -- ids are distinct, so the track found is the old track at `j`
      have hij : i = j := by
        obtain ⟨hlt, -⟩ := List.getElem?_eq_some_iff.mp h₀
        have hid : (p.trackObjs.map (·.trackId))[i]? = (p.trackObjs.map (·.trackId))[j]? := by
          rw [List.getElem?_map, List.getElem?_map, h₀, ht, Option.map_some, Option.map_some, ← he,
            htake]
          rfl
        exact (List.getElem?_inj (by simpa using hlt) hv.nodup).mp hid
      exact hij ▸ hsymm _ _ ha
    · have hm : t'.trackId ∈ N.map (·.trackId) := List.mem_map.mpr ⟨t', ht', rfl⟩
      rw [hN.ids] at hm
      obtain ⟨k, -, hk⟩ := List.mem_map.mp hm
      have := hv.lt t (List.mem_of_getElem? ht)
      omega
  refine ⟨hperm, fun t ht => ?_, hkept, fun j t ht hno t' ht' he => hno _ (hkept j t ht t' ht' he)⟩
  · rcases List.mem_append.mp ht with ht | ht
    · obtain ⟨hm, hs⟩ := List.mem_filter.mp ht
      obtain ⟨i, hi⟩ := List.mem_iff_getElem?.mp hm
      obtain ⟨t₀, det, -, hd, htake, -⟩ := hM.taken_of_kept hlen hi (by simpa using hs)
      exact ⟨det, hd, by rw [htake]; rfl⟩
    · exact (hN.new t ht).2

/-- An association that does what it should has as many detections as tracks and is symmetric. -/
theorem balanced_of_associated {detObjs : List (DetectObject K)} {p p' : KcfTrackPrivate K}
    (hv : Valid p) (h : associate algo maxIouDistance detObjs p = .ok p')
    (hA : Associated algo maxIouDistance detObjs p p') :
    Balanced algo maxIouDistance detObjs p.trackObjs := by
  obtain ⟨res, us, N, hK, hM, hN, rfl⟩ := associate_spec h
  refine Or.inr ⟨?_, fun i j ha => ?_⟩
  · by_contra hne
    have hlt : detObjs.length < p.trackObjs.length := lt_of_le_of_ne hM.rows (Ne.symm hne)
    -- the track after the last row is never marked, and no row can have been given it
    have ht := List.getElem?_eq_getElem hlt
    have hu := (hM.rest _ (Nat.le_refl _)).trans ht
    have hin : p.trackObjs[detObjs.length] ∈ us.filter fun tra => tra.state ≠ .deleted := by
      refine List.mem_filter.mpr ⟨List.mem_of_getElem? hu, ?_⟩
      simp [hv.confirmed _ (List.mem_of_getElem? ht)]
    have := hM.cols _ _ (hA.kept _ _ ht _ (List.mem_append_left _ hin) rfl)
    exact lt_irrefl _ this
  · obtain ⟨t, det, ht, -, hin⟩ := hM.mem_kept hv ha
    exact hA.kept i t ht _ (List.mem_append_left _ hin) rfl

/--
**When a key frame associates tracks with detections.**

Exactly when there is nothing to associate, or the rows of the assignment can be read as tracks.
-/
theorem processTrack_associated_iff (p : ValidTracks K) (hne : p.1.trackObjs ≠ [])
    {frameIndex : Nat} (hkey : frameIndex % 4 = 0) (detObjs : List (DetectObject K)) :
    (∃ p', processTrack algo maxIouDistance detObjs frameIndex p.1 = .ok p' ∧
        Associated algo maxIouDistance detObjs p.1 p') ↔
      Balanced algo maxIouDistance detObjs p.1.trackObjs := by
  obtain ⟨p, hv⟩ := p
  by_cases hd : detObjs = []
  · subst hd
    refine ⟨fun _ => Or.inl rfl, fun _ => ⟨{ p with trackObjs := [] }, rfl, ?_⟩⟩
    exact ⟨List.Perm.nil, by simp, by simp, by simp⟩
  · have hrun : processTrack algo maxIouDistance detObjs frameIndex p
        = associate algo maxIouDistance detObjs p := by
      simp [processTrack, hd, hne, hkey]
    rw [hrun]
    constructor
    · rintro ⟨p', h, hA⟩
      exact balanced_of_associated hv h hA
    · intro hB
      obtain ⟨hlen, hsymm⟩ := hB.resolve_left hd
      obtain ⟨p', h⟩ : ∃ p', associate algo maxIouDistance detObjs p = .ok p' := associate_ok hlen
      exact ⟨p', h, associate_associated hv hlen hsymm h⟩

/-! ## Two tracks and one detection -/

def boxAt (x y : ℚ) : DetectObject ℚ where
  label := 0
  score := 1
  bbox := { x := x, y := y, width := 1 / 2, height := 1 / 2 }
  trackId := -1
  detectId := -1
  feature := []
  featMold := -1

/-- Two tracks side by side, as a key frame with two detections leaves them. -/
def twoTracks : ValidTracks ℚ where
  val := {
    trackObjs := [newTrack 1 (boxAt 0 0) 0, newTrack 2 (boxAt (1 / 2) 0) 1]
    nextIdx := 3 }
  property := ⟨by decide, by decide, by decide⟩

theorem processTrack_twoTracks :
    (processTrack (munkres ratSqrt) (7 / 10) [boxAt 0 0] 0 twoTracks.1).toOption.map (·.trackObjs)
      = some twoTracks.1.trackObjs := by
  decide +kernel

/-- The second track is left without a detection and stays. -/
theorem processTrack_keeps_unassigned :
    ¬∃ p', processTrack (munkres ratSqrt) (7 / 10) [boxAt 0 0] 0 twoTracks.1 = .ok p' ∧
      Associated (munkres ratSqrt) (7 / 10) [boxAt 0 0] twoTracks.1 p' := by
  rintro ⟨p', h, hA⟩
  have hrun := processTrack_twoTracks
  rw [h] at hrun
  have hobjs : p'.trackObjs = twoTracks.1.trackObjs := Option.some.inj hrun
  have hlen := hA.detections.length_eq
  rw [hobjs] at hlen
  exact absurd hlen (by decide)

theorem processTrack_associated_iff_sample :
    (∃ p', processTrack (munkres ratSqrt) (7 / 10) [boxAt 0 0, boxAt (1 / 2) 0] 0 twoTracks.1
        = .ok p' ∧
      Associated (munkres ratSqrt) (7 / 10) [boxAt 0 0, boxAt (1 / 2) 0] twoTracks.1 p') ↔
    Balanced (munkres ratSqrt) (7 / 10) [boxAt 0 0, boxAt (1 / 2) 0] twoTracks.1.trackObjs :=
  processTrack_associated_iff twoTracks (by decide) (by decide) _

end CambriconGst.TrackKcf
