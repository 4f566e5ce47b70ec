import CambriconGst.Easytrack.KcfUpdate
import CambriconGst.Properties.TrackKcf

/-!
# Runs of the KCF tracker

* `next_inBounds_iff`: when a frame accesses `rois_` inside its entries
* `processTrack_full_iff`: when a key frame leaves one track for each detection
* `run_trackId`: an id that was given goes to no other track
* `kcf_run_invariant`: all of it over runs
-/

namespace CambriconGst.TrackKcf

open Lib Easytrack

variable {K : Type}

/-! ## Frame indices -/

theorem toUint32_of_lt {n : Nat} (h : n < 2 ^ 32) : toUint32 n = n := by
  unfold toUint32
  omega

/-- Where `rois_` is accessed is decided by the index of the frame. -/
inductive IndexCase (frameId : Int) (frameIndex : Nat) : Prop where
  | key (h : frameIndex = 0)
  | nonKey (hid : 0 ≤ frameId) (hpos : 1 ≤ frameIndex) (hlt : frameIndex < 4)
  | negative (hid : frameId < 0) (r : Nat) (hpos : 1 ≤ r) (hlt : r < 4)
      (h : frameIndex = 2 ^ 32 - r)

theorem KcfFrame.indexCase (frame : KcfFrame K) : IndexCase frame.frameId frame.frameIndex := by
  unfold KcfFrame.frameIndex toUint32
  by_cases hid : 0 ≤ frame.frameId
  · rw [Int.tmod_eq_emod_of_nonneg hid]
    by_cases h : frame.frameId % 4 = 0
    · exact .key (by omega)
    · exact .nonKey hid (by omega) (by omega)
  · have hneg : frame.frameId.tmod 4 = -((-frame.frameId) % 4) := by
      rw [← Int.tmod_eq_emod_of_nonneg (by omega : 0 ≤ -frame.frameId), Int.neg_tmod, neg_neg]
    rw [hneg]
    by_cases h : (-frame.frameId) % 4 = 0
    · exact .key (by omega)
    · exact .negative (by omega) ((-frame.frameId) % 4).toNat (by omega) (by omega) (by omega)

/-- A key frame. -/
def KcfFrame.Key (frame : KcfFrame K) : Prop :=
  frame.frameIndex % 4 = 0

theorem KcfFrame.key_iff (frame : KcfFrame K) : frame.Key ↔ frame.frameIndex = 0 := by
  unfold KcfFrame.Key
  cases frame.indexCase with
  | key h => omega
  | nonKey hid hpos hlt => omega
  | negative hid r hpos hlt h => omega

/-! ## Accesses to `rois_` -/

/-- An index of an entry of `rois_`. -/
def InRois (idx : Nat) : Prop :=
  idx < 4 * maxKcfObjNum

theorem Rois.store_accesses (rois : Rois) (base : Nat) (detectRoi : Nat → Roi) (roiNum : Int) :
    (rois.store base detectRoi roiNum).accesses =
      rois.accesses ++ (List.range roiNum.toNat).map (base + ·) := by
  have hfold : ∀ (is : List Nat) (rois : Rois),
      (is.foldl (fun rois i => rois.write (base + i) (detectRoi i)) rois).accesses =
        rois.accesses ++ is.map (base + ·) := by
    intro is
    induction is with
    | nil => simp
    | cons i is ih =>
      intro rois
      rw [List.foldl_cons, ih, Rois.write, List.append_assoc]
      rfl
  exact hfold _ _

namespace Kcf

variable [Field K]

/-- The detections of a frame: what `ProcessTrack` gets. -/
def objs (s : Kcf K) (frame : KcfFrame K) : List (DetectObject K) :=
  let s := s.runKernel frame.frameIndex frame.report
  (objIndices s.trackNum frame.frameIndex).map fun i =>
    (s.rois.cells i).toObj frame.width frame.height

/-- The state after a frame that leaves the tracks `p`. -/
def after (s : Kcf K) (frame : KcfFrame K) (p : KcfTrackPrivate K) : Kcf K :=
  let s := s.runKernel frame.frameIndex frame.report
  { s with
    rois := { s.rois with
      accesses := s.rois.accesses ++ objIndices s.trackNum frame.frameIndex }
    p }

variable [LinearOrder K] {algo : MatchAlgorithm K} {s t : Kcf K} {frame : KcfFrame K}

/-- **What a frame does.** -/
theorem next_eq_some : s.next algo frame = some t ↔ ∃ p,
    processTrack algo frame.maxIouDistance (s.objs frame) frame.frameIndex s.p = .ok p ∧
      t = s.after frame p := by
  have hp : (s.runKernel frame.frameIndex frame.report).p = s.p := by
    unfold runKernel
    split <;> rfl
  show Option.map Prod.fst (Except.toOption (processTrack algo frame.maxIouDistance (s.objs frame)
    frame.frameIndex (s.runKernel frame.frameIndex frame.report).p >>= _)) = some t ↔ _
  rw [hp]
  cases processTrack algo frame.maxIouDistance (s.objs frame) frame.frameIndex s.p with
  | error e => exact ⟨(fun h => nomatch h), fun ⟨_, h, _⟩ => nomatch h⟩
  | ok p =>
    constructor
    · intro h
      exact ⟨p, rfl, (Option.some.inj h).symm⟩
    · rintro ⟨p', hp', rfl⟩
      obtain rfl := Except.ok.inj hp'
      rfl

/-- The number of ROIs in force at a frame. -/
def inForce (s : Kcf K) (frame : KcfFrame K) : Int :=
  if frame.frameIndex % 4 = 0 then frame.report.roiNum else s.trackNum

omit [Field K] [LinearOrder K] in
theorem after_trackNum (p : KcfTrackPrivate K) : (s.after frame p).trackNum = s.inForce frame := by
  unfold after inForce runKernel
  split <;> rfl

omit [LinearOrder K] in
theorem length_objs (h : s.inForce frame ≤ maxRoiNum) :
    (s.objs frame).length = (s.inForce frame).toNat := by
  have hle : (s.inForce frame).toNat ≤ maxKcfObjNum := by
    have hmax : maxRoiNum = maxKcfObjNum := rfl
    omega
  have hnum : (s.runKernel frame.frameIndex frame.report).trackNum = s.inForce frame := by
    unfold inForce runKernel
    split <;> rfl
  unfold objs objIndices
  rw [List.length_map, List.length_map, List.length_range, hnum, Nat.min_eq_left hle]

/-- The indices of a frame: those stored, and those read again. -/
def indices (s : Kcf K) (frame : KcfFrame K) : List Nat :=
  (List.range (s.inForce frame).toNat).map (base (s.inForce frame) frame.frameIndex + ·) ++
    objIndices (s.inForce frame) frame.frameIndex

omit [Field K] [LinearOrder K] in
theorem after_accesses (p : KcfTrackPrivate K) :
    (s.after frame p).rois.accesses = s.rois.accesses ++ s.indices frame := by
  unfold after indices inForce runKernel
  by_cases h : frame.frameIndex % 4 = 0
  · simp only [if_pos h, Rois.store_accesses, List.append_assoc]
    have hzero : base frame.report.roiNum frame.frameIndex = 0 := by
      rw [frame.key_iff.mp h]
      simp [base, toUint32]
    rw [hzero]
  · simp only [if_neg h, Rois.store_accesses, List.append_assoc]

omit [Field K] [LinearOrder K] in
theorem mem_indices {i : Nat} : i ∈ s.indices frame ↔
    (∃ k < (s.inForce frame).toNat, base (s.inForce frame) frame.frameIndex + k = i) ∨
    ∃ k < min (s.inForce frame).toNat maxKcfObjNum,
      toUint32 (base (s.inForce frame) frame.frameIndex + k : Nat) = i := by
  simp only [indices, objIndices, List.mem_append, List.mem_map, List.mem_range]

omit [Field K] [LinearOrder K] in
/-- **When a frame accesses entries of `rois_` only.** -/
theorem indices_inRois_iff (h : s.inForce frame ≤ maxRoiNum) :
    (∀ i ∈ s.indices frame, InRois i) ↔
      frame.Key ∨ 0 ≤ frame.frameId ∨ s.inForce frame ≤ 0 := by
  have hmax : (maxRoiNum : Int) = 10 := rfl
  have hobj : maxKcfObjNum = 10 := rfl
  generalize hn : s.inForce frame = n at *
  have hinside : base n frame.frameIndex ≤ 30 → ∀ i ∈ s.indices frame, InRois i := by
    intro hb i hi
    rw [mem_indices, hn] at hi
    unfold InRois
    rcases hi with ⟨k, hk, rfl⟩ | ⟨k, hk, rfl⟩
    · omega
    · rw [toUint32_of_lt (by omega)]
      omega
  rw [frame.key_iff]
  cases frame.indexCase with
  | key hi =>
    refine ⟨fun _ => .inl hi, fun _ => hinside ?_⟩
    rw [hi]
    simp [base, toUint32]
  | nonKey hid hpos hlt =>
    refine ⟨fun _ => .inr (.inl hid), fun _ => ?_⟩
    -- a count that is not positive has no index
    by_cases hneg : n ≤ 0
    · intro i hi
      rw [mem_indices, hn] at hi
      omega
    · refine hinside ?_
      obtain ⟨m, rfl⟩ := Int.eq_ofNat_of_zero_le (by omega : 0 ≤ n)
      have hprod : frame.frameIndex * m ≤ 3 * 10 := Nat.mul_le_mul (by omega) (by omega)
      unfold base
      rw [← Nat.cast_mul, toUint32_of_lt (by omega)]
      exact hprod
  | negative hid r hpos hlt hi =>
    constructor
    · intro hin
      by_contra hno
      -- the first index alone is outside: the product wraps to just below `2 ^ 32`
      have hbase : base n frame.frameIndex ∈ s.indices frame :=
        mem_indices.mpr (.inl ⟨0, by omega, by rw [hn, Nat.add_zero]⟩)
      have hlow := hin _ hbase
      unfold InRois base toUint32 at hlow
      obtain ⟨m, rfl⟩ := Int.eq_ofNat_of_zero_le (by omega : 0 ≤ n)
      have hrm : 1 ≤ r * m := Nat.mul_pos hpos (by omega)
      have hrm' : r * m ≤ 3 * 10 := Nat.mul_le_mul (by omega) (by omega)
      have hval : ((frame.frameIndex : Int) * m) % 2 ^ 32 = 2 ^ 32 - (r * m : Nat) := by
        have hcast : (frame.frameIndex : Int) = 2 ^ 32 - (r : Int) := by omega
        have hsplit : (frame.frameIndex : Int) * m = (2 ^ 32 - (r * m : Nat)) + 2 ^ 32 * (m - 1) := by
          rw [hcast, Nat.cast_mul]
          ring
        rw [hsplit, Int.add_mul_emod_self_left]
        exact Int.emod_eq_of_lt (by omega) (by omega)
      rw [hval] at hlow
      omega
    · rintro (hk | hid' | hn0)
      · omega
      · omega
      · intro i hi'
        rw [mem_indices, hn] at hi'
        omega

end Kcf

/-! ## Tracks and detections -/

section Tracks

variable [Field K] [LinearOrder K] {algo : MatchAlgorithm K} {maxIouDistance : K}
  {detObjs : List (DetectObject K)} {p p' : KcfTrackPrivate K} {frameIndex : Nat}

/-- Each of `n` detections has one track. -/
def Full (p : KcfTrackPrivate K) (n : Nat) : Prop :=
  (p.trackObjs.map (·.kcfOutIdx)).Perm (List.range n)

omit [Field K] [LinearOrder K] in
theorem Full.length {n : Nat} (h : Full p n) : p.trackObjs.length = n := by
  rw [← List.length_map, h.length_eq, List.length_range]

omit [Field K] [LinearOrder K] in
theorem Full.lt {n : Nat} (h : Full p n) {t : KcfTrackObject K} (ht : t ∈ p.trackObjs) :
    t.kcfOutIdx < n :=
  List.mem_range.mp (h.mem_iff.mp (List.mem_map_of_mem ht))

omit [LinearOrder K] in
theorem pushTracks_ok {idxs : List Nat} (h : ∀ i ∈ idxs, i < detObjs.length)
    (p : KcfTrackPrivate K) : ∃ p', idxs.foldlM (pushTrack detObjs) p = .ok p' :=
  foldlM_ok fun _ i hi => ⟨_, bind_eq_ok.mpr ⟨_, readAt_of_lt (h i hi), rfl⟩⟩

/-- With no tracks, every detection starts one. -/
theorem processTrack_first (h : p.trackObjs = []) :
    ∃ p', processTrack algo maxIouDistance detObjs frameIndex p = .ok p' ∧
      Full p' detObjs.length := by
  by_cases hd : detObjs = []
  · subst hd
    exact ⟨{ p with trackObjs := [] }, rfl, .refl _⟩
  · obtain ⟨p', hp'⟩ : ∃ p', (List.range detObjs.length).foldlM (pushTrack detObjs) p = .ok p' :=
      pushTracks_ok (fun i hi => List.mem_range.mp hi) p
    obtain ⟨N, hN, heq⟩ := pushTracks_spec hp'
    refine ⟨p', ?_, ?_⟩
    · unfold processTrack
      rw [if_neg (mt List.isEmpty_iff.mp hd), if_pos (List.isEmpty_iff.mpr h)]
      exact hp'
    · unfold Full
      rw [heq]
      simp only [h, List.nil_append, hN.outIdx]
      exact .refl _

/-- Off key frames tracks follow their detections. -/
theorem processTrack_follow (hkey : frameIndex % 4 ≠ 0) (h : Full p detObjs.length) :
    ∃ p', processTrack algo maxIouDistance detObjs frameIndex p = .ok p' ∧
      Full p' detObjs.length := by
  by_cases hp : p.trackObjs = []
  · exact processTrack_first hp
  · have hd : detObjs ≠ [] := by
      rintro rfl
      exact hp (List.length_eq_zero_iff.mp h.length)
    obtain ⟨ts, hts⟩ : ∃ ts, p.trackObjs.mapM (followTrack detObjs) = .ok ts :=
      mapM_ok fun t ht => ⟨_, bind_eq_ok.mpr ⟨_, readAt_of_lt (h.lt ht), rfl⟩⟩
    refine ⟨{ p with trackObjs := ts }, ?_, ?_⟩
    · unfold processTrack
      rw [if_neg (mt List.isEmpty_iff.mp hd), if_neg (mt List.isEmpty_iff.mp hp), if_pos hkey]
      exact bind_eq_ok.mpr ⟨ts, hts, rfl⟩
    · have hidx : ts.map (·.kcfOutIdx) = p.trackObjs.map (·.kcfOutIdx) := by
        refine mapM_map (fun t t' hf => ?_) hts
        obtain ⟨det, -, hf⟩ := bind_eq_ok.mp hf
        obtain rfl := Except.ok.inj hf
        rfl
      unfold Full
      rw [hidx]
      exact h

theorem processTrack_key (hkey : frameIndex % 4 = 0) (hd : detObjs ≠ []) (hp : p.trackObjs ≠ []) :
    processTrack algo maxIouDistance detObjs frameIndex p =
      associate algo maxIouDistance detObjs p := by
  unfold processTrack
  rw [if_neg (mt List.isEmpty_iff.mp hd), if_neg (mt List.isEmpty_iff.mp hp), if_neg (by simpa)]

/-- A track that no row was taken for holds an index that is out of range or taken twice. -/
theorem length_eq_of_distinct (hv : Valid p)
    (h : associate algo maxIouDistance detObjs p = .ok p')
    (hnd : (p'.trackObjs.map (·.kcfOutIdx)).Nodup)
    (hlt : ∀ t ∈ p'.trackObjs, t.kcfOutIdx < detObjs.length) :
    p.trackObjs.length = detObjs.length := by
  obtain ⟨res, us, N, hK, hM, hN, rfl⟩ := associate_spec h
  by_contra hne
  have hrow : detObjs.length < p.trackObjs.length := lt_of_le_of_ne hM.rows (Ne.symm hne)
  have hlast := List.getElem?_eq_getElem hrow
  set t := p.trackObjs[detObjs.length] with ht
  have hus : us[detObjs.length]? = some t := (hM.rest _ (Nat.le_refl _)).trans hlast
  have hstate : t.state ≠ .deleted := by
    rw [hv.confirmed t (List.mem_of_getElem? hlast)]
    exact TrackState.noConfusion
  have hkept : t ∈ us.filter fun tra => tra.state ≠ .deleted :=
    List.mem_filter.mpr ⟨List.mem_of_getElem? hus, by simpa using hstate⟩
  have hidx := hlt t (List.mem_append_left _ hkept)
  simp only [List.map_append] at hnd
  obtain ⟨hndk, -, hdisj⟩ := List.nodup_append.mp hnd
  have hperm := hK.detections (algo.valid (distCost detObjs p.trackObjs)) List.nodup_range
    List.nodup_range
  rcases List.mem_append.mp (hperm.mem_iff.mpr (List.mem_range.mpr hidx)) with hm | hm
  · -- a row before was given the same detection
    obtain ⟨⟨j, i⟩, hji, hj⟩ := List.mem_map.mp hm
    obtain rfl : j = t.kcfOutIdx := hj
    have ha := (mem_matched hK).mp hji
    obtain ⟨det, -, hu⟩ := hM.taken i _ ha
    have hi : i < detObjs.length := by
      have := (List.getElem?_eq_some_iff.mp ha.1).1
      rwa [hungarianMatch_length] at this
    rw [List.getElem?_eq_getElem (hi.trans hrow), Option.map_some] at hu
    rw [List.Nodup, List.pairwise_map, List.pairwise_filter, List.pairwise_iff_getElem] at hndk
    obtain ⟨hi', hui⟩ := List.getElem?_eq_some_iff.mp hu
    obtain ⟨hl', hul⟩ := List.getElem?_eq_some_iff.mp hus
    refine hndk i detObjs.length hi' hl' hi ?_ ?_ ?_
    · rw [hui]
      have := hv.confirmed _ (List.getElem_mem (hi.trans hrow))
      simp [takeDetection, this]
    · rw [hul]
      simpa using hstate
    · rw [hui, hul]
      rfl
  · -- a new track was started for the same detection
    have hnew : t.kcfOutIdx ∈ N.map (·.kcfOutIdx) := by rwa [hN.outIdx]
    exact hdisj _ (List.mem_map_of_mem hkept) _ hnew rfl

/-- A key frame with as many detections as tracks, or none of either. -/
theorem processTrack_paired (hv : Valid p) (hkey : frameIndex % 4 = 0)
    (h : detObjs = [] ∨ p.trackObjs = [] ∨ p.trackObjs.length = detObjs.length) :
    ∃ p', processTrack algo maxIouDistance detObjs frameIndex p = .ok p' ∧
      Full p' detObjs.length := by
  by_cases hp : p.trackObjs = []
  · exact processTrack_first hp
  by_cases hd : detObjs = []
  · subst hd
    exact ⟨{ p with trackObjs := [] }, rfl, .refl _⟩
  have hlen := (h.resolve_left hd).resolve_left hp
  obtain ⟨p', hp'⟩ := associate_ok hlen
  exact ⟨p', by rw [processTrack_key hkey hd hp, hp'], associate_perm hv hlen hp'⟩

/-- **A key frame that leaves distinct detections has as many as there were tracks.** -/
theorem paired_of_distinct (hv : Valid p) (hkey : frameIndex % 4 = 0)
    (h : processTrack algo maxIouDistance detObjs frameIndex p = .ok p')
    (hnd : (p'.trackObjs.map (·.kcfOutIdx)).Nodup)
    (hlt : ∀ t ∈ p'.trackObjs, t.kcfOutIdx < detObjs.length) :
    detObjs = [] ∨ p.trackObjs = [] ∨ p.trackObjs.length = detObjs.length := by
  by_cases hd : detObjs = []
  · exact .inl hd
  by_cases hp : p.trackObjs = []
  · exact .inr (.inl hp)
  rw [processTrack_key hkey hd hp] at h
  exact .inr (.inr (length_eq_of_distinct hv h hnd hlt))

/-! ## Ids -/

/-- The tracks of `p'` are old ones of `p`, in order, and then new ones under the next ids. -/
def Renewed (p p' : KcfTrackPrivate K) : Prop :=
  ∃ kept new, p'.trackObjs = kept ++ new ∧
    (kept.map (·.trackId)).Sublist (p.trackObjs.map (·.trackId)) ∧
    new.map (·.trackId) = (List.range new.length).map (fun k => p.nextIdx + (k : Nat)) ∧
    p'.nextIdx = p.nextIdx + new.length

theorem processTrack_renewed
    (h : processTrack algo maxIouDistance detObjs frameIndex p = .ok p') : Renewed p p' := by
  have hpushed : ∀ {kept : List (KcfTrackObject K)} {N : List (KcfTrackObject K)}
      {idxs : List Nat}, Pushed detObjs p.nextIdx idxs N →
      (kept.map (·.trackId)).Sublist (p.trackObjs.map (·.trackId)) →
      Renewed p { trackObjs := kept ++ N, nextIdx := p.nextIdx + idxs.length } := by
    intro kept N idxs hN hsub
    have hlen : N.length = idxs.length := by
      rw [← List.length_map, hN.outIdx]
    exact ⟨kept, N, rfl, hsub, hlen ▸ hN.ids, by rw [hlen]⟩
  unfold processTrack at h
  split at h
  · obtain rfl := Except.ok.inj h
    exact ⟨[], [], rfl, List.nil_sublist _, rfl, by simp⟩
  · split at h
    · obtain ⟨N, hN, rfl⟩ := pushTracks_spec h
      exact hpushed hN (.refl _)
    · split at h
      · obtain ⟨ts, hts, h⟩ := bind_eq_ok.mp h
        obtain rfl := Except.ok.inj h
        have hids : ts.map (·.trackId) = p.trackObjs.map (·.trackId) := by
          refine mapM_map (fun t t' hf => ?_) hts
          obtain ⟨det, -, hf⟩ := bind_eq_ok.mp hf
          obtain rfl := Except.ok.inj hf
          rfl
        exact ⟨ts, [], (List.append_nil ts).symm, hids ▸ .refl _, rfl, by simp⟩
      · obtain ⟨res, us, N, -, hM, hN, rfl⟩ := associate_spec h
        exact hpushed hN (hM.ids ▸ List.filter_sublist.map _)

omit [Field K] [LinearOrder K] in
theorem Renewed.nextIdx_le (h : Renewed p p') : p.nextIdx ≤ p'.nextIdx := by
  obtain ⟨kept, new, -, -, -, hn⟩ := h
  omega

omit [Field K] [LinearOrder K] in
/-- A track with an id that was given before is an old track. -/
theorem Renewed.trackId (h : Renewed p p') {t : KcfTrackObject K} (ht : t ∈ p'.trackObjs)
    (hlt : t.trackId < p.nextIdx) : t.trackId ∈ p.trackObjs.map (·.trackId) := by
  obtain ⟨kept, new, htracks, hsub, hids, -⟩ := h
  rw [htracks] at ht
  rcases List.mem_append.mp ht with ht | ht
  · exact hsub.subset (List.mem_map_of_mem ht)
  · have hm : t.trackId ∈ new.map (·.trackId) := List.mem_map_of_mem ht
    rw [hids] at hm
    obtain ⟨k, -, hk⟩ := List.mem_map.mp hm
    omega

end Tracks

/-! ## Runs -/

namespace Kcf

variable [Field K] [LinearOrder K] {algo : MatchAlgorithm K} {s t : Kcf K} {frame : KcfFrame K}

/-- A new tracker. -/
def Created (s : Kcf K) : Prop :=
  ∃ garbage, s = create garbage

/-- The first frame is a key frame; the device reports a number of ROIs that it can. -/
def Allowed (s : Kcf K) (frame : KcfFrame K) : Prop :=
  if frame.frameIndex % 4 = 0 then 0 ≤ frame.report.roiNum ∧ frame.report.roiNum ≤ maxRoiNum
  else s.trackNum ≠ -1

/--
On a key frame no ROI is reported, or no track is live, or there are as many ROIs as live tracks.
On another frame the id of the frame is not negative, or no ROI is in force.
-/
def Paired (s : Kcf K) (frame : KcfFrame K) : Prop :=
  if frame.frameIndex % 4 = 0 then frame.report.roiNum = 0 ∨ s.p.trackObjs = [] ∨
    (s.p.trackObjs.length : Int) = frame.report.roiNum
  else 0 ≤ frame.frameId ∨ s.trackNum = 0

/-- All accesses to `rois_` were inside; the tracks have distinct detections and distinct ids. -/
structure Right (s : Kcf K) : Prop where
  inRois : ∀ i ∈ s.rois.accesses, InRois i
  nodup : (s.p.trackObjs.map (·.kcfOutIdx)).Nodup
  lt : ∀ t ∈ s.p.trackObjs, (t.kcfOutIdx : Int) < s.trackNum
  ids : (s.p.trackObjs.map (·.trackId)).Nodup
  ids_lt : ∀ t ∈ s.p.trackObjs, t.trackId < s.p.nextIdx

/-- The tracker between frames. -/
structure Sound (s : Kcf K) : Prop where
  inRois : ∀ i ∈ s.rois.accesses, InRois i
  trackNum_le : s.trackNum ≤ maxRoiNum
  trackNum_ge : 0 ≤ s.trackNum ∨ s.trackNum = -1
  full : Full s.p s.trackNum.toNat
  valid : Valid s.p

omit [Field K] [LinearOrder K] in
theorem Sound.right (h : Sound s) : Right s where
  inRois := h.inRois
  nodup := h.full.nodup_iff.mpr List.nodup_range
  lt t ht := by
    have := h.full.lt ht
    omega
  ids := h.valid.nodup
  ids_lt := h.valid.lt

omit [Field K] [LinearOrder K] in
theorem create_sound (h : Created s) : Sound s := by
  obtain ⟨garbage, rfl⟩ := h
  refine ⟨by simp [create], by simp [create], .inr rfl, .refl _, ?_⟩
  exact ⟨List.nodup_nil, by simp [create], by simp [create]⟩

omit [Field K] [LinearOrder K] in
theorem allowed_key (hkey : frame.Key)
    (h : 0 ≤ frame.report.roiNum ∧ frame.report.roiNum ≤ maxRoiNum) : Allowed s frame := by
  rw [Allowed, if_pos (show frame.frameIndex % 4 = 0 from hkey)]
  exact h

omit [Field K] [LinearOrder K] in
/-- The number of ROIs in force at a frame that is allowed. -/
theorem Allowed.inForce (ha : Allowed s frame) (h : Sound s) :
    0 ≤ s.inForce frame ∧ s.inForce frame ≤ maxRoiNum := by
  unfold Allowed at ha
  unfold Kcf.inForce
  by_cases hkey : frame.frameIndex % 4 = 0
  · rw [if_pos hkey] at ha ⊢
    exact ha
  · rw [if_neg hkey] at ha ⊢
    exact ⟨h.trackNum_ge.resolve_right ha, h.trackNum_le⟩

omit [Field K] [LinearOrder K] in
theorem after_inRois_iff (h : Sound s) (ha : Allowed s frame) (p : KcfTrackPrivate K) :
    (∀ i ∈ (s.after frame p).rois.accesses, InRois i) ↔
      frame.Key ∨ 0 ≤ frame.frameId ∨ s.inForce frame ≤ 0 := by
  rw [← indices_inRois_iff (ha.inForce h).2, after_accesses]
  exact ⟨fun hi i hm => hi i (List.mem_append_right _ hm), fun hi i hm =>
    (List.mem_append.mp hm).elim (h.inRois i) (hi i)⟩

omit [LinearOrder K] in
/-- What a key frame pairs, in terms of its detections. -/
theorem paired_key_iff (h : Sound s) (ha : Allowed s frame) (hkey : frame.Key) :
    Paired s frame ↔ s.objs frame = [] ∨ s.p.trackObjs = [] ∨
      s.p.trackObjs.length = (s.objs frame).length := by
  obtain ⟨hge, hle⟩ := ha.inForce h
  have hforce : s.inForce frame = frame.report.roiNum := if_pos hkey
  rw [← List.length_eq_zero_iff (l := s.objs frame), length_objs hle, Paired,
    if_pos (show frame.frameIndex % 4 = 0 from hkey), hforce]
  rw [hforce] at hge
  exact or_congr (by omega) (or_congr Iff.rfl (by omega))

omit [Field K] [LinearOrder K] in
/-- What another frame pairs, in terms of its accesses. -/
theorem paired_nonKey_iff (h : Sound s) (ha : Allowed s frame) (hkey : ¬frame.Key) :
    Paired s frame ↔ frame.Key ∨ 0 ≤ frame.frameId ∨ s.inForce frame ≤ 0 := by
  obtain ⟨hge, -⟩ := ha.inForce h
  have hforce : s.inForce frame = s.trackNum := if_neg hkey
  rw [Paired, if_neg (show ¬frame.frameIndex % 4 = 0 from hkey), hforce]
  rw [hforce] at hge
  constructor
  · intro hc
    exact .inr (hc.imp_right fun _ => by omega)
  · intro hc
    exact (hc.resolve_left hkey).imp_right fun _ => by omega

/-- **A frame that pairs ROIs with tracks keeps the tracker sound.** -/
theorem next_sound (algo : MatchAlgorithm K) (h : Sound s) (ha : Allowed s frame)
    (hp : Paired s frame) : ∃ t, s.next algo frame = some t ∧ Sound t := by
  obtain ⟨hge, hle⟩ := ha.inForce h
  have hlen := length_objs hle
  have hall : (∀ p, ∀ i ∈ (s.after frame p).rois.accesses, InRois i) ∧
      ∃ p', processTrack algo frame.maxIouDistance (s.objs frame) frame.frameIndex s.p = .ok p' ∧
        Full p' (s.objs frame).length := by
    by_cases hkey : frame.Key
    · exact ⟨fun p => (after_inRois_iff h ha p).mpr (.inl hkey),
        processTrack_paired h.valid hkey ((paired_key_iff h ha hkey).mp hp)⟩
    · refine ⟨fun p => (after_inRois_iff h ha p).mpr ((paired_nonKey_iff h ha hkey).mp hp),
        processTrack_follow hkey ?_⟩
      rw [hlen, show s.inForce frame = s.trackNum from if_neg hkey]
      exact h.full
  obtain ⟨hacc, p', hp', hF⟩ := hall
  refine ⟨s.after frame p', next_eq_some.mpr ⟨p', hp', rfl⟩, hacc p', ?_, ?_, ?_,
    processTrack_valid h.valid hp'⟩
  · rw [after_trackNum]
    exact hle
  · rw [after_trackNum]
    exact .inl hge
  · rw [after_trackNum, ← hlen]
    exact hF

/-- **A frame is right just when it pairs ROIs with tracks.** -/
theorem next_right_iff (h : Sound s) (ha : Allowed s frame) :
    (∃ t, s.next algo frame = some t ∧ Right t) ↔ Paired s frame := by
  constructor
  · rintro ⟨t, ht, hr⟩
    obtain ⟨p', hp', rfl⟩ := next_eq_some.mp ht
    by_cases hkey : frame.Key
    · refine (paired_key_iff h ha hkey).mpr
        (paired_of_distinct h.valid hkey hp' hr.nodup fun tra htra => ?_)
      have hlt := hr.lt tra htra
      rw [after_trackNum] at hlt
      rw [length_objs (ha.inForce h).2]
      omega
    · exact (paired_nonKey_iff h ha hkey).mpr ((after_inRois_iff h ha p').mp hr.inRois)
  · intro hp
    obtain ⟨t, ht, hs⟩ := next_sound algo h ha hp
    exact ⟨t, ht, hs.right⟩

theorem next_renewed (h : s.next algo frame = some t) : Renewed s.p t.p := by
  obtain ⟨p', hp', rfl⟩ := next_eq_some.mp h
  exact processTrack_renewed hp'

/-- After any frames a track with an id that was given before them is a track that had it. -/
theorem run_trackId {frames : List (KcfFrame K)} (h : System.run (next algo) s frames = some t)
    {tra : KcfTrackObject K} (htra : tra ∈ t.p.trackObjs) (hlt : tra.trackId < s.p.nextIdx) :
    tra.trackId ∈ s.p.trackObjs.map (·.trackId) := by
  induction frames generalizing s with
  | nil =>
    cases h
    exact List.mem_map_of_mem htra
  | cons frame frames ih =>
    obtain ⟨u, hu, hr⟩ := System.run_cons.mp h
    have hren := next_renewed hu
    obtain ⟨tra', htra', hid⟩ := List.mem_map.mp (ih hr (by have := hren.nextIdx_le; omega))
    rw [← hid]
    exact hren.trackId htra' (by omega)

/-- States of runs in which every frame pairs ROIs with tracks. -/
abbrev ReachedPaired (algo : MatchAlgorithm K) (s : Kcf K) : Prop :=
  Reachable Created (System.StepWhere (next algo) fun s frame => Allowed s frame ∧ Paired s frame) s

theorem reached_sound (h : ReachedPaired algo s) : Sound s := by
  refine h.invariant (fun _ => create_sound) ?_
  rintro s t hs ⟨frame, ⟨ha, hp⟩, ht⟩
  obtain ⟨t', ht', hs'⟩ := next_sound algo hs ha hp
  obtain rfl := Option.some.inj (ht.symm.trans ht')
  exact hs'

/--
**Runs of the KCF tracker.**

In every run whose frames pair ROIs with tracks, every access to `rois_` is to one of its entries,
and live tracks have distinct detections of the ROIs in force, and distinct ids. The next frame is
processed and leaves that so just when it pairs ROIs with tracks. And in any run from there on, the
frames leave old tracks, with their ids, and new ones, with ids that were not given before.
-/
theorem kcf_run_invariant (h : ReachedPaired algo s) :
    Right s ∧
    (∀ frame, Allowed s frame →
      ((∃ t, s.next algo frame = some t ∧ Right t) ↔ Paired s frame)) ∧
    (∀ frame t, s.next algo frame = some t → Renewed s.p t.p) ∧
    ∀ frames t, System.run (next algo) s frames = some t → ∀ tra ∈ t.p.trackObjs,
      tra.trackId < s.p.nextIdx → tra.trackId ∈ s.p.trackObjs.map (·.trackId) := by
  have hs := reached_sound h
  exact ⟨hs.right, fun _ ha => next_right_iff hs ha, fun _ _ => next_renewed,
    fun _ _ hr _ htra hlt => run_trackId hr htra hlt⟩

/-! ## Two ROIs and then one -/

def roiAt (x : Int) : Roi where
  x := x
  y := 0
  width := 50
  height := 50
  score := 1000
  label := 0

/-- A frame with ROIs side by side. -/
def sampleFrame (frameId roiNum : Int) : KcfFrame ℚ where
  frameId := frameId
  width := 100
  height := 100
  maxIouDistance := 7 / 10
  report := { roiNum, detectRoi := fun i => roiAt (50 * i) }

def sampleKcf : Kcf ℚ := create fun _ => roiAt 0

/-- `kcf_run_invariant` after a key frame with two ROIs, and after the frame that follows it. -/
theorem kcf_run_invariant_sample : ∃ t,
    sampleKcf.next (munkres ratSqrt) (sampleFrame 0 2) = some t ∧ Right t ∧
      ∃ u, t.next (munkres ratSqrt) (sampleFrame 1 0) = some u ∧ Right u := by
  have h₀ : ReachedPaired (munkres ratSqrt) sampleKcf := .of_init ⟨_, rfl⟩
  have ha₀ : Allowed sampleKcf (sampleFrame 0 2) := allowed_key (by rfl) (by decide)
  have hp₀ : Paired sampleKcf (sampleFrame 0 2) := .inr (.inl rfl)
  obtain ⟨t, ht, -⟩ := ((kcf_run_invariant h₀).2.1 _ ha₀).mpr hp₀
  have h₁ : ReachedPaired (munkres ratSqrt) t := h₀.tail ⟨_, ⟨ha₀, hp₀⟩, ht⟩
  have ha₁ : Allowed t (sampleFrame 1 0) := by
    obtain ⟨p, -, rfl⟩ := next_eq_some.mp ht
    show sampleKcf.inForce (sampleFrame 0 2) ≠ -1
    decide
  obtain ⟨hright, hnext, -⟩ := kcf_run_invariant h₁
  exact ⟨t, ht, hright, (hnext _ ha₁).mpr (.inl (by decide))⟩

theorem one_roi_run :
    (System.run (next (munkres ratSqrt)) sampleKcf [sampleFrame 0 2, sampleFrame 4 1]).map
      (fun t => (t.trackNum, t.p.trackObjs.map (·.kcfOutIdx))) = some (1, [0, 1]) ∧
    (System.run (next (munkres ratSqrt)) sampleKcf
      [sampleFrame 0 2, sampleFrame 4 1, sampleFrame 5 0]).isNone = true := by
  decide +kernel

/-- The second track keeps its index, which the frame after reads out of range. -/
theorem one_roi_for_two_tracks :
    (¬∀ (s t : Kcf ℚ) (frames : List (KcfFrame ℚ)), Created s →
      System.Meets (next (munkres ratSqrt)) Allowed s frames →
      System.run (next (munkres ratSqrt)) s frames = some t → Right t) ∧
    (System.run (next (munkres ratSqrt)) sampleKcf
      [sampleFrame 0 2, sampleFrame 4 1, sampleFrame 5 0]).isNone = true := by
  obtain ⟨hrun, hnone⟩ := one_roi_run
  refine ⟨fun h => ?_, hnone⟩
  obtain ⟨t, ht, hres⟩ := Option.map_eq_some_iff.mp hrun
  obtain ⟨hnum, hidx⟩ := Prod.mk.inj hres
  have hmeets : System.Meets (next (munkres ratSqrt)) Allowed sampleKcf
      [sampleFrame 0 2, sampleFrame 4 1] := by
    refine ⟨allowed_key (by rfl) (by decide), ?_⟩
    cases sampleKcf.next (munkres ratSqrt) (sampleFrame 0 2) with
    | none => trivial
    | some u =>
      refine ⟨allowed_key (by rfl) (by decide), ?_⟩
      cases u.next (munkres ratSqrt) (sampleFrame 4 1) <;> trivial
  have hright := h sampleKcf t _ ⟨_, rfl⟩ hmeets ht
  have hmem : 1 ∈ t.p.trackObjs.map (·.kcfOutIdx) := by
    rw [hidx]
    decide
  obtain ⟨tra, htra, he⟩ := List.mem_map.mp hmem
  have hlt := hright.lt tra htra
  rw [he, hnum] at hlt
  exact absurd hlt (by decide)

end Kcf

end CambriconGst.TrackKcf
