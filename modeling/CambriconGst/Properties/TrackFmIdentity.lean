import CambriconGst.Properties.TrackFmRun

/-!
# The identity of tracks

* `reachable_ids`: ids are distinct, and an id never passes to a second track
* `entry_trackId_iff`: when an entry shows the id its track has after the call
-/

namespace CambriconGst.TrackFm

open Lib Easytrack

variable {K : Type}

/-! ## Valid ids -/

theorem toInt32_of_lt {n : Nat} (h : n < 2 ^ 31) : toInt32 n = n := by
  unfold toInt32
  rw [Int.bmod_def]
  omega

/-- The ids of tracks, given their control parts; `n` ids have been handed out. -/
structure IdsValid (cs : List Control) (n : Nat) : Prop where
  tentative : ∀ c ∈ cs, c.state = .tentative → c.trackId = -1
  confirmed : ∀ c ∈ cs, c.state = .confirmed → 0 ≤ c.trackId
  lt : ∀ c ∈ cs, c.trackId < n
  distinct : ∀ (i j : Nat) (a b : Control), cs[i]? = some a → cs[j]? = some b →
    a.trackId = b.trackId → 0 ≤ a.trackId → i = j

namespace IdsValid

variable {cs cs' : List Control} {n : Nat} {p : Params K}

theorem nil (n : Nat) : IdsValid [] n :=
  ⟨by simp, by simp, by simp, by simp⟩

/-- Tracks that keep their ids, and go to no other state than deleted. -/
theorem congr (h : IdsValid cs n) (hc : ∀ (i : Nat) a', cs'[i]? = some a' → ∃ a, cs[i]? = some a ∧
      a'.trackId = a.trackId ∧ (a'.state ≠ .deleted → a'.state = a.state)) : IdsValid cs' n := by
  have hmem : ∀ a' ∈ cs', ∃ a ∈ cs, a'.trackId = a.trackId ∧
      (a'.state ≠ .deleted → a'.state = a.state) := by
    intro a' ha'
    obtain ⟨i, hi⟩ := List.mem_iff_getElem?.mp ha'
    obtain ⟨a, ha, hid, hst⟩ := hc i a' hi
    exact ⟨a, List.mem_of_getElem? ha, hid, hst⟩
  refine ⟨fun a' ha' hs => ?_, fun a' ha' hs => ?_, fun a' ha' => ?_, fun i j a' b' hi hj he hnn => ?_⟩
  · obtain ⟨a, ha, hid, hst⟩ := hmem a' ha'
    have hne : a'.state ≠ .deleted := by rw [hs]; exact TrackState.noConfusion
    rw [hid]
    exact h.tentative a ha ((hst hne).symm.trans hs)
  · obtain ⟨a, ha, hid, hst⟩ := hmem a' ha'
    have hne : a'.state ≠ .deleted := by rw [hs]; exact TrackState.noConfusion
    rw [hid]
    exact h.confirmed a ha ((hst hne).symm.trans hs)
  · obtain ⟨a, ha, hid, -⟩ := hmem a' ha'
    rw [hid]
    exact h.lt a ha
  · obtain ⟨a, ha, hida, -⟩ := hc i a' hi
    obtain ⟨b, hb, hidb, -⟩ := hc j b' hj
    exact h.distinct i j a b ha hb (by rw [← hida, ← hidb, he]) (hida ▸ hnn)

theorem map_predict (h : IdsValid cs n) : IdsValid (cs.map Control.predict) n := by
  refine h.congr fun i a' ha' => ?_
  rw [List.getElem?_map] at ha'
  obtain ⟨a, ha, rfl⟩ := Option.map_eq_some_iff.mp ha'
  exact ⟨a, ha, rfl, fun _ => rfl⟩

theorem miss_trackId (c : Control) : (c.miss p).trackId = c.trackId := by
  unfold Control.miss
  split <;> rfl

theorem miss_state {c : Control} (h : (c.miss p).state ≠ .deleted) : (c.miss p).state = c.state := by
  unfold Control.miss at h ⊢
  split
  · next hd =>
    rw [if_pos hd] at h
    exact absurd rfl h
  · rfl

theorem modify_miss (h : IdsValid cs n) (t : Nat) : IdsValid (cs.modify t (Control.miss p)) n := by
  refine h.congr fun i a' ha' => ?_
  rw [List.getElem?_modify] at ha'
  obtain ⟨a, ha, rfl⟩ := Option.map_eq_some_iff.mp ha'
  refine ⟨a, ha, ?_⟩
  split
  · exact ⟨miss_trackId a, miss_state⟩
  · exact ⟨rfl, fun _ => rfl⟩

/-- A match hands out the next id or none. -/
theorem update (h : IdsValid cs n) {t : Nat} {c : Control} (hc : cs[t]? = some c) {n' : Nat}
    (hn' : n' = if c.Confirms p then n + 1 else n) (hle : n' ≤ 2 ^ 31) :
    IdsValid (cs.set t (c.update p n)) n' := by
  have hlt := (List.getElem?_eq_some_iff.mp hc).1
  by_cases hcf : c.Confirms p
  · rw [if_pos hcf] at hn'
    have hid : (c.update p n).trackId = n := by
      show (if c.Confirms p then toInt32 n else c.trackId) = n
      rw [if_pos hcf, toInt32_of_lt (by omega)]
    have hst : (c.update p n).state = .confirmed := if_pos hcf
    have hmem : ∀ a ∈ cs.set t (c.update p n), a = c.update p n ∨ a ∈ cs := fun a ha =>
      (List.mem_or_eq_of_mem_set ha).symm
    refine ⟨fun a ha hs => ?_, fun a ha hs => ?_, fun a ha => ?_, fun i j a b hi hj he hnn => ?_⟩
    · rcases hmem a ha with rfl | ha
      · rw [hst] at hs
        exact absurd hs TrackState.noConfusion
      · exact h.tentative a ha hs
    · rcases hmem a ha with rfl | ha
      · rw [hid]
        omega
      · exact h.confirmed a ha hs
    · rcases hmem a ha with rfl | ha
      · rw [hid]
        omega
      · have := h.lt a ha
        omega
    -- ids below `n` on all other tracks, `n` on this one
    · have hother : ∀ (k : Nat) x, k ≠ t → (cs.set t (c.update p n))[k]? = some x →
          cs[k]? = some x ∧ x.trackId < n := by
        intro k x hk hx
        rw [List.getElem?_set_ne (Ne.symm hk)] at hx
        exact ⟨hx, h.lt x (List.mem_of_getElem? hx)⟩
      have hself : ∀ (k : Nat) x, k = t → (cs.set t (c.update p n))[k]? = some x →
          x.trackId = n := by
        rintro k x rfl hx
        rw [List.getElem?_set_self hlt] at hx
        rw [← Option.some.inj hx, hid]
      by_cases hit : i = t
      · by_cases hjt : j = t
        · exact hit.trans hjt.symm
        · have := (hother j b hjt hj).2
          have := hself i a hit hi
          omega
      · by_cases hjt : j = t
        · have := (hother i a hit hi).2
          have := hself j b hjt hj
          omega
        · exact h.distinct i j a b (hother i a hit hi).1 (hother j b hjt hj).1 he hnn
  · rw [if_neg hcf] at hn'
    subst hn'
    refine h.congr fun i a' ha' => ?_
    by_cases hit : t = i
    · subst hit
      rw [List.getElem?_set_self hlt] at ha'
      obtain rfl := Option.some.inj ha'
      exact ⟨c, hc, if_neg hcf, fun _ => if_neg hcf⟩
    · rw [List.getElem?_set_ne hit] at ha'
      exact ⟨a', ha', rfl, fun _ => rfl⟩

theorem append_start (h : IdsValid cs n) : IdsValid (cs ++ [Control.start]) n := by
  have hmem : ∀ a ∈ cs ++ [Control.start], a ∈ cs ∨ a = Control.start := fun a ha => by
    simpa using ha
  refine ⟨fun a ha hs => ?_, fun a ha hs => ?_, fun a ha => ?_, fun i j a b hi hj he hnn => ?_⟩
  · rcases hmem a ha with ha | rfl
    · exact h.tentative a ha hs
    · rfl
  · rcases hmem a ha with ha | rfl
    · exact h.confirmed a ha hs
    · exact absurd hs TrackState.noConfusion
  · rcases hmem a ha with ha | rfl
    · exact h.lt a ha
    · show (-1 : Int) < n
      omega
  · have hold : ∀ (k : Nat) x, (cs ++ [Control.start])[k]? = some x → 0 ≤ x.trackId →
        cs[k]? = some x := by
      intro k x hx hx0
      by_cases hk : k < cs.length
      · rwa [List.getElem?_append_left hk] at hx
      · rw [List.getElem?_append_right (by omega)] at hx
        have := List.mem_of_getElem? hx
        rw [List.mem_singleton.mp this] at hx0
        exact absurd hx0 (by decide)
    exact h.distinct i j a b (hold i a hi hnn) (hold j b hj (he ▸ hnn)) he hnn

theorem of_start (h : ∀ c ∈ cs, c = Control.start) : IdsValid cs n := by
  refine ⟨fun c hc _ => ?_, fun c hc hs => ?_, fun c hc => ?_, fun i j a b hi _ _ hnn => ?_⟩
  · rw [h c hc]
    rfl
  · rw [h c hc] at hs
    exact absurd hs TrackState.noConfusion
  · rw [h c hc]
    show (-1 : Int) < n
    omega
  · rw [h a (List.mem_of_getElem? hi)] at hnn
    exact absurd hnn (by decide)

end IdsValid

/-! ## One call -/

variable [Field K] [LinearOrder K] [IsStrictOrderedRing K] {algo : MatchAlgorithm K}

/-- The ids of tracks are valid. -/
abbrev ValidIds (tracks : List (FeatureMatchTrackObject K)) (n : Nat) : Prop :=
  IdsValid (tracks.map control) n

omit [Field K] [LinearOrder K] [IsStrictOrderedRing K] in
theorem map_control_modify {tracks : List (FeatureMatchTrackObject K)} {p : Params K} {t : Nat} :
    (tracks.modify t (markMiss p)).map control = (tracks.map control).modify t (Control.miss p) := by
  refine List.ext_getElem? fun i => ?_
  rw [List.getElem?_map, List.getElem?_modify, List.getElem?_modify, List.getElem?_map]
  cases tracks[i]? with
  | none => rfl
  | some track =>
    show some (control (if t = i then markMiss p track else track)) =
      some (if t = i then (control track).miss p else control track)
    split
    · rw [control_markMiss]
    · rfl

theorem applyMatches_ids {p : Params K} {m : Matches K} {tracks : List (FeatureMatchTrackObject K)}
    {nextId : Nat} {u : Progress K} (hv : ValidIds tracks nextId)
    (h : applyMatches p m tracks nextId = .ok u) (hle : u.nextId ≤ 2 ^ 31) :
    ValidIds u.tracks u.nextId := by
  obtain ⟨u₁, h₁, h⟩ := bind_eq_ok.mp h
  obtain ⟨u₂, h₂, h⟩ := bind_eq_ok.mp h
  obtain ⟨us, h₃, h⟩ := bind_eq_ok.mp h
  obtain rfl := Except.ok.inj h
  have hI₁ : u₁.nextId ≤ 2 ^ 31 → ValidIds u₁.tracks u₁.nextId := by
    refine foldlM_invariant (I := fun u => u.nextId ≤ 2 ^ 31 → ValidIds u.tracks u.nextId) ?_ h₁
      fun _ => hv
    intro v pair _ v' hI hstep hle'
    obtain ⟨det, track, -, ht, rfl⟩ := updateMatched_eq_ok hstep
    simp only at hle'
    have hle₀ : v.nextId ≤ 2 ^ 31 := by split at hle' <;> omega
    show IdsValid ((v.tracks.set pair.2 _).map control) _
    rw [List.map_set, control_updateTrack]
    exact (hI hle₀).update (by rw [List.getElem?_map, ht]; rfl) rfl hle'
  have hI₂ : u₂.nextId ≤ 2 ^ 31 → ValidIds u₂.tracks u₂.nextId := by
    refine foldlM_invariant (I := fun u => u.nextId ≤ 2 ^ 31 → ValidIds u.tracks u.nextId) ?_ h₂ hI₁
    intro v idx _ v' hI hstep hle'
    obtain ⟨det, -, hstep⟩ := bind_eq_ok.mp hstep
    obtain rfl := Except.ok.inj hstep
    show IdsValid ((v.tracks ++ [initNewTrack det]).map control) _
    rw [List.map_append]
    exact (hI hle').append_start
  refine foldlM_invariant (I := fun ts => ValidIds ts u₂.nextId) ?_ h₃ (hI₂ hle)
  intro ts t _ ts' hI hstep
  obtain ⟨g, hg, hstep⟩ := bind_eq_ok.mp hstep
  obtain rfl := Except.ok.inj hg
  obtain ⟨-, rfl⟩ := modifyAt_eq_ok.mp hstep
  show IdsValid (List.map control (ts.modify t (markMiss p))) _
  rw [map_control_modify]
  exact hI.modify_miss t

omit [Field K] [LinearOrder K] [IsStrictOrderedRing K] in
theorem ValidIds.filter {tracks : List (FeatureMatchTrackObject K)} {n : Nat}
    (h : ValidIds tracks n) (q : FeatureMatchTrackObject K → Bool) :
    ValidIds (tracks.filter q) n := by
  have hmem : ∀ c ∈ (tracks.filter q).map control, c ∈ tracks.map control := fun c hc =>
    (List.filter_sublist.map control).subset hc
  refine ⟨fun c hc => h.tentative c (hmem c hc), fun c hc => h.confirmed c (hmem c hc),
    fun c hc => h.lt c (hmem c hc), fun j j' a b hj hj' he hnn => ?_⟩
  rw [List.getElem?_map] at hj hj'
  obtain ⟨t, ht, rfl⟩ := Option.map_eq_some_iff.mp hj
  obtain ⟨t', ht', rfl⟩ := Option.map_eq_some_iff.mp hj'
  obtain ⟨i, hi, hk⟩ := exists_of_filter_getElem? ht
  obtain ⟨i', hi', hk'⟩ := exists_of_filter_getElem? ht'
  obtain rfl : i = i' := h.distinct i i' _ _ (by rw [List.getElem?_map, hi]; rfl)
    (by rw [List.getElem?_map, hi']; rfl) he hnn
  exact Option.some.inj (hk.symm.trans hk')

namespace CallStep

variable {s s' : FeatureMatchPrivate K} {r : Except Fault (List (DetectObject K))}
  {keep : Nat → Option Nat}

theorem nextId_le (h : CallStep algo s s' r keep) : s.nextId ≤ s'.nextId := by
  cases h with
  | setParams params => exact le_rfl
  | firstEnter detects h => exact le_rfl
  | throws detects e => exact le_rfl
  | frame detects m u hp hF => exact hF.nextId_le

/-- Valid ids stay valid as long as ids fit in an `int`. -/
theorem validIds (h : CallStep algo s s' r keep) (hv : ValidIds s.tracks s.nextId)
    (hle : s'.nextId ≤ 2 ^ 31) : ValidIds s'.tracks s'.nextId := by
  have hpred : ∀ detects, ValidIds (matchFrame algo s.params detects s.tracks).2 s.nextId := by
    intro detects
    refine hv.map_predict.congr fun i a' ha' => ?_
    rw [List.getElem?_map] at ha'
    obtain ⟨t', ht', rfl⟩ := Option.map_eq_some_iff.mp ha'
    obtain ⟨t, ht, hc⟩ := matchFrame_control ht'
    refine ⟨(control t).predict, ?_, congrArg Control.trackId hc, fun _ => congrArg Control.state hc⟩
    rw [List.getElem?_map, List.getElem?_map, ht]
    rfl
  cases h with
  | setParams params => exact hv
  | firstEnter detects h =>
    refine IdsValid.of_start fun c hc => ?_
    rw [List.map_map] at hc
    obtain ⟨det, -, rfl⟩ := List.mem_map.mp hc
    exact control_initNewTrack det
  | throws detects e => exact hpred detects
  | frame detects m u hp hF =>
    obtain ⟨m', -, ha⟩ := processFrame_eq_ok hp
    exact ValidIds.filter (applyMatches_ids (hpred detects) ha hle) _

/-- An id that was handed out before the call stays with its track. -/
theorem owner (h : CallStep algo s s' r keep) (hle : s'.nextId ≤ 2 ^ 31) {j : Nat}
    {after : FeatureMatchTrackObject K} (hj : s'.tracks[j]? = some after) (h0 : 0 ≤ after.trackId)
    (hlt : after.trackId < s.nextId) :
    ∃ i track, s.tracks[i]? = some track ∧ track.trackId = after.trackId ∧ keep i = some j := by
  cases h with
  | setParams params => exact ⟨j, after, hj, rfl, rfl⟩
  | firstEnter detects h =>
    have hmem := List.mem_of_getElem? hj
    obtain ⟨det, -, rfl⟩ := List.mem_map.mp hmem
    exact absurd (show (0 : Int) ≤ -1 from h0) (by decide)
  | throws detects e =>
    obtain ⟨track, ht, hc⟩ := matchFrame_control hj
    exact ⟨j, track, ht, (congrArg Control.trackId hc).symm, rfl⟩
  | frame detects m u hp hF =>
    obtain ⟨i, hi, hk⟩ := exists_of_filter_getElem? hj
    rcases Nat.lt_or_ge i s.tracks.length with hil | hil
    · have hget := List.getElem?_eq_getElem hil
      refine ⟨i, s.tracks[i], hget, ?_, hk⟩
      by_cases hm : i ∈ m.pairs.map Prod.snd
      · obtain ⟨⟨d, t⟩, hdt, rfl⟩ := List.mem_map.mp hm
        obtain ⟨track, after', k, ht, ha, hc, hsk, hku⟩ := hF.matched d t hdt
        obtain rfl : after = after' := Option.some.inj (hi.symm.trans ha)
        obtain rfl : s.tracks[t] = track := Option.some.inj (hget.symm.trans ht)
        have hid : after.trackId = if (control s.tracks[t]).Confirms s.params then toInt32 k
            else s.tracks[t].trackId := congrArg Control.trackId hc
        by_cases hcf : (control s.tracks[t]).Confirms s.params
        · have hk31 := hku hcf
          rw [if_pos hcf, toInt32_of_lt (lt_of_lt_of_le hk31 hle)] at hid
          omega
        · rw [if_neg hcf] at hid
          exact hid.symm
      · obtain ⟨after', ha, hc⟩ := hF.unmatched i _ hget hm
        obtain rfl : after = after' := Option.some.inj (hi.symm.trans ha)
        rcases hc with hc | ⟨-, hc⟩
        · have hid := congrArg Control.trackId hc
          rw [IdsValid.miss_trackId] at hid
          exact hid.symm
        · exact (congrArg Control.trackId hc).symm
    · have hid := congrArg Control.trackId (hF.started i after hil hi)
      exact absurd (hid ▸ h0 : 0 ≤ Control.start.trackId) (by decide)

/-- No two entries of one call show the same id. -/
theorem output_distinct (h : CallStep algo s s' r keep) (hv : ValidIds s.tracks s.nextId)
    {out : List (DetectObject K)} (hr : r = .ok out) {k l : Nat} {e e' : DetectObject K}
    (hk : out[k]? = some e) (hl : out[l]? = some e') (he : e.trackId = e'.trackId)
    (h0 : 0 ≤ e.trackId) : k = l := by
  cases h with
  | setParams params =>
    obtain rfl := Except.ok.inj hr
    simp at hk
  | firstEnter detects h =>
    obtain rfl := Except.ok.inj hr
    rw [List.getElem?_mapIdx] at hk
    obtain ⟨det, -, rfl⟩ := Option.map_eq_some_iff.mp hk
    exact absurd (show (0 : Int) ≤ -1 from h0) (by decide)
  | throws detects e => simp at hr
  | frame detects m u hp hF =>
    obtain rfl := Except.ok.inj hr
    obtain ⟨entries, new, hout, hent, hnew⟩ := hF.output
    obtain ⟨T, chance, hM⟩ := matchFrame_spec (Prod.ext hF.matching rfl)
    have hnd := (List.nodup_append.mp hM.nodup_tracks).1
    -- an entry with an id shows a track that was there before
    have hpair : ∀ (k : Nat) e, u.output[k]? = some e → 0 ≤ e.trackId → ∃ t track,
        (m.pairs.map Prod.snd)[k]? = some t ∧ s.tracks[t]? = some track ∧
          e.trackId = track.trackId := by
      intro k e hk h0
      rw [hout] at hk
      rcases Nat.lt_or_ge k entries.length with hlt | hge
      · rw [List.getElem?_append_left hlt] at hk
        obtain ⟨hi, rfl⟩ := List.getElem?_eq_some_iff.mp hk
        have hi' : k < m.pairs.length := hent.length_eq ▸ hi
        obtain ⟨-, track, ht, hid⟩ := (List.forall₂_iff_get.mp hent).2 k hi' hi
        refine ⟨_, track, ?_, ht, hid⟩
        rw [List.getElem?_map, List.getElem?_eq_getElem hi']
        rfl
      · rw [List.getElem?_append_right hge] at hk
        obtain ⟨hi, rfl⟩ := List.getElem?_eq_some_iff.mp hk
        obtain ⟨-, hid⟩ := (List.forall₂_iff_get.mp hnew).2 _ (hnew.length_eq ▸ hi) hi
        rw [show (new[k - entries.length]).trackId = -1 from hid] at h0
        exact absurd h0 (by decide)
    obtain ⟨t, track, ht, hs, hid⟩ := hpair k e hk h0
    obtain ⟨t', track', ht', hs', hid'⟩ := hpair l e' hl (he ▸ h0)
    obtain rfl : t = t' := hv.distinct t t' _ _ (by rw [List.getElem?_map, hs]; rfl)
      (by rw [List.getElem?_map, hs']; rfl) (hid.symm.trans (he.trans hid')) (hid ▸ h0)
    obtain ⟨hi, hg⟩ := List.getElem?_eq_some_iff.mp ht
    obtain ⟨hi', hg'⟩ := List.getElem?_eq_some_iff.mp ht'
    exact hnd.getElem_inj_iff.mp (hg.trans hg'.symm)

/-- Tentative tracks have no id, however many have been handed out. -/
theorem tentative (h : CallStep algo s s' r keep)
    (hs : ∀ track ∈ s.tracks, track.state = .tentative → track.trackId = -1) :
    ∀ track ∈ s'.tracks, track.state = .tentative → track.trackId = -1 := by
  have hpred : ∀ track c, track ∈ s.tracks → c = (control track).predict → c.state = .tentative →
      c.trackId = -1 := by
    rintro track _ ht rfl hst
    exact hs track ht hst
  intro after hmem hst
  obtain ⟨j, hj⟩ := List.mem_iff_getElem?.mp hmem
  cases h with
  | setParams params => exact hs after hmem hst
  | firstEnter detects h =>
    obtain ⟨det, -, rfl⟩ := List.mem_map.mp hmem
    rfl
  | throws detects e =>
    obtain ⟨track, ht, hc⟩ := matchFrame_control hj
    exact hpred track _ (List.mem_of_getElem? ht) hc hst
  | frame detects m u hp hF =>
    obtain ⟨i, hi, -⟩ := exists_of_filter_getElem? hj
    rcases Nat.lt_or_ge i s.tracks.length with hil | hil
    · have hget := List.getElem?_eq_getElem hil
      by_cases hm : i ∈ m.pairs.map Prod.snd
      · obtain ⟨⟨d, t⟩, hdt, rfl⟩ := List.mem_map.mp hm
        obtain ⟨track, after', k, ht, ha, hc, -⟩ := hF.matched d t hdt
        obtain rfl : after = after' := Option.some.inj (hi.symm.trans ha)
        have hstate : after.state = if (control track).Confirms s.params then .confirmed
            else track.state := congrArg Control.state hc
        have hid : after.trackId = if (control track).Confirms s.params then toInt32 k
            else track.trackId := congrArg Control.trackId hc
        by_cases hcf : (control track).Confirms s.params
        · rw [hst, if_pos hcf] at hstate
          exact absurd hstate TrackState.noConfusion
        · rw [if_neg hcf] at hstate hid
          rw [hid]
          exact hs track (List.mem_of_getElem? ht) (hstate.symm.trans hst)
      · obtain ⟨after', ha, hc⟩ := hF.unmatched i _ hget hm
        obtain rfl : after = after' := Option.some.inj (hi.symm.trans ha)
        rcases hc with hc | ⟨-, hc⟩
        · have hstate := congrArg Control.state hc
          have hne : ((control s.tracks[i]).predict.miss s.params).state ≠ .deleted := by
            rw [← hstate]
            show after.state ≠ _
            rw [hst]
            exact TrackState.noConfusion
          rw [IdsValid.miss_state hne] at hstate
          have hid := congrArg Control.trackId hc
          rw [IdsValid.miss_trackId] at hid
          exact hid.trans (hs _ (List.mem_of_getElem? hget) (hstate.symm.trans hst))
        · exact hpred _ _ (List.mem_of_getElem? hget) hc hst
    · exact congrArg Control.trackId (hF.started i after hil hi)

end CallStep

/-! ## Entries and tracks -/

section Entries

variable (algo) (s : FeatureMatchPrivate K) (detects : List (DetectObject K))

/-- The tracks at the end of a frame, before dead ones are erased. -/
def endTracks : List (FeatureMatchTrackObject K) :=
  if s.tracks.isEmpty then (resetMolds detects).map initNewTrack
  else
    match processFrame algo s (resetMolds detects) with
    | .error (_, ts) => ts
    | .ok u => u.tracks

/--
For each entry of a frame, the index of its track: the one its detection was matched with, or the
one that was started for it.
-/
def entryTracks : List Nat :=
  if s.tracks.isEmpty then List.range detects.length
  else
    match (matchFrame algo s.params (resetMolds detects) s.tracks).1 with
    | .error _ => []
    | .ok m => m.pairs.map Prod.snd ++
        List.range' s.tracks.length m.iou.unmatchedDetections.length

end Entries

/-! ## Runs -/

variable {s : FeatureMatchPrivate K}

/-- States that calls lead to from the initial state. -/
abbrev Reached (algo : MatchAlgorithm K) (s : FeatureMatchPrivate K) : Prop :=
  Lib.Reachable (fun s => s = initial) (Step algo) s

theorem reached_run (h : Reached algo s) (cs : List (Call K)) : Reached algo (run algo s cs) := by
  induction cs generalizing s with
  | nil => exact h
  | cons c cs ih => exact ih (h.tail ⟨c, rfl⟩)

theorem reached_validIds (h : Reached algo s) : s.nextId ≤ 2 ^ 31 → ValidIds s.tracks s.nextId := by
  refine Reachable.invariant (I := fun s => s.nextId ≤ 2 ^ 31 → ValidIds s.tracks s.nextId) ?_ ?_ h
  · rintro s rfl -
    exact IdsValid.nil 0
  · rintro s t hI ⟨c, rfl⟩ hle
    have hst := call_step algo s c
    exact hst.validIds (hI (hst.nextId_le.trans hle)) hle

theorem run_nextId_le (s : FeatureMatchPrivate K) (cs : List (Call K)) :
    s.nextId ≤ (run algo s cs).nextId := by
  induction cs generalizing s with
  | nil => exact le_rfl
  | cons c cs ih => exact (call_step algo s c).nextId_le.trans (ih _)

/-- After any calls a track with an id handed out before them is the track that had it. -/
theorem run_owner {cs : List (Call K)} : ∀ {s : FeatureMatchPrivate K},
    (run algo s cs).nextId ≤ 2 ^ 31 → ∀ {j : Nat} {after : FeatureMatchTrackObject K},
    (run algo s cs).tracks[j]? = some after → 0 ≤ after.trackId → after.trackId < s.nextId →
    ∃ i track, s.tracks[i]? = some track ∧ track.trackId = after.trackId ∧
      lineage algo s cs i = some j := by
  induction cs with
  | nil => exact fun _ j after hj _ _ => ⟨j, after, hj, rfl, rfl⟩
  | cons c cs ih =>
    intro s hle j after hj h0 hlt
    have hst := call_step algo s c
    have hle₁ := (run_nextId_le (call algo s c).1 cs).trans hle
    have hnext := hst.nextId_le
    obtain ⟨i, track, hi, hid, hl⟩ := ih hle hj h0 (by omega)
    obtain ⟨i₀, track₀, hi₀, hid₀, hk⟩ := hst.owner hle₁ hi (hid ▸ h0) (hid ▸ hlt)
    refine ⟨i₀, track₀, hi₀, hid₀.trans hid, ?_⟩
    rw [lineage, hk]
    exact hl

/--
**The identity of tracks.**

In every state that calls lead to with fewer than 2^31 confirmations: a tentative track has id -1;
confirmed tracks have distinct ids below the next id; a track that later calls leave with an id
handed out before them is the track that had it then, so that an id never passes on; and no two
entries of a call show the same id.
-/
theorem reachable_ids (h : Reached algo s) (hle : s.nextId ≤ 2 ^ 31) :
    (∀ track ∈ s.tracks, track.state = .tentative → track.trackId = -1) ∧
    (∀ track ∈ s.tracks, track.state = .confirmed → 0 ≤ track.trackId ∧ track.trackId < s.nextId) ∧
    (∀ (i j : Nat) (a b : FeatureMatchTrackObject K), s.tracks[i]? = some a →
      s.tracks[j]? = some b → a.state = .confirmed → b.state = .confirmed →
      a.trackId = b.trackId → i = j) ∧
    (∀ (cs : List (Call K)) (j : Nat) (after : FeatureMatchTrackObject K),
      (run algo s cs).nextId ≤ 2 ^ 31 → (run algo s cs).tracks[j]? = some after →
      0 ≤ after.trackId → after.trackId < s.nextId →
      ∃ i track, s.tracks[i]? = some track ∧ track.trackId = after.trackId ∧
        lineage algo s cs i = some j) ∧
    ∀ (c : Call K) (out : List (DetectObject K)), (call algo s c).2 = .ok out →
      ∀ (k l : Nat) (e e' : DetectObject K), out[k]? = some e → out[l]? = some e' →
        e.trackId = e'.trackId → 0 ≤ e.trackId → k = l := by
  have hv := reached_validIds h hle
  have hmem : ∀ track ∈ s.tracks, control track ∈ s.tracks.map control := fun track ht =>
    List.mem_map_of_mem ht
  have hget : ∀ (i : Nat) a, s.tracks[i]? = some a → (s.tracks.map control)[i]? = some (control a) := by
    intro i a hi
    rw [List.getElem?_map, hi]
    rfl
  refine ⟨fun track ht => hv.tentative _ (hmem track ht), fun track ht hs => ?_, ?_, ?_, ?_⟩
  · exact ⟨hv.confirmed _ (hmem track ht) hs, hv.lt _ (hmem track ht)⟩
  · intro i j a b hi hj ha _ he
    exact hv.distinct i j _ _ (hget i a hi) (hget j b hj) he
      (hv.confirmed _ (hmem a (List.mem_of_getElem? hi)) ha)
  · intro cs j after hle' hj h0 hlt
    exact run_owner hle' hj h0 hlt
  · intro c out hr k l e e' hk hl he h0
    exact (call_step algo s c).output_distinct hv hr hk hl he h0

/-- A track confirmed by its first match. -/
def sampleCalls : List (Call ℚ) :=
  [.setParams 0.2 100 0.7 30 1, .updateFrame [sampleDetect], .updateFrame [sampleDetect]]

/-- Before the match. -/
abbrev sampleStart : FeatureMatchPrivate ℚ :=
  run (munkres ratSqrt) initial (sampleCalls.take 2)

/-- The frame of the match, evaluated. -/
theorem sample_frame :
    (updateFrame (munkres ratSqrt) sampleStart [sampleDetect]).2
      = .ok [{ sampleDetect with trackId := -1, detectId := 0 }] ∧
    (updateFrame (munkres ratSqrt) sampleStart [sampleDetect]).1.nextId = 1 ∧
    (entryTracks (munkres ratSqrt) sampleStart [sampleDetect])[0]? = some 0 ∧
    ((endTracks (munkres ratSqrt) sampleStart [sampleDetect])[0]?).map (·.trackId) = some 0 := by
  decide +kernel

theorem sample_output : (updateFrame (munkres ratSqrt) sampleStart [sampleDetect]).2
    = .ok [{ sampleDetect with trackId := -1, detectId := 0 }] :=
  sample_frame.1

theorem sample_nextId :
    (updateFrame (munkres ratSqrt) sampleStart [sampleDetect]).1.nextId = 1 :=
  sample_frame.2.1

theorem sample_entryTracks :
    (entryTracks (munkres ratSqrt) sampleStart [sampleDetect])[0]? = some 0 :=
  sample_frame.2.2.1

theorem sample_endTracks :
    ((endTracks (munkres ratSqrt) sampleStart [sampleDetect])[0]?).map (·.trackId) = some 0 :=
  sample_frame.2.2.2

theorem reachable_ids_sample :
    (run (munkres ratSqrt) initial sampleCalls).nextId ≤ 2 ^ 31 ∧
      ∀ track ∈ (run (munkres ratSqrt) initial sampleCalls).tracks, track.state = .confirmed →
        0 ≤ track.trackId ∧ track.trackId < (run (munkres ratSqrt) initial sampleCalls).nextId := by
  have hle : (run (munkres ratSqrt) initial sampleCalls).nextId ≤ 2 ^ 31 := by
    show (updateFrame (munkres ratSqrt) sampleStart [sampleDetect]).1.nextId ≤ 2 ^ 31
    rw [sample_nextId]
    decide
  exact ⟨hle, (reachable_ids (reached_run (Reachable.of_init rfl) sampleCalls) hle).2.1⟩

theorem reached_tentative (h : Reached algo s) :
    ∀ track ∈ s.tracks, track.state = .tentative → track.trackId = -1 := by
  refine Reachable.invariant
    (I := fun s => ∀ track ∈ s.tracks, track.state = .tentative → track.trackId = -1) ?_ ?_ h
  · rintro s rfl track ht
    exact absurd ht List.not_mem_nil
  · rintro s t hI ⟨c, rfl⟩
    exact (call_step algo s c).tentative hI

variable {detects : List (DetectObject K)}

/-- A matched track turns confirmed in the frame. -/
def TurnsConfirmed (s : FeatureMatchPrivate K) (t : Nat) : Prop :=
  ∃ track, s.tracks[t]? = some track ∧ track.state = .tentative ∧ s.params.nInit ≤ track.age

/-- The id a matched track ends with, and the one it had. -/
theorem matched_trackId {m : Matches K} {u : Progress K} (hF : Frame algo s detects m u)
    (hs : ∀ track ∈ s.tracks, track.state = .tentative → track.trackId = -1) {d t : Nat}
    (hdt : (d, t) ∈ m.pairs) : ∃ before after, s.tracks[t]? = some before ∧
      u.tracks[t]? = some after ∧ (¬TurnsConfirmed s t → before.trackId = after.trackId) ∧
      (u.nextId < 2 ^ 32 → before.trackId = after.trackId → ¬TurnsConfirmed s t) := by
  obtain ⟨before, after, k, hb, ha, hc, -, hk⟩ := hF.matched d t hdt
  have hid : after.trackId = if (control before).Confirms s.params then toInt32 k
      else before.trackId := congrArg Control.trackId hc
  refine ⟨before, after, hb, ha, fun hno => ?_, ?_⟩
  · have hcf : ¬(control before).Confirms s.params := fun hcf => hno ⟨before, hb, hcf⟩
    rw [if_neg hcf] at hid
    exact hid.symm
  · rintro hle he ⟨before', hb', hcf⟩
    obtain rfl : before = before' := Option.some.inj (hb.symm.trans hb')
    have hcf' : (control before).Confirms s.params := hcf
    rw [if_pos hcf', ← he, hs before (List.mem_of_getElem? hb) hcf.1] at hid
    have hlt := hk hcf'
    unfold toInt32 at hid
    rw [Int.bmod_def] at hid
    omega

/--
**An entry shows the id its track has after the call unless the call confirms the track.**

In that case it shows the id from before, and differs from the track as long as the 32-bit id does
not wrap to -1.
-/
theorem entry_trackId_iff (h : Reached algo s) {out : List (DetectObject K)}
    (hr : (updateFrame algo s detects).2 = .ok out) :
    out.length = (entryTracks algo s detects).length ∧
    (updateFrame algo s detects).1.tracks = (if s.tracks.isEmpty then endTracks algo s detects
      else (endTracks algo s detects).filter fun track => ¬Dead s.params track) ∧
    ∀ (k t : Nat) (entry : DetectObject K), out[k]? = some entry →
      (entryTracks algo s detects)[k]? = some t →
      ∃ track, (endTracks algo s detects)[t]? = some track ∧
        (¬TurnsConfirmed s t → entry.trackId = track.trackId) ∧
        ((updateFrame algo s detects).1.nextId < 2 ^ 32 → entry.trackId = track.trackId →
          ¬TurnsConfirmed s t) := by
  -- the first frame starts a track for each detection, and copies the detections
  by_cases hs : s.tracks.isEmpty
  · have hnil := List.isEmpty_iff.mp hs
    unfold updateFrame at hr ⊢
    simp only [if_pos hs, firstEnter, Except.ok.injEq] at hr ⊢
    subst hr
    unfold entryTracks endTracks
    simp only [if_pos hs]
    refine ⟨by simp [resetMolds], trivial, fun k t entry hk ht => ?_⟩
    obtain ⟨hlt, hget⟩ := List.getElem?_eq_some_iff.mp ht
    obtain rfl : k = t := by rw [← hget, List.getElem_range]
    rw [List.getElem?_mapIdx] at hk
    obtain ⟨det, hdet, rfl⟩ := Option.map_eq_some_iff.mp hk
    refine ⟨initNewTrack det, by rw [List.getElem?_map, hdet]; rfl, fun _ => rfl, ?_⟩
    rintro - - ⟨track, ht, -⟩
    rw [hnil] at ht
    simp at ht
  · rcases hp : processFrame algo s (resetMolds detects) with ⟨e, ts⟩ | u
    · simp [updateFrame, hs, hp] at hr
    obtain ⟨m, hF⟩ := processFrame_ok hp
    have hupd : updateFrame algo s detects = ({ s with
        tracks := u.tracks.filter fun track => ¬Dead s.params track
        nextId := u.nextId }, .ok u.output) := by
      simp only [updateFrame, if_neg hs, hp]
    have hend : endTracks algo s detects = u.tracks := by
      simp only [endTracks, if_neg hs, hp]
    have hown : entryTracks algo s detects = m.pairs.map Prod.snd ++
        List.range' s.tracks.length m.iou.unmatchedDetections.length := by
      simp only [entryTracks, if_neg hs, hF.matching]
    rw [hupd] at hr ⊢
    obtain rfl := Except.ok.inj hr
    obtain ⟨entries, new, hout, hent, hnew⟩ := hF.output
    have hel : entries.length = m.pairs.length := hent.length_eq.symm
    rw [hend, hown]
    refine ⟨?_, (if_neg hs).symm, fun k t entry hk ht => ?_⟩
    · rw [hout, List.length_append, List.length_append, List.length_map, List.length_range', hel,
        ← hnew.length_eq]
    rw [hout] at hk
    -- the entries of the matches come first, those of new tracks behind them
    rcases Nat.lt_or_ge k m.pairs.length with hlt | hge
    · rw [List.getElem?_append_left (hel ▸ hlt)] at hk
      rw [List.getElem?_append_left (by rwa [List.length_map]), List.getElem?_map,
        List.getElem?_eq_getElem hlt] at ht
      obtain rfl := Option.some.inj ht
      obtain ⟨hi, rfl⟩ := List.getElem?_eq_some_iff.mp hk
      obtain ⟨-, track, htr, hid⟩ := (List.forall₂_iff_get.mp hent).2 k hlt hi
      obtain ⟨before, after, hb, ha, himp⟩ := matched_trackId hF (reached_tentative h)
        (show (m.pairs[k].1, m.pairs[k].2) ∈ m.pairs from List.getElem_mem hlt)
      obtain rfl : track = before := Option.some.inj (htr.symm.trans hb)
      refine ⟨after, ha, ?_⟩
      rw [show entries[k].trackId = track.trackId from hid]
      exact himp
    · rw [List.getElem?_append_right (hel ▸ hge)] at hk
      rw [List.getElem?_append_right (by rwa [List.length_map]), List.length_map] at ht
      obtain ⟨hi, hget⟩ := List.getElem?_eq_some_iff.mp ht
      rw [List.getElem_range', Nat.one_mul] at hget
      rw [List.length_range'] at hi
      have htl : t < u.tracks.length := by
        rw [hF.length]
        omega
      have hstart := hF.started t u.tracks[t] (by omega) (List.getElem?_eq_getElem htl)
      have hid : u.tracks[t].trackId = -1 := congrArg Control.trackId hstart
      obtain ⟨hj, rfl⟩ := List.getElem?_eq_some_iff.mp hk
      obtain ⟨-, hnid⟩ := (List.forall₂_iff_get.mp hnew).2 _ (hnew.length_eq ▸ hj) hj
      refine ⟨u.tracks[t], List.getElem?_eq_getElem htl, fun _ => ?_, ?_⟩
      · rw [hid]
        exact hnid
      · rintro - - ⟨track, htr, -⟩
        have := (List.getElem?_eq_some_iff.mp htr).1
        omega

/-- The frame that confirms the track of `sampleCalls` reports it with id -1. -/
theorem entry_lags_track : ¬∀ s : FeatureMatchPrivate ℚ, Reached (munkres ratSqrt) s →
    ∀ detects out, (updateFrame (munkres ratSqrt) s detects).2 = .ok out →
    ∀ (k t : Nat) (entry : DetectObject ℚ) (track : FeatureMatchTrackObject ℚ),
      out[k]? = some entry → (entryTracks (munkres ratSqrt) s detects)[k]? = some t →
      (endTracks (munkres ratSqrt) s detects)[t]? = some track →
      entry.trackId = track.trackId := by
  intro h
  obtain ⟨track, htrack, hid⟩ := Option.map_eq_some_iff.mp sample_endTracks
  have := h _ (reached_run (Reachable.of_init rfl) _) _ _ sample_output 0 0 _ track rfl
    sample_entryTracks htrack
  rw [hid] at this
  exact absurd this (by decide)

/-- `entry_trackId_iff` on that frame. -/
theorem entry_trackId_iff_sample :
    ∃ track, (endTracks (munkres ratSqrt) (run (munkres ratSqrt) initial (sampleCalls.take 2))
      [sampleDetect])[0]? = some track ∧
      ((-1 : Int) = track.trackId → ¬TurnsConfirmed (run (munkres ratSqrt) initial (sampleCalls.take 2)) 0) := by
  have hle : (updateFrame (munkres ratSqrt) sampleStart [sampleDetect]).1.nextId < 2 ^ 32 := by
    rw [sample_nextId]
    decide
  obtain ⟨track, ht, -, himp⟩ := (entry_trackId_iff (reached_run (Reachable.of_init rfl) _)
    sample_output).2.2 0 0 _ rfl sample_entryTracks
  exact ⟨track, ht, himp hle⟩

end CambriconGst.TrackFm
