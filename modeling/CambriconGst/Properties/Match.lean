import Mathlib.Data.List.Perm.Basic
import Mathlib.Data.List.Nodup
import CambriconGst.Easytrack.Match

/-!
# Feature distances and arranged assignments

* `arrange_spec`: every row's track is matched or unmatched, once; what is matched was assigned
  within the limit; what remains are the detections not matched
* `arrange_matching`: so every detection and every track is matched or left, once
* `arrange_ok`: with an assignment for the matrix the loop reads nothing out of range
* `cosineDistance_cache`: the feature distance does not depend on which norms are cached
-/

namespace CambriconGst.Easytrack

open Lib

variable {K : Type}

theorem CostMatrix.read_eq_ok {m : CostMatrix K} {i j : Nat} {c : K} :
    m.read i j = .ok c ↔ ∃ (hi : i < m.rows) (hj : j < m.cols), m.entry ⟨i, hi⟩ ⟨j, hj⟩ = c := by
  unfold CostMatrix.read
  split
  · next h => rw [Except.ok.injEq]; exact ⟨fun he => ⟨h.1, h.2, he⟩, fun ⟨_, _, he⟩ => he⟩
  · next h => exact ⟨fun he => by simp at he, fun ⟨hi, hj, _⟩ => absurd ⟨hi, hj⟩ h⟩

variable [LinearOrder K]

variable {cost : CostMatrix K} {maxDistance : K} {detectIndices trackIndices : List Nat}

/-! ## One row -/

/-- Row `i` with entry `a` of the assignment is matched with the detection at `j`. -/
def Takes (cost : CostMatrix K) (maxDistance : K) (i : Nat) (a : Int) (j : Nat) : Prop :=
  a = j ∧ ∃ c, cost.read i j = .ok c ∧ c ≤ maxDistance

theorem Takes.unique {i : Nat} {a : Int} {j j' : Nat} (h : Takes cost maxDistance i a j)
    (h' : Takes cost maxDistance i a j') : j = j' := by
  have := h.1
  have := h'.1
  omega

theorem rejected_true {i : Nat} {a : Int} (h : rejected cost maxDistance i a = .ok true) (j : Nat) :
    ¬Takes cost maxDistance i a j := by
  rintro ⟨rfl, c, hc, hle⟩
  rw [rejected, if_neg (by omega), Int.toNat_natCast, hc] at h
  have : decide (c > maxDistance) = true := Except.ok.inj h
  exact absurd hle (not_le.mpr (of_decide_eq_true this))

theorem rejected_false {i : Nat} {a : Int} (h : rejected cost maxDistance i a = .ok false) :
    Takes cost maxDistance i a a.toNat := by
  unfold rejected at h
  split at h
  · simp at h
  · next hnn =>
    obtain ⟨c, hc, h⟩ := bind_eq_ok.mp h
    have : decide (c > maxDistance) = false := Except.ok.inj h
    exact ⟨by omega, c, hc, not_lt.mp (of_decide_eq_false this)⟩

/-- What the loop does with a row. -/
theorem arrangeFrom_cons {i : Nat} {a : Int} {as : List Int} {res res' : MatchResult}
    (h : arrangeFrom cost maxDistance detectIndices trackIndices i (a :: as) res = .ok res') :
    ∃ track, trackIndices[i]? = some track ∧
      ((∃ j det, Takes cost maxDistance i a j ∧ detectIndices[j]? = some det ∧
          arrangeFrom cost maxDistance detectIndices trackIndices (i + 1) as
            { res with
              matched := res.matched ++ [(det, track)]
              unmatchedDetections := res.unmatchedDetections.erase det } = .ok res') ∨
        ((∀ j, ¬Takes cost maxDistance i a j) ∧
          arrangeFrom cost maxDistance detectIndices trackIndices (i + 1) as
            { res with unmatchedTracks := res.unmatchedTracks ++ [track] } = .ok res')) := by
  obtain ⟨track, ht, h⟩ := bind_eq_ok.mp h
  refine ⟨track, readAt_eq_ok.mp ht, ?_⟩
  obtain ⟨r, hr, h⟩ := bind_eq_ok.mp h
  cases r with
  | true => exact Or.inr ⟨rejected_true hr, h⟩
  | false =>
    obtain ⟨det, hd, h⟩ := bind_eq_ok.mp h
    exact Or.inl ⟨a.toNat, det, rejected_false hr, readAt_eq_ok.mp hd, h⟩

/-! ## The loop -/

/--
What the loop from row `i` on adds, over the rest `as` of the assignment: the pairs `M` and the
unmatched tracks `U`.
-/
structure Arranged (cost : CostMatrix K) (maxDistance : K) (detectIndices trackIndices : List Nat)
    (i : Nat) (as : List Int) (M : List (Nat × Nat)) (U : List Nat) : Prop where
  rows : ∀ k, k < as.length → i + k < trackIndices.length
  cols : ∀ k a j, as[k]? = some a → Takes cost maxDistance (i + k) a j → j < detectIndices.length
  perm : (M.map Prod.snd ++ U).Perm ((trackIndices.drop i).take as.length)
  mem : ∀ d t, (d, t) ∈ M ↔ ∃ k a j, as[k]? = some a ∧ Takes cost maxDistance (i + k) a j ∧
    detectIndices[j]? = some d ∧ trackIndices[i + k]? = some t

theorem exists_nat_iff {p : Nat → Prop} : (∃ k, p k) ↔ p 0 ∨ ∃ k, p (k + 1) := by
  constructor
  · rintro ⟨k, hk⟩
    cases k with
    | zero => exact Or.inl hk
    | succ k => exact Or.inr ⟨k, hk⟩
  · rintro (h | ⟨k, hk⟩)
    · exact ⟨0, h⟩
    · exact ⟨k + 1, hk⟩

/-- A row matched. -/
theorem Arranged.take {i : Nat} {a : Int} {as : List Int} {M : List (Nat × Nat)} {U : List Nat}
    {j det track : Nat} (h : Arranged cost maxDistance detectIndices trackIndices (i + 1) as M U)
    (ht : trackIndices[i]? = some track) (htake : Takes cost maxDistance i a j)
    (hd : detectIndices[j]? = some det) :
    Arranged cost maxDistance detectIndices trackIndices i (a :: as) ((det, track) :: M) U := by
  obtain ⟨hlt, hget⟩ := List.getElem?_eq_some_iff.mp ht
  have hshift : ∀ k, i + 1 + k = i + (k + 1) := fun k => by omega
  obtain ⟨hl, hj, hp, hm⟩ := h
  simp only [hshift] at hl hj hm
  refine ⟨fun k hk => ?_, fun k b j' hb hb' => ?_, ?_, fun d t => ?_⟩
  · cases k with
    | zero => exact hlt
    | succ k => exact hl k (by simpa using hk)
  · cases k with
    | zero =>
      obtain rfl : a = b := by simpa using hb
      obtain rfl := htake.unique hb'
      exact (List.getElem?_eq_some_iff.mp hd).1
    | succ k => exact hj k b j' (by simpa using hb) hb'
  · rw [List.drop_eq_getElem_cons hlt, hget, List.length_cons, List.take_succ_cons]
    exact hp.cons track
  · conv_rhs => rw [exists_nat_iff]
    refine List.mem_cons.trans (or_congr ⟨fun he => ?_, ?_⟩ (hm d t))
    · obtain ⟨rfl, rfl⟩ := Prod.mk.inj he
      exact ⟨a, j, rfl, htake, hd, ht⟩
    · rintro ⟨b, j', hb, hb', hd', ht'⟩
      obtain rfl : a = b := by simpa using hb
      obtain rfl := htake.unique hb'
      rw [hd] at hd'
      rw [Nat.add_zero, ht] at ht'
      exact Prod.ext (Option.some.inj hd').symm (Option.some.inj ht').symm

/-- A row left unmatched. -/
theorem Arranged.skip {i : Nat} {a : Int} {as : List Int} {M : List (Nat × Nat)} {U : List Nat}
    {track : Nat} (h : Arranged cost maxDistance detectIndices trackIndices (i + 1) as M U)
    (ht : trackIndices[i]? = some track) (hno : ∀ j, ¬Takes cost maxDistance i a j) :
    Arranged cost maxDistance detectIndices trackIndices i (a :: as) M (track :: U) := by
  obtain ⟨hlt, hget⟩ := List.getElem?_eq_some_iff.mp ht
  have hshift : ∀ k, i + 1 + k = i + (k + 1) := fun k => by omega
  obtain ⟨hl, hj, hp, hm⟩ := h
  simp only [hshift] at hl hj hm
  refine ⟨fun k hk => ?_, fun k b j' hb hb' => ?_, ?_, fun d t => ?_⟩
  · cases k with
    | zero => exact hlt
    | succ k => exact hl k (by simpa using hk)
  · cases k with
    | zero =>
      obtain rfl : a = b := by simpa using hb
      exact absurd hb' (hno j')
    | succ k => exact hj k b j' (by simpa using hb) hb'
  · rw [List.drop_eq_getElem_cons hlt, hget, List.length_cons, List.take_succ_cons]
    exact List.perm_middle.trans (hp.cons track)
  · conv_rhs => rw [exists_nat_iff]
    refine (hm d t).trans ⟨Or.inr, ?_⟩
    rintro (⟨b, j', hb, hb', -⟩ | h)
    · obtain rfl : a = b := by simpa using hb
      exact absurd hb' (hno j')
    · exact h

theorem arrangeFrom_spec {as : List Int} : ∀ {i : Nat} {res res' : MatchResult},
    arrangeFrom cost maxDistance detectIndices trackIndices i as res = .ok res' →
    ∃ M U, Arranged cost maxDistance detectIndices trackIndices i as M U ∧
      res' = { matched := res.matched ++ M
               unmatchedTracks := res.unmatchedTracks ++ U
               unmatchedDetections := res.unmatchedDetections.diff (M.map Prod.fst) } := by
  induction as with
  | nil =>
    intro i res res' h
    obtain rfl := Except.ok.inj h
    exact ⟨[], [], ⟨by simp, by simp, by simp, by simp⟩, by simp⟩
  | cons a as ih =>
    intro i res res' h
    obtain ⟨track, ht, h⟩ := arrangeFrom_cons h
    rcases h with ⟨j, det, htake, hd, h⟩ | ⟨hno, h⟩
    · obtain ⟨M, U, hA, rfl⟩ := ih h
      exact ⟨(det, track) :: M, U, hA.take ht htake hd, by simp [List.diff_cons]⟩
    · obtain ⟨M, U, hA, rfl⟩ := ih h
      exact ⟨M, track :: U, hA.skip ht hno, by simp⟩

/-! ## A whole assignment -/

/-- Row `i` is assigned column `j` at a cost within the limit. -/
def Accepted (cost : CostMatrix K) (maxDistance : K) (assignments : List Int) (i j : Nat) : Prop :=
  assignments[i]? = some (j : Int) ∧ ∃ c, cost.read i j = .ok c ∧ c ≤ maxDistance

/-- What `arrange` returns. -/
structure ArrangeSpec (cost : CostMatrix K) (maxDistance : K)
    (detectIndices trackIndices : List Nat) (assignments : List Int) (res : MatchResult) : Prop where
  rows : assignments.length ≤ trackIndices.length
  cols : ∀ i j, Accepted cost maxDistance assignments i j → j < detectIndices.length
  tracks : (res.matched.map Prod.snd ++ res.unmatchedTracks).Perm
    (trackIndices.take assignments.length)
  remained : res.unmatchedDetections = detectIndices.diff (res.matched.map Prod.fst)
  mem : ∀ d t, (d, t) ∈ res.matched ↔ ∃ i j, Accepted cost maxDistance assignments i j ∧
    detectIndices[j]? = some d ∧ trackIndices[i]? = some t

theorem accepted_iff {as : List Int} {i j : Nat} :
    Accepted cost maxDistance as i j ↔ ∃ a, as[i]? = some a ∧ Takes cost maxDistance i a j := by
  constructor
  · rintro ⟨ha, hc⟩
    exact ⟨_, ha, rfl, hc⟩
  · rintro ⟨a, ha, rfl, hc⟩
    exact ⟨ha, hc⟩

theorem arrange_spec {as : List Int} {res : MatchResult}
    (h : arrange cost maxDistance detectIndices trackIndices as = .ok res) :
    ArrangeSpec cost maxDistance detectIndices trackIndices as res := by
  obtain ⟨M, U, ⟨hl, hj, hp, hm⟩, rfl⟩ := arrangeFrom_spec h
  simp only [Nat.zero_add] at hl hj hm
  refine ⟨?_, fun i j hij => ?_, ?_, ?_, fun d t => ?_⟩
  · by_contra hlt
    exact absurd (hl trackIndices.length (by omega)) (lt_irrefl _)
  · obtain ⟨a, ha, ht⟩ := accepted_iff.mp hij
    exact hj i a j ha ht
  · simpa using hp
  · simp
  · simp only [List.nil_append, hm, accepted_iff]
    exact exists_congr fun i => ⟨fun ⟨a, j, ha, ht, hdt⟩ => ⟨j, ⟨a, ha, ht⟩, hdt⟩,
      fun ⟨j, ⟨a, ha, ht⟩, hdt⟩ => ⟨a, j, ha, ht, hdt⟩⟩

/-- Different rows are assigned different columns. -/
theorem Accepted.row_unique {r c : Nat} {as : List Int} (hv : ValidAssignment r c as)
    {i i' j : Nat} (h : Accepted cost maxDistance as i j)
    (h' : Accepted cost maxDistance as i' j) : i = i' := by
  obtain ⟨hi, hgi⟩ := List.getElem?_eq_some_iff.mp h.1
  obtain ⟨hi', hgi'⟩ := List.getElem?_eq_some_iff.mp h'.1
  exact hv.distinct i i' hi hi' (hgi.trans hgi'.symm) (by rw [hgi]; omega)

namespace ArrangeSpec

variable {as : List Int} {res : MatchResult} {r c : Nat}

/-- No track is matched twice. -/
theorem nodup_tracks (h : ArrangeSpec cost maxDistance detectIndices trackIndices as res)
    (ht : trackIndices.Nodup) : (res.matched.map Prod.snd).Nodup :=
  (List.nodup_append.mp (h.tracks.nodup_iff.mpr (ht.sublist (List.take_sublist _ _)))).1

/-- No detection is matched twice. -/
theorem nodup_detections (h : ArrangeSpec cost maxDistance detectIndices trackIndices as res)
    (hv : ValidAssignment r c as) (hd : detectIndices.Nodup) (ht : trackIndices.Nodup) :
    (res.matched.map Prod.fst).Nodup := by
  refine List.Nodup.map_on ?_ (List.Nodup.of_map _ (h.nodup_tracks ht))
  rintro ⟨d, t⟩ hm ⟨d', t'⟩ hm' he
  obtain rfl : d = d' := he
  obtain ⟨i, j, ha, hdj, hti⟩ := (h.mem d t).mp hm
  obtain ⟨i', j', ha', hdj', hti'⟩ := (h.mem d t').mp hm'
  obtain ⟨hlt, hg⟩ := List.getElem?_eq_some_iff.mp hdj
  obtain ⟨hlt', hg'⟩ := List.getElem?_eq_some_iff.mp hdj'
  obtain rfl : j = j' := hd.getElem_inj_iff.mp (hg.trans hg'.symm)
  obtain rfl := ha.row_unique hv ha'
  rw [hti] at hti'
  rw [Option.some.inj hti']

/-- Every detection is matched or remains, once. -/
theorem detections (h : ArrangeSpec cost maxDistance detectIndices trackIndices as res)
    (hv : ValidAssignment r c as) (hd : detectIndices.Nodup) (ht : trackIndices.Nodup) :
    (res.matched.map Prod.fst ++ res.unmatchedDetections).Perm detectIndices := by
  rw [h.remained]
  have hsub : res.matched.map Prod.fst ⊆ detectIndices := by
    intro d hmem
    obtain ⟨⟨d', t⟩, hm, rfl⟩ := List.mem_map.mp hmem
    obtain ⟨i, j, -, hdj, -⟩ := (h.mem d' t).mp hm
    exact List.mem_of_getElem? hdj
  exact List.subperm_append_diff_self_of_count_le fun x _ =>
    ((h.nodup_detections hv hd ht).subperm hsub).count_le x

end ArrangeSpec

/-! ## A matching -/

/--
The result pairs tracks and detections of two lists: every detection and every track is matched or
left, once. `Fit` holds of the pairs.
-/
structure Matching (Fit : Nat → Nat → Prop) (detectIndices trackIndices : List Nat)
    (res : MatchResult) : Prop where
  detections : (res.matched.map Prod.fst ++ res.unmatchedDetections).Perm detectIndices
  tracks : (res.matched.map Prod.snd ++ res.unmatchedTracks).Perm trackIndices
  fit : ∀ d t, (d, t) ∈ res.matched → Fit d t

/-- With a row for each track `arrange` returns a matching. -/
theorem arrange_matching {as : List Int} {res : MatchResult} {r c : Nat}
    (h : arrange cost maxDistance detectIndices trackIndices as = .ok res)
    (hv : ValidAssignment r c as) (hr : r = trackIndices.length) (hd : detectIndices.Nodup)
    (ht : trackIndices.Nodup) : Matching (fun d t => ∃ i j, (∃ c, cost.read i j = .ok c ∧
      c ≤ maxDistance) ∧ detectIndices[j]? = some d ∧ trackIndices[i]? = some t)
      detectIndices trackIndices res := by
  have hs := arrange_spec h
  refine ⟨hs.detections hv hd ht, ?_, fun d t hm => ?_⟩
  · have := hs.tracks
    rwa [hv.length, hr, List.take_length] at this
  · obtain ⟨i, j, ⟨-, hc⟩, hdj, hti⟩ := (hs.mem d t).mp hm
    exact ⟨i, j, hc, hdj, hti⟩

namespace Matching

variable {Fit Fit' : Nat → Nat → Prop} {res res' : MatchResult} {trackIndices' : List Nat}

theorem nothing (detectIndices : List Nat) : Matching Fit detectIndices []
    { matched := [], unmatchedTracks := [], unmatchedDetections := detectIndices } :=
  ⟨by simp, by simp, by simp⟩

theorem imp (h : Matching Fit detectIndices trackIndices res) (hf : ∀ d t, Fit d t → Fit' d t) :
    Matching Fit' detectIndices trackIndices res :=
  ⟨h.detections, h.tracks, fun d t hm => hf d t (h.fit d t hm)⟩

/-- The detections one matching leaves are matched by another. -/
theorem detections_append (h : Matching Fit detectIndices trackIndices res)
    (h' : Matching Fit' res.unmatchedDetections trackIndices' res') :
    ((res.matched ++ res'.matched).map Prod.fst ++ res'.unmatchedDetections).Perm detectIndices := by
  rw [List.map_append, List.append_assoc]
  exact (h'.detections.append_left _).trans h.detections

theorem tracks_append (h : Matching Fit detectIndices trackIndices res)
    (h' : Matching Fit' res.unmatchedDetections trackIndices' res') :
    ((res.matched ++ res'.matched).map Prod.snd ++ (res.unmatchedTracks ++ res'.unmatchedTracks)).Perm
      (trackIndices ++ trackIndices') := by
  rw [List.map_append, List.append_assoc]
  have hswap : (res'.matched.map Prod.snd ++ (res.unmatchedTracks ++ res'.unmatchedTracks)).Perm
      (res.unmatchedTracks ++ (res'.matched.map Prod.snd ++ res'.unmatchedTracks)) :=
    List.perm_append_comm_assoc _ _ _
  refine (hswap.append_left _).trans ?_
  rw [← List.append_assoc]
  exact h.tracks.append h'.tracks

end Matching

/-! ## Nothing is read out of range -/

theorem arrangeFrom_ok {as : List Int} : ∀ {i : Nat} {res : MatchResult},
    (∀ k, k < as.length → i + k < trackIndices.length) →
    (∀ k a, as[k]? = some a → 0 ≤ a →
      a.toNat < detectIndices.length ∧ ∃ c, cost.read (i + k) a.toNat = .ok c) →
    ∃ res', arrangeFrom cost maxDistance detectIndices trackIndices i as res = .ok res' := by
  induction as with
  | nil => exact fun _ _ => ⟨_, rfl⟩
  | cons a as ih =>
    intro i res hrows hcols
    have hshift : ∀ k, i + 1 + k = i + (k + 1) := fun k => by omega
    have ih' : ∀ res, ∃ res', arrangeFrom cost maxDistance detectIndices trackIndices (i + 1) as res
        = .ok res' := fun _ => ih
      (fun k hk => by rw [hshift]; exact hrows (k + 1) (by simpa using hk))
      (fun k b hb => by rw [hshift]; exact hcols (k + 1) b (by simpa using hb))
    have hlt : i < trackIndices.length := hrows 0 (by simp)
    have ht : readAt Fault.outOfRange trackIndices i = .ok trackIndices[i] := readAt_of_lt hlt
    have hr : ∃ r, rejected cost maxDistance i a = .ok r ∧ (r = false → 0 ≤ a) := by
      unfold rejected
      split
      · exact ⟨true, rfl, by simp⟩
      · next hnn =>
        obtain ⟨-, c, hc⟩ := hcols 0 a rfl (by omega)
        exact ⟨_, bind_eq_ok.mpr ⟨c, hc, rfl⟩, fun _ => by omega⟩
    obtain ⟨r, hr, hnn⟩ := hr
    cases r with
    | true =>
      obtain ⟨res', h⟩ := ih' _
      exact ⟨res', bind_eq_ok.mpr ⟨_, ht, bind_eq_ok.mpr ⟨true, hr, h⟩⟩⟩
    | false =>
      have hd := readAt_of_lt (e := Fault.outOfRange) (hcols 0 a rfl (hnn rfl)).1
      obtain ⟨res', h⟩ := ih' _
      exact ⟨res', bind_eq_ok.mpr ⟨_, ht, bind_eq_ok.mpr ⟨false, hr,
        bind_eq_ok.mpr ⟨_, hd, h⟩⟩⟩⟩

/-- With a row for each track and a column for each detection the loop succeeds. -/
theorem arrange_ok {as : List Int} (hv : ValidAssignment cost.rows cost.cols as)
    (hrows : cost.rows = trackIndices.length) (hcols : cost.cols = detectIndices.length) :
    ∃ res, arrange cost maxDistance detectIndices trackIndices as = .ok res := by
  refine arrangeFrom_ok (fun k hk => ?_) (fun k a ha hnn => ?_)
  · rw [hv.length] at hk
    omega
  · obtain ⟨hk, hget⟩ := List.getElem?_eq_some_iff.mp ha
    have hlt : a < cost.cols := by
      rcases hv.range a (List.mem_of_getElem? ha) with h | h <;> omega
    rw [hv.length] at hk
    exact ⟨by omega, _, CostMatrix.read_eq_ok.mpr ⟨by omega, by omega, rfl⟩⟩

/-! ## Cached norms -/

section Cache

variable [Field K] {sqrt : K → K}

theorem Feature.cache_cache (f : Feature K) : (f.cache sqrt).cache sqrt = f.cache sqrt := by
  unfold Feature.cache
  by_cases h : f.mold < 0
  · simp only [if_pos h, ite_self]
  · simp only [if_neg h]

theorem maxSimilarity_cache (det : Feature K) (feats : List (Feature K)) (m : K) :
    maxSimilarity sqrt det m (feats.map (Feature.cache sqrt)) =
      ((maxSimilarity sqrt det m feats).1, feats.map (Feature.cache sqrt)) ∧
    (maxSimilarity sqrt det m feats).2.map (Feature.cache sqrt) =
      feats.map (Feature.cache sqrt) := by
  induction feats generalizing m with
  | nil => exact ⟨rfl, rfl⟩
  | cons f feats ih =>
    rw [List.map_cons, maxSimilarity, maxSimilarity, f.cache_cache]
    cases innerProduct (f.cache sqrt).vec det.vec with
    | error e => exact ⟨rfl, by simp only [List.map_cons, f.cache_cache]⟩
    | ok xy =>
      obtain ⟨hr, hf⟩ := ih (max (if det.mold = 0 ∨ (f.cache sqrt).mold = 0 then -1
        else xy / (det.mold * (f.cache sqrt).mold)) m)
      exact ⟨by simp only [hr], by simp only [List.map_cons, f.cache_cache, hf]⟩

theorem cosineDistance_cache (det : Feature K) (feats : List (Feature K)) :
    (cosineDistance sqrt (feats.map (Feature.cache sqrt)) det).1 =
      (cosineDistance sqrt feats det).1 := by
  simp only [cosineDistance, (maxSimilarity_cache _ feats 0).1]

theorem cosineDistance_feats (det : Feature K) (feats : List (Feature K)) :
    (cosineDistance sqrt feats det).2.map (Feature.cache sqrt) =
      feats.map (Feature.cache sqrt) := by
  simp only [cosineDistance, (maxSimilarity_cache _ feats 0).2]

theorem cosineDistance_cache_det (det : Feature K) (feats : List (Feature K)) :
    cosineDistance sqrt feats (det.cache sqrt) = cosineDistance sqrt feats det := by
  simp only [cosineDistance, det.cache_cache]

end Cache

end CambriconGst.Easytrack
