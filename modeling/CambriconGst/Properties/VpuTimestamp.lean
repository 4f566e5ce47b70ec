import CambriconGst.Easycodec.VpuTimestamp

/-!
# Properties of the timestamp map

Every run makes a list of operations on a map keyed by a wrapping counter; what is known of such
lists is then known of the timestamps.

* `run_performs`: a run leaves the map that its operations make, under the counter's keys
* `timestamp_kept`: the first `GetVpuTimestamp` of a key has the packet's pts, later ones fail, and
  a `FeedVideoData` that throws leaves the map to the others
-/

namespace CambriconGst.VpuTimestamp

open Lib Lib.KeyedRecords Easycodec

variable {s t : DecodeHandler} {l : Label} {ls : List Label}

/-- The second map is what the operations make of the first, and their keys are the counter's. -/
structure Performs (s t : VpuTimestamps) (ops : List (Op 32 (BitVec 64))) : Prop where
  vpuPtsMap : t.vpuPtsMap = after s.vpuPtsMap ops
  ptsKey : t.ptsKey = s.ptsKey + BitVec.ofNat 32 (issues ops)
  numbered : ∀ n, s.ptsKey = BitVec.ofNat 32 n → NumberedFrom n ops

namespace Performs

variable {a b c : VpuTimestamps} {xs ys : List (Op 32 (BitVec 64))}

theorem refl (a : VpuTimestamps) : Performs a a [] where
  vpuPtsMap := rfl
  ptsKey := by simp [issues]
  numbered := fun _ _ => trivial

theorem trans (h₁ : Performs a b xs) (h₂ : Performs b c ys) : Performs a c (xs ++ ys) where
  vpuPtsMap := by rw [h₂.vpuPtsMap, h₁.vpuPtsMap, after_append]
  ptsKey := by rw [h₂.ptsKey, h₁.ptsKey, issues_append, BitVec.ofNat_add, BitVec.add_assoc]
  numbered := by
    intro n hn
    refine numberedFrom_append.mpr ⟨h₁.numbered n hn, h₂.numbered _ ?_⟩
    rw [h₁.ptsKey, hn, BitVec.ofNat_add]

end Performs

theorem setVpuTimestamp_performs (s : VpuTimestamps) (pts : BitVec 64) :
    Performs s (s.setVpuTimestamp pts).2 [.issue s.ptsKey pts] where
  vpuPtsMap := rfl
  ptsKey := rfl
  numbered := fun _ hn => ⟨hn, trivial⟩

/-- A failed `GetVpuTimestamp` erases nothing, which is what taking an absent record does. -/
theorem getVpuTimestamp_performs (s : VpuTimestamps) (key : BitVec 32) (out : Bool) :
    Performs s (s.getVpuTimestamp key out).2 [.take key] where
  vpuPtsMap := by
    unfold VpuTimestamps.getVpuTimestamp
    cases hkey : s.vpuPtsMap key with
    | some pts => rfl
    | none => exact (Function.update_eq_self_iff.mpr hkey.symm).symm
  ptsKey := by
    unfold VpuTimestamps.getVpuTimestamp
    cases s.vpuPtsMap key <;> simp [issues]
  numbered := fun _ _ => trivial

theorem getVpuTimestamp_of_some {s : VpuTimestamps} {key : BitVec 32} {pts : BitVec 64}
    (h : s.vpuPtsMap key = some pts) (out : Bool) :
    s.getVpuTimestamp key out = (if out then some pts else none,
      { s with vpuPtsMap := Function.update s.vpuPtsMap key none }) := by
  unfold VpuTimestamps.getVpuTimestamp
  rw [h]

theorem getVpuTimestamp_of_none {s : VpuTimestamps} {key : BitVec 32}
    (h : s.vpuPtsMap key = none) (out : Bool) : s.getVpuTimestamp key out = (none, s) := by
  unfold VpuTimestamps.getVpuTimestamp
  rw [h]

/-! ## Steps -/

theorem next_feedVideoData {thread : Nat} {pts : BitVec 64}
    (h : next s (.feedVideoData thread pts) = some t) :
    s.feeding thread = none ∧ t.stamps = (s.stamps.setVpuTimestamp pts).2 ∧
      t.feeding = Function.update s.feeding thread
        (some { pts := (s.stamps.setVpuTimestamp pts).1, retryTime := 2 }) := by
  cases hf : s.feeding thread with
  | some c => simp [next, hf] at h
  | none =>
    simp only [next, hf, Option.some.injEq] at h
    subst h
    exact ⟨rfl, rfl, rfl⟩

/-- The three ends of a pass, and what each does to the map and to the thread. -/
theorem next_feedReturns {thread : Nat} {ecode : Ecode}
    (h : next s (.feedReturns thread ecode) = some t) : ∃ c, s.feeding thread = some c ∧
      ((∃ r, c.pass ecode = .again r ∧ t.stamps = s.stamps ∧
          t.feeding = Function.update s.feeding thread (some { c with retryTime := r })) ∨
        (c.pass ecode = .returned ∧ t.stamps = s.stamps ∧
          t.feeding = Function.update s.feeding thread none) ∨
        ∃ e, c.pass ecode = .threw e ∧ t.stamps = (s.stamps.getVpuTimestamp c.pts false).2 ∧
          t.feeding = Function.update s.feeding thread none) := by
  cases hf : s.feeding thread with
  | none => simp [next, hf] at h
  | some c =>
    refine ⟨c, rfl, ?_⟩
    cases hp : c.pass ecode with
    | again r =>
      simp only [next, hf, hp, Option.some.injEq] at h
      subst h
      exact .inl ⟨r, rfl, rfl, rfl⟩
    | returned =>
      simp only [next, hf, hp, Option.some.injEq] at h
      subst h
      exact .inr (.inl ⟨rfl, rfl, rfl⟩)
    | threw e =>
      simp only [next, hf, hp, Option.some.injEq] at h
      subst h
      exact .inr (.inr ⟨e, rfl, rfl, rfl⟩)

theorem next_performs (h : next s l = some t) : Performs s.stamps t.stamps (opsOf s l) := by
  cases l with
  | feedVideoData thread pts =>
    rw [(next_feedVideoData h).2.1]
    exact setVpuTimestamp_performs s.stamps pts
  | feedReturns thread ecode =>
    obtain ⟨c, hc, ⟨r, hp, hs, -⟩ | ⟨hp, hs, -⟩ | ⟨e, hp, hs, -⟩⟩ := next_feedReturns h
    · simp only [opsOf, hc, hp, hs]
      exact .refl _
    · simp only [opsOf, hc, hp, hs]
      exact .refl _
    · simp only [opsOf, hc, hp, hs]
      exact getVpuTimestamp_performs s.stamps c.pts false
  | getVpuTimestamp key out =>
    cases h
    exact getVpuTimestamp_performs s.stamps key out

/-! ## Runs -/

theorem ops_cons (h : next s l = some t) : ops s (l :: ls) = opsOf s l ++ ops t ls := by
  rw [ops, h]
  rfl

theorem ops_append {ms : List Label} (h : System.run next s ls = some t) :
    ops s (ls ++ ms) = ops s ls ++ ops t ms := by
  induction ls generalizing s with
  | nil =>
    cases h
    rfl
  | cons l ls ih =>
    obtain ⟨u, hu, hr⟩ := System.run_cons.mp h
    rw [List.cons_append, ops_cons hu, ops_cons hu, ih hr, List.append_assoc]

/-- **A run leaves the map its operations make.** -/
theorem run_performs (h : System.run next s ls = some t) :
    Performs s.stamps t.stamps (ops s ls) := by
  induction ls generalizing s with
  | nil =>
    cases h
    exact .refl _
  | cons l ls ih =>
    obtain ⟨u, hu, hr⟩ := System.run_cons.mp h
    rw [ops_cons hu]
    exact (next_performs hu).trans (ih hr)

/-- A call keeps its key until it ends. -/
theorem run_keeps_key {thread : Nat} {key : BitVec 32} {c : FeedCall}
    (h : System.run next s ls = some t) (hls : ∀ pts, .feedVideoData thread pts ∉ ls)
    (hs : ∀ c, s.feeding thread = some c → c.pts = key) (ht : t.feeding thread = some c) :
    c.pts = key := by
  induction ls generalizing s with
  | nil =>
    cases h
    exact hs c ht
  | cons l ls ih =>
    obtain ⟨u, hu, hr⟩ := System.run_cons.mp h
    refine ih hr (fun pts hp => hls pts (List.mem_cons_of_mem _ hp)) fun c' hc' => ?_
    cases l with
    | feedVideoData k pts =>
      have hk : thread ≠ k := fun he => hls pts (by rw [he]; exact List.mem_cons_self)
      rw [(next_feedVideoData hu).2.2, Function.update_of_ne hk] at hc'
      exact hs c' hc'
    | feedReturns k ecode =>
      obtain ⟨b, hb, hcase⟩ := next_feedReturns hu
      by_cases hk : thread = k
      · subst hk
        rcases hcase with ⟨r, -, -, hf⟩ | ⟨-, -, hf⟩ | ⟨e, -, -, hf⟩
        · rw [hf, Function.update_self] at hc'
          cases hc'
          exact hs b hb
        · rw [hf, Function.update_self] at hc'
          cases hc'
        · rw [hf, Function.update_self] at hc'
          cases hc'
      · rcases hcase with ⟨r, -, -, hf⟩ | ⟨-, -, hf⟩ | ⟨e, -, -, hf⟩ <;>
          exact hs c' (by rwa [hf, Function.update_of_ne hk] at hc')
    | getVpuTimestamp key out =>
      cases hu
      exact hs c' hc'

variable {pre mid : List Label} {thread : Nat} {pts : BitVec 64} {s₀ s₁ s₂ : DecodeHandler}

/-- A throwing call ends by taking its own key. -/
theorem throws_take {ecode : Ecode} (hset : next s₀ (.feedVideoData thread pts) = some s₁)
    (hmid : System.run next s₁ mid = some s₂) (hown : ∀ p, .feedVideoData thread p ∉ mid)
    (hthrows : Throws s₂ thread ecode) : ∃ s₃, next s₂ (.feedReturns thread ecode) = some s₃ ∧
      opsOf s₂ (.feedReturns thread ecode) = [.take s₀.stamps.ptsKey] := by
  obtain ⟨c, e, hc, hp⟩ := hthrows
  have hkey : c.pts = s₀.stamps.ptsKey := by
    refine run_keeps_key hmid hown (fun c' hc' => ?_) hc
    rw [(next_feedVideoData hset).2.2, Function.update_self] at hc'
    cases hc'
    rfl
  refine ⟨{ stamps := (s₂.stamps.getVpuTimestamp c.pts false).2
            feeding := Function.update s₂.feeding thread none }, ?_, ?_⟩
  · simp only [next, hc, hp]
  · simp only [opsOf, hc, hp, hkey]

/--
**A packet's timestamp is kept for its frame.**

The run `pre` ends where a thread enters `FeedVideoData`; its `SetVpuTimestamp` gives a key. After
the steps `mid` of any threads:

* while the key is not taken and fewer than `2 ^ 32` keys are issued, `GetVpuTimestamp` of the key
  finds the packet's pts and removes the record, and it fails from then on until a later
  `SetVpuTimestamp` gives the key
* if the call throws then, and no record waits for `2 ^ 32` keys, there was no record under its
  key before it and there is none after it, and every other key is as the other calls leave it;
  with fewer than `2 ^ 32` keys issued during the call, the whole map is
-/
theorem timestamp_kept (hpre : System.run next initial pre = some s₀)
    (hset : next s₀ (.feedVideoData thread pts) = some s₁)
    (hmid : System.run next s₁ mid = some s₂) :
    ((∀ op ∈ ops s₁ mid, op ≠ .take s₀.stamps.ptsKey) → issues (ops s₁ mid) < 2 ^ 32 →
      ∀ out, s₂.stamps.getVpuTimestamp s₀.stamps.ptsKey out = (if out then some pts else none,
          { s₂.stamps with
            vpuPtsMap := Function.update s₂.stamps.vpuPtsMap s₀.stamps.ptsKey none }) ∧
        ∀ s₃ later s₄, next s₂ (.getVpuTimestamp s₀.stamps.ptsKey out) = some s₃ →
          System.run next s₃ later = some s₄ →
          (∀ p, .issue s₀.stamps.ptsKey p ∉ ops s₃ later) →
          ∀ out', s₄.stamps.getVpuTimestamp s₀.stamps.ptsKey out' = (none, s₄.stamps)) ∧
    ∀ ecode, (∀ p, .feedVideoData thread p ∉ mid) → Throws s₂ thread ecode →
      Timely (ops initial
        (pre ++ .feedVideoData thread pts :: (mid ++ [.feedReturns thread ecode]))) →
      ∃ s₃, next s₂ (.feedReturns thread ecode) = some s₃ ∧
        s₀.stamps.vpuPtsMap s₀.stamps.ptsKey = none ∧
        s₃.stamps.vpuPtsMap s₀.stamps.ptsKey = none ∧
        (∀ key, key ≠ s₀.stamps.ptsKey →
          s₃.stamps.vpuPtsMap key = after s₀.stamps.vpuPtsMap (ops s₁ mid) key) ∧
        (issues (ops s₁ mid) < 2 ^ 32 →
          s₃.stamps.vpuPtsMap = after s₀.stamps.vpuPtsMap (ops s₁ mid)) := by
  have hp₀ := run_performs hpre
  have hp₁ : Performs s₀.stamps s₁.stamps [.issue s₀.stamps.ptsKey pts] := next_performs hset
  have hp₂ := run_performs hmid
  have hnum : NumberedFrom 0 (ops initial pre ++ .issue s₀.stamps.ptsKey pts :: ops s₁ mid) :=
    (hp₀.trans (hp₁.trans hp₂)).numbered 0 rfl
  refine ⟨fun htake hlt out => ?_, fun ecode hown hthrows htimely => ?_⟩
  -- the feed is accepted: the record stays until the first take of its key
  · have hrec : s₂.stamps.vpuPtsMap s₀.stamps.ptsKey = some pts := by
      rw [(hp₁.trans hp₂).vpuPtsMap]
      exact records_of_first_take (numberedFrom_append.mp hnum).2 hlt htake
    refine ⟨getVpuTimestamp_of_some hrec out, fun s₃ later s₄ hget hlater hissue out' => ?_⟩
    refine getVpuTimestamp_of_none ?_ out'
    rw [(run_performs hlater).vpuPtsMap]
    -- once taken, it is not there again before the key is issued again
    refine after_eq_none ?_ hissue
    cases hget
    rw [getVpuTimestamp_of_some hrec]
    exact Function.update_self _ _ _
  -- the feed throws: its own record is taken back, and no other
  · obtain ⟨s₃, hs₃, hop⟩ := throws_take hset hmid hown hthrows
    have hp₃ : Performs s₂.stamps s₃.stamps [.take s₀.stamps.ptsKey] := hop ▸ next_performs hs₃
    have hops : ops initial
        (pre ++ .feedVideoData thread pts :: (mid ++ [.feedReturns thread ecode])) =
        ops initial pre ++ .issue s₀.stamps.ptsKey pts ::
          (ops s₁ mid ++ [.take s₀.stamps.ptsKey]) := by
      rw [ops_append hpre, ops_cons hset, ops_append hmid, ops_cons hs₃, hop]
      rfl
    have hall := (hp₀.trans (hp₁.trans (hp₂.trans hp₃)))
    have hmap₀ : s₀.stamps.vpuPtsMap = after (fun _ => none) (ops initial pre) := hp₀.vpuPtsMap
    rw [hops] at htimely
    refine ⟨s₃, hs₃, ?_, ?_, fun key hkey => ?_, fun hlt => ?_⟩
    · rw [hmap₀]
      exact htimely.fresh (hall.numbered 0 rfl)
    · rw [hp₃.vpuPtsMap]
      exact Function.update_self _ _ _
    · rw [(hp₁.trans (hp₂.trans hp₃)).vpuPtsMap]
      exact after_issue_take_of_ne hkey
    · rw [hall.vpuPtsMap, hmap₀]
      exact htimely.issue_take (hall.numbered 0 rfl) hlt

theorem timestamp_kept_sample :
    (∃ s, System.run next initial [.feedVideoData 0 7, .feedReturns 0 .timeout] = some s ∧
      (s.stamps.getVpuTimestamp 0 true).1 = some 7) ∧
    ∃ s, System.run next initial
        [.feedVideoData 0 7, .feedReturns 0 .timeout, .feedReturns 0 (.error 3)] = some s ∧
      s.stamps.vpuPtsMap = fun _ => none := by
  obtain ⟨hget, hthrow⟩ :=
    @timestamp_kept [] [.feedReturns 0 .timeout] 0 7 initial _ _ rfl rfl rfl
  constructor
  · refine ⟨_, rfl, ?_⟩
    exact congrArg Prod.fst (hget (fun op hop => absurd hop List.not_mem_nil) (by decide) true).1
  · obtain ⟨s, hs, -, -, -, hmap⟩ := hthrow (.error 3) (by simp) ⟨_, _, rfl, rfl⟩
      (timely_of_issues_lt (by decide))
    exact ⟨s, hs, hmap (by decide)⟩

end CambriconGst.VpuTimestamp
