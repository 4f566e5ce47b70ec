import CambriconGst.Gst.Cnconvert
import CambriconGst.Lib.System

/-!
# The converter's memories

Set-caps takes a memory that it freed for one it could not free: it gives up, and keeps the pointer.

* `Cnconvert.temporaries_kept`: who owns the memories, in runs in which no accepted caps find a
  temporary memory
* `Cnconvert.caps_free_twice`: what becomes of a temporary memory otherwise
-/

namespace CambriconGst.Gst.Cnconvert

open Lib

variable {s t : Cnconvert} {l : Label} {c : Conversion} {e : CapsEvent}

/-- The memories that the element and the frames own. -/
def owned (s : Cnconvert) : List Nat :=
  s.mluDstMem.toList ++ s.tmpMem.toList ++ (s.cncvWorkspace.map Workspace.mem).toList ++
    s.frames.flatten

/-- The pointer is null, or to a live memory that no frame owns. -/
def Private (s : Cnconvert) (p : Option Nat) : Prop :=
  ∀ m, p = some m → m ∈ s.memories.live ∧ ∀ f ∈ s.frames, m ∉ f

structure MemoriesKept (s : Cnconvert) : Prop where
  mluDstMem : s.Private s.mluDstMem
  tmpMem : s.Private s.tmpMem
  cncvWorkspace : s.Private (s.cncvWorkspace.map Workspace.mem)
  freedOnce : s.memories.freedDead = false

/-- The step is not a caps event that fails with acceptable caps. -/
def CapsSucceed (l : Label) (t : Cnconvert) : Prop :=
  ∀ e, l = .caps e → e.Acceptable → t.conversion.isSome = true

/-- The condition on a step: acceptable caps come when there is no temporary memory. -/
def FindsNoTmp (s : Cnconvert) : Label → Prop
  | .caps e => e.Acceptable → s.tmpMem = none
  | _ => True

/-- Every memory that the element or a frame points to is live, and has one owner. -/
def Owned (s : Cnconvert) : Prop :=
  s.memories.Owns s.owned

namespace Owned

theorem initial : Owned initial :=
  .empty

/-! ## Preparing the memories -/

theorem prepareWorkspace (h : Owned s) (size : Nat) : Owned (s.prepareWorkspace size) := by
  unfold Cnconvert.prepareWorkspace
  cases hw : s.cncvWorkspace with
  | none =>
    refine Arena.Owns.perm (Arena.Owns.alloc h) (List.perm_iff_count.mpr fun m => ?_)
    simp only [owned, hw, Option.map_none, Option.map_some, Option.toList_none,
      Option.toList_some, List.count_cons, List.count_append, List.count_nil]
    omega
  | some w =>
    by_cases hsize : w.size < size
    · have hfree : (s.memories.free w.mem).Owns
          (s.mluDstMem.toList ++ s.tmpMem.toList ++ s.frames.flatten) := by
        refine Arena.Owns.free (Arena.Owns.perm h (List.perm_iff_count.mpr fun m => ?_))
        simp only [owned, hw, Option.map_some, Option.toList_some, List.count_cons,
          List.count_append, List.count_nil]
        omega
      simp only [if_pos hsize]
      refine Arena.Owns.perm hfree.alloc (List.perm_iff_count.mpr fun m => ?_)
      simp only [owned, Option.map_some, Option.toList_some, List.count_cons,
        List.count_append, List.count_nil]
      omega
    · simp only [if_neg hsize]
      exact h

theorem prepareDst (h : Owned s) : Owned s.prepareDst := by
  unfold Cnconvert.prepareDst
  cases hd : s.mluDstMem with
  | none =>
    refine Arena.Owns.perm (Arena.Owns.alloc h) (List.perm_iff_count.mpr fun m => ?_)
    simp only [owned, hd, Option.toList_none, Option.toList_some, List.count_cons,
      List.count_append, List.count_nil]
    omega
  | some d => exact h

theorem prepareTmp (h : Owned s) : Owned s.prepareTmp := by
  unfold Cnconvert.prepareTmp
  cases hd : s.tmpMem with
  | none =>
    refine Arena.Owns.perm (Arena.Owns.alloc h) (List.perm_iff_count.mpr fun m => ?_)
    simp only [owned, hd, Option.toList_none, Option.toList_some, List.count_cons,
      List.count_append, List.count_nil]
    omega
  | some d => exact h

theorem process (h : Owned s) (size : Nat) (p : Conversion.Path) : Owned (s.process size p) := by
  cases p with
  | resizeRgb | cvtRgb | resizeConvert => exact (h.prepareWorkspace _).prepareDst
  | resizeThenCvt => exact (((h.prepareWorkspace _).prepareTmp).prepareWorkspace _).prepareDst

/-! ## Frames -/

/-- What a frame is to own, while it is being made. -/
theorem receive {n : Nat} {frame : List Nat} (h : s.memories.Owns (frame ++ s.owned)) :
    Owned (s.receive n frame) := by
  induction n generalizing s frame with
  | zero =>
    refine h.perm (List.perm_iff_count.mpr fun m => ?_)
    simp only [owned, Cnconvert.receive, List.flatten_cons, List.count_append]
    omega
  | succ n ih => exact ih h.alloc

theorem unref (h : Owned s) {i : Nat} (hi : i < s.frames.length) : Owned (s.unref i) := by
  have hperm : (s.frames[i] ++ (s.frames.eraseIdx i).flatten).Perm s.frames.flatten := by
    rw [← List.flatten_cons]
    exact (List.getElem_cons_eraseIdx_perm hi).flatten
  unfold Cnconvert.unref
  rw [List.getElem?_eq_getElem hi, Option.getD_some]
  refine Arena.Owns.freeAll (Arena.Owns.perm h (List.perm_iff_count.mpr fun m => ?_))
  have hm := hperm.count_eq m
  simp only [owned, List.count_append] at hm ⊢
  omega

theorem updateMeta (h : Owned s) (hf : s.frames ≠ []) (shared : Bool) :
    Owned (s.updateMeta shared) := by
  have hmove : ∀ {u : Cnconvert}, Owned u →
      Owned { u with frames := u.mluDstMem.toList :: u.frames, mluDstMem := none } := by
    intro u hu
    refine Arena.Owns.perm hu (List.perm_iff_count.mpr fun m => ?_)
    simp only [owned, List.flatten_cons, Option.toList_none, List.count_append, List.count_nil]
    omega
  unfold Cnconvert.updateMeta
  cases shared with
  | true => exact hmove h
  | false => exact hmove (h.unref (List.length_pos_iff.mpr hf))

theorem push (h : Owned s) (hf : s.frames ≠ []) (shared : Bool) : Owned (s.push c shared) := by
  unfold Cnconvert.push
  split
  · exact h
  · exact h.unref (List.length_pos_iff.mpr hf)

end Owned

@[simp]
theorem prepareWorkspace_frames (s : Cnconvert) (size : Nat) :
    (s.prepareWorkspace size).frames = s.frames := by
  unfold prepareWorkspace
  repeat' split
  all_goals rfl

@[simp]
theorem prepareDst_frames (s : Cnconvert) : s.prepareDst.frames = s.frames := by
  unfold prepareDst
  split <;> rfl

@[simp]
theorem prepareTmp_frames (s : Cnconvert) : s.prepareTmp.frames = s.frames := by
  unfold prepareTmp
  split <;> rfl

theorem process_frames (s : Cnconvert) (size : Nat) (p : Conversion.Path) :
    (s.process size p).frames = s.frames := by
  cases p <;> simp [process]

theorem receive_frames (s : Cnconvert) (n : Nat) (frame : List Nat) :
    (s.receive n frame).frames ≠ [] := by
  induction n generalizing s frame with
  | zero => exact List.cons_ne_nil _ _
  | succ n ih => exact ih _ _

theorem receive_mluDstMem (s : Cnconvert) (n : Nat) (frame : List Nat) :
    (s.receive n frame).mluDstMem = s.mluDstMem := by
  induction n generalizing s frame with
  | zero => rfl
  | succ n ih => exact ih _ _

theorem push_mluDstMem (s : Cnconvert) (shared : Bool) :
    (s.push c shared).mluDstMem = s.mluDstMem := by
  unfold push
  split <;> rfl

/-! ## Setting caps -/

theorem setcaps_of_not_acceptable (s : Cnconvert) (h : ¬e.Acceptable) :
    s.setcaps e = { s with conversion := none } := by
  unfold setcaps
  cases hc : e.conversion with
  | none => rfl
  | some c =>
    simp only
    split_ifs with hsink hsrc hp hs
    · rfl
    · rfl
    · exact absurd ⟨Bool.of_not_eq_false hp, c, hc, hsink, hsrc, Bool.of_not_eq_false hs⟩ h
    · rfl
    · rfl

/-- Acceptable caps get as far as the memories. -/
theorem setcaps_of_acceptable (s : Cnconvert) (h : e.Acceptable) :
    ∃ c, s.setcaps e = { s with conversion := none }.freeMemories c := by
  obtain ⟨hp, c, hc, hsink, hsrc, hs⟩ := h
  refine ⟨c, ?_⟩
  unfold setcaps
  simp [hc, hsink, hsrc, hp, hs]

theorem freeMemories_of_none (hd : s.mluDstMem = none) (ht : s.tmpMem = none) :
    s.freeMemories c = { s with conversion := some c } := by
  unfold freeMemories
  rw [hd, ht]

/-! ## Runs -/

/-- What is known between steps that meet the condition. -/
structure Kept (s : Cnconvert) : Prop where
  owned : Owned s
  /-- The output memory is given to a frame before `chain` returns. -/
  mluDstMem : s.mluDstMem = none

namespace Kept

theorem initial : Kept initial where
  owned := .initial
  mluDstMem := rfl

theorem setcaps (h : Kept s) (hc : e.Acceptable → s.tmpMem = none) : Kept (s.setcaps e) := by
  by_cases he : e.Acceptable
  · obtain ⟨c, hs⟩ := setcaps_of_acceptable s he
    rw [hs, freeMemories_of_none (s := { s with conversion := none }) h.mluDstMem (hc he)]
    exact ⟨h.owned, h.mluDstMem⟩
  · rw [setcaps_of_not_acceptable s he]
    exact ⟨h.owned, h.mluDstMem⟩

theorem receive (h : Kept s) (n : Nat) : Kept (s.receive n []) where
  owned := .receive h.owned
  mluDstMem := (receive_mluDstMem s n []).trans h.mluDstMem

theorem push (h : Kept s) (hf : s.frames ≠ []) (shared : Bool) : Kept (s.push c shared) where
  owned := h.owned.push hf shared
  mluDstMem := (push_mluDstMem s shared).trans h.mluDstMem

theorem chain (h : Kept s) (b : Buffer) : Kept (s.chain c b) := by
  unfold Cnconvert.chain
  have hframe := h.receive c.sinkInfo.format.planes
  have hne := receive_frames s c.sinkInfo.format.planes []
  by_cases hpass : (c.disableResize ∧ c.disableConvert) ∧ c.outputOnMlu = c.inputOnMlu
  · rw [if_pos hpass]
    cases c.inputOnMlu with
    | true => exact hframe
    | false => exact h
  rw [if_neg hpass]
  by_cases hi : c.inputOnMlu = false ∧ c.sinkInfo.format = .i420
  · rw [if_pos hi]
    exact h.receive 0
  rw [if_neg hi]
  by_cases hkeeps : c.disableResize ∧ c.disableConvert
  · rw [if_pos hkeeps]
    exact hframe.push hne _
  rw [if_neg hkeeps]
  cases c.path with
  | none => exact hframe
  | some p =>
    have hp := hframe.owned.process b.workspaceSize p
    have hpne := (process_frames (s.receive c.sinkInfo.format.planes []) b.workspaceSize p) ▸ hne
    exact push ⟨hp.updateMeta hpne _, rfl⟩ (List.cons_ne_nil _ _) false

/-- What a step that meets the condition keeps. -/
theorem next (h : Kept s) (hn : s.next l = some t) (hc : s.FindsNoTmp l) : Kept t := by
  cases l with
  | caps e =>
    cases hn
    exact h.setcaps hc
  | chain b =>
    obtain ⟨c, -, rfl⟩ := Option.map_eq_some_iff.mp hn
    exact h.chain b
  | unref i =>
    obtain ⟨hi, ht⟩ := Option.ite_none_right_eq_some.mp hn
    cases ht
    exact ⟨h.owned.unref hi, h.mluDstMem⟩

theorem memoriesKept (h : Kept s) : MemoriesKept s := by
  have hprivate : ∀ p, p.toList ⊆ s.mluDstMem.toList ++ s.tmpMem.toList ++
      (s.cncvWorkspace.map Workspace.mem).toList → s.Private p := by
    rintro p hp m rfl
    have hm := hp List.mem_cons_self
    refine ⟨h.owned.live m (List.mem_append_left _ hm), fun f hf hmf => ?_⟩
    exact List.disjoint_of_nodup_append h.owned.nodup hm (List.mem_flatten.mpr ⟨f, hf, hmf⟩)
  exact
    { mluDstMem := hprivate _ fun m hm =>
        List.mem_append_left _ (List.mem_append_left _ hm)
      tmpMem := hprivate _ fun m hm => List.mem_append_left _ (List.mem_append_right _ hm)
      cncvWorkspace := hprivate _ fun m hm => List.mem_append_right _ hm
      freedOnce := h.owned.freed }

/-- Acceptable caps succeed exactly when there is no temporary memory. -/
theorem capsSucceed_iff (h : Kept s) (hn : s.next l = some t) :
    CapsSucceed l t ↔ s.FindsNoTmp l := by
  cases l with
  | caps e =>
    cases hn
    constructor
    · intro hs he
      have hsome := hs e rfl he
      obtain ⟨c, hc⟩ := setcaps_of_acceptable s he
      rw [hc] at hsome
      cases ht : s.tmpMem with
      | none => rfl
      | some m =>
        simp only [freeMemories, h.mluDstMem, ht] at hsome
        cases hsome
    · rintro hs e' he' he
      cases he'
      obtain ⟨c, hc⟩ := setcaps_of_acceptable s he
      rw [hc, freeMemories_of_none (s := { s with conversion := none }) h.mluDstMem (hs he)]
      rfl
  | chain b => exact ⟨fun _ => trivial, fun _ => nofun⟩
  | unref i => exact ⟨fun _ => trivial, fun _ => nofun⟩

end Kept

theorem reachable_kept (h : Reachable (· = initial) (System.StepWhere next FindsNoTmp) s) :
    Kept s := by
  refine Reachable.invariant (I := Kept) ?_ ?_ h
  · rintro s rfl
    exact .initial
  · rintro s t hs ⟨l, hc, hn⟩
    exact hs.next hn hc

/--
**In a run in which no acceptable caps find a temporary memory, the element's memories are live and
its own, and no memory is freed twice; the next step keeps this, and succeeds if it is a caps event
with acceptable caps, exactly when it is such a step.**
-/
theorem temporaries_kept (h : Reachable (· = initial) (System.StepWhere next FindsNoTmp) s) :
    MemoriesKept s ∧ ∀ l t, s.next l = some t →
      (MemoriesKept t ∧ CapsSucceed l t ↔ s.FindsNoTmp l) := by
  have hs := reachable_kept h
  refine ⟨hs.memoriesKept, fun l t hn => ⟨fun ht => (hs.capsSucceed_iff hn).mp ht.2, fun hc => ?_⟩⟩
  exact ⟨(hs.next hn hc).memoriesKept, (hs.capsSucceed_iff hn).mpr hc⟩

/-- Pictures of one kind of RGB, which are made smaller and turned into another. -/
def rgbToBgr : Conversion where
  sinkInfo :=
    { format := .rgb, width := 8, height := 8, width_pos := by decide, height_pos := by decide }
  srcInfo :=
    { format := .bgr, width := 4, height := 4, width_pos := by decide, height_pos := by decide }
  inputOnMlu := false
  outputOnMlu := true

theorem temporaries_kept_sample :
    ∃ s, System.run next initial [.caps ⟨some rgbToBgr, true⟩, .chain ⟨false, 64⟩] = some s ∧
      s.frames ≠ [] ∧ MemoriesKept s ∧ ∀ l t, s.next l = some t →
        (MemoriesKept t ∧ CapsSucceed l t ↔ s.FindsNoTmp l) := by
  have hm : System.Meets next FindsNoTmp initial
      [.caps ⟨some rgbToBgr, true⟩, .chain ⟨false, 64⟩] := ⟨fun _ => rfl, trivial, trivial⟩
  exact ⟨_, rfl, by decide,
    temporaries_kept (System.reachable_of_meets (Reachable.of_init rfl) rfl hm)⟩

/--
After a buffer, the same caps fail, with the temporary memory freed and still pointed to; when they
come again it is freed again.
-/
theorem caps_free_twice :
    (CapsEvent.mk (some rgbToBgr) true).Acceptable ∧
    (∃ s, System.run next initial
      [.caps ⟨some rgbToBgr, true⟩, .chain ⟨false, 64⟩, .caps ⟨some rgbToBgr, true⟩] = some s ∧
      s.conversion = none ∧ ¬s.Private s.tmpMem) ∧
    ∃ s, System.run next initial
      [.caps ⟨some rgbToBgr, true⟩, .chain ⟨false, 64⟩, .caps ⟨some rgbToBgr, true⟩,
        .caps ⟨some rgbToBgr, true⟩] = some s ∧ s.memories.freedDead = true := by
  refine ⟨⟨rfl, rgbToBgr, rfl, by decide⟩, ⟨_, rfl, rfl, fun h => ?_⟩, _, rfl, rfl⟩
  exact absurd (h _ rfl).1 (by decide)

end CambriconGst.Gst.Cnconvert
