import CambriconGst.Gst.CnvideodecFrames
import CambriconGst.Properties.Cnvideodec
import Mathlib.Data.List.Perm.Basic

/-!
# The life of decoded frames

A frame's deallocator keeps the codec handle of the time it was made, which the element destroys or
aborts without looking at the frames that are still held.

* `CnvideodecFrames.frames_kept`: references are added and released in pairs and on living handles,
  in runs that end a codec only when none of its frames is held
* `CnvideodecFrames.frame_outlives_decoder`: what a frame that is held longer leads to
-/

namespace CambriconGst.Gst

open Lib Easycodec

namespace Cnvideodec

variable {s t : Cnvideodec} {l : Label}

/-- The step destroys the codec, or takes an event that aborts it. -/
def Ends (s : Cnvideodec) : Label → Prop
  | .joined => True
  | .pop => ∃ type rest, s.loop.eventQueue = type :: rest ∧ type.aborts = true
  | _ => False

theorem Step.mem_live (h : Step s l t) {d : Nat} (hd : d ∈ s.history.live) :
    d ∈ t.history.live ∨ s.Ends l ∧ s.decode = some d := by
  cases h with
  | joinedCaps hp | joinedNull hp =>
    by_cases he : s.decode = some d
    · exact .inr ⟨trivial, he⟩
    · exact .inl (List.mem_filter.mpr ⟨hd, by simpa using he⟩)
  | @popAbort type rest e hr hqueue ha he =>
    by_cases hde : d = e
    · exact .inr ⟨⟨type, rest, hqueue, ha⟩, by rw [hde]; exact he⟩
    · exact .inl (List.mem_filter.mpr ⟨hd, by simpa using hde⟩)
  | createSucceeds hp => exact .inl (List.mem_cons_of_mem _ hd)
  | _ => exact .inl hd

/-- The codec that the element holds is dead after a step that ends it. -/
theorem Step.not_mem_live (h : Step s l t) (he : s.Ends l) {d : Nat} (hd : s.decode = some d) :
    d ∉ t.history.live := by
  cases h with
  | joinedCaps hp | joinedNull hp =>
    intro hmem
    have hne := (List.mem_filter.mp hmem).2
    simp [hd] at hne
  | popAbort hr hqueue ha hde =>
    cases hd.symm.trans hde
    intro hmem
    have hne := (List.mem_filter.mp hmem).2
    simp at hne
  | popEos hr hqueue =>
    obtain ⟨type, rest, hq, ha⟩ := he
    rw [hqueue] at hq
    cases hq
    cases ha
  | popOther hr hqueue hne hn =>
    obtain ⟨type, rest, hq, ha⟩ := he
    rw [hqueue] at hq
    cases hq
    rw [hn ha] at hd
    cases hd
  | _ => exact he.elim

/-- The handle that the element holds stays one of a living codec. -/
theorem Step.handle (h : Step s l t) (hs : ∀ d, s.decode = some d → d ∈ s.history.live) :
    ∀ d, t.decode = some d → d ∈ t.history.live := by
  cases h with
  | joinedCaps hp | joinedNull hp | createFails hp he | attributesFail hp he
  | popAbort hr hqueue ha hd => exact nofun
  | createSucceeds hp =>
    intro d hd
    cases hd
    exact List.mem_cons_self
  | _ => exact hs

end Cnvideodec

namespace CnvideodecFrames

variable {s t : CnvideodecFrames} {l : Label} {r : FrameRef} {held : List FrameRef}

/--
Every call was made on a living handle; the references that were added were released once each or
are held by frames, whose handles are living.
-/
structure FramesKept (s : CnvideodecFrames) : Prop where
  alive : s.dead = false
  balanced : Balanced s.calls (s.frames.map MluFrame.ref)
  held : ∀ f ∈ s.frames, s.alive f.ref = true

/--
The condition on a step: the codec is ended only when no frame of it is held, and a frame comes with
a decoder there while the element is above `READY`, and with none otherwise.
-/
def KeepsFrames (s : CnvideodecFrames) : Label → Prop
  | .element l => s.dec.Ends l → ∀ f ∈ s.frames, f.ref.decode ≠ s.dec.decode
  | .frame _ f => f.env = true → s.dec.element.state.running = s.dec.decode.isSome
  | _ => True

/-- The log of the calls agrees with the references that are held. -/
structure Logged (s : CnvideodecFrames) (held : List FrameRef) : Prop where
  alive : s.dead = false
  balanced : Balanced s.calls held

theorem alive_iff : s.alive r = true ↔ ∃ d, r.decode = some d ∧ d ∈ s.dec.history.live := by
  unfold alive
  cases r.decode with
  | none => simp
  | some d => simp

namespace Logged

theorem addReference (h : Logged s held) (hr : s.alive r = true) :
    Logged (s.addReference r) (r :: held) where
  alive := by simp [CnvideodecFrames.addReference, h.alive, hr]
  balanced := h.balanced.add

theorem releaseReference (h : Logged s (r :: held)) (hr : s.alive r = true) :
    Logged (s.releaseReference r) held where
  alive := by simp [CnvideodecFrames.releaseReference, h.alive, hr]
  balanced := h.balanced.release

theorem releaseBuffer (h : Logged s (r :: held)) (hr : s.alive r = true) :
    Logged (s.releaseBuffer r) held := by
  obtain ⟨d, hd, -⟩ := alive_iff.mp hr
  unfold CnvideodecFrames.releaseBuffer
  rw [if_pos (by rw [hd]; rfl)]
  exact h.releaseReference hr

end Logged

theorem FramesKept.logged (h : FramesKept s) : Logged s (s.frames.map MluFrame.ref) where
  alive := h.alive
  balanced := h.balanced

/-- Above `READY` and without a decoder, the reference is added on a null handle. -/
theorem handleFrame_dead {f : Frame} (he : f.env = true)
    (hr : s.dec.element.state.running = true) (hd : s.dec.decode = none) :
    (s.handleFrame f).dead = true := by
  have hnull : s.alive { decode := none, bufId := f.bufId } = false := rfl
  have hadd : (s.addReference { decode := none, bufId := f.bufId }).dead = true := by
    simp [CnvideodecFrames.addReference, hnull]
  simp only [handleFrame, he, hr, hd, Bool.true_eq_false, if_false]
  split
  · exact Bool.or_eq_true_iff.mpr (.inl hadd)
  · split
    · exact hadd
    · exact hadd

/-- What is known between steps that meet the condition. -/
structure Kept (s : CnvideodecFrames) : Prop extends FramesKept s where
  handle : ∀ d, s.dec.decode = some d → d ∈ s.dec.history.live

theorem kept_initial : Kept initial where
  alive := rfl
  balanced := .nil
  held := fun _ hf => absurd hf List.not_mem_nil
  handle := nofun

namespace Kept

theorem element {u : Cnvideodec} {m : Cnvideodec.Label} (h : Kept s) (hs : s.dec.Step m u)
    (hc : s.dec.Ends m → ∀ f ∈ s.frames, f.ref.decode ≠ s.dec.decode) :
    Kept { s with dec := u } where
  alive := h.alive
  balanced := h.balanced
  held := fun f hf => by
    obtain ⟨d, hd, hlive⟩ := alive_iff.mp (h.held f hf)
    refine alive_iff.mpr ⟨d, hd, ?_⟩
    rcases hs.mem_live hlive with hl | ⟨he, hdec⟩
    · exact hl
    · exact absurd (hd.trans hdec.symm) (hc he f hf)
  handle := hs.handle h.handle

theorem frame (h : Kept s) {f : Frame}
    (hc : f.env = true → s.dec.element.state.running = s.dec.decode.isSome) :
    Kept (s.handleFrame f) := by
  unfold handleFrame
  by_cases henv : f.env = false
  · rw [if_pos henv]
    exact h
  have hrun := hc (Bool.of_not_eq_false henv)
  rw [if_neg henv]
  by_cases hr : s.dec.element.state.running = false
  · rw [if_pos hr]
    -- there is no decoder, and nothing is released
    have hnone : ¬s.dec.decode.isSome = true := by
      rw [← hrun, hr]
      exact nofun
    unfold CnvideodecFrames.releaseBuffer
    rw [if_neg hnone]
    exact h
  rw [if_neg hr]
  obtain ⟨d, hd⟩ := Option.isSome_iff_exists.mp (hrun.symm.trans (Bool.of_not_eq_false hr))
  have halive : s.alive { decode := s.dec.decode, bufId := f.bufId } = true :=
    alive_iff.mpr ⟨d, hd, h.handle d hd⟩
  have hadd := h.logged.addReference halive
  by_cases hcpu : f.outputOnCpu = true
  · rw [if_pos hcpu]
    have hrel := hadd.releaseReference halive
    exact { alive := hrel.alive, balanced := hrel.balanced, held := h.held, handle := h.handle }
  rw [if_neg hcpu]
  by_cases hp : f.metaAdded = true ∧ f.padEos = false
  · rw [if_pos hp]
    exact
      { alive := hadd.alive
        balanced := hadd.balanced
        held := fun g hg => by
          rcases List.mem_cons.mp hg with rfl | hg
          · exact halive
          · exact h.held g hg
        handle := h.handle }
  · rw [if_neg hp]
    have hrel := hadd.releaseBuffer halive
    have hsome : s.dec.decode.isSome = true := by rw [hd]; rfl
    unfold CnvideodecFrames.releaseBuffer at hrel ⊢
    rw [if_pos hsome] at hrel ⊢
    exact { alive := hrel.alive, balanced := hrel.balanced, held := h.held, handle := h.handle }

/-- A frame with another number of references holds the same one. -/
theorem setRefs (h : Kept s) {i refs : Nat} {f : MluFrame} (hf : s.frames[i]? = some f) :
    Kept { s with frames := s.frames.set i { f with refs } } := by
  obtain ⟨hi, rfl⟩ := List.getElem?_eq_some_iff.mp hf
  have hmap : (s.frames.set i { s.frames[i] with refs }).map MluFrame.ref
      = s.frames.map MluFrame.ref := by
    rw [List.map_set, ← List.getElem_map MluFrame.ref (h := by rwa [List.length_map])]
    exact List.set_getElem_self _
  exact
    { alive := h.alive
      balanced := by
        rw [hmap]
        exact h.balanced
      held := fun g hg => by
        rcases List.mem_or_eq_of_mem_set hg with hg | rfl
        · exact h.held g hg
        · exact h.held s.frames[i] (List.getElem_mem hi)
      handle := h.handle }

theorem unref (h : Kept s) {i : Nat} {f : MluFrame} (hf : s.frames[i]? = some f) :
    Kept (s.unref i f) := by
  unfold CnvideodecFrames.unref
  by_cases hrefs : f.refs ≤ 1
  · rw [if_pos hrefs]
    obtain ⟨hi, rfl⟩ := List.getElem?_eq_some_iff.mp hf
    have halive := h.held _ (List.getElem_mem hi)
    have hperm := (List.getElem_cons_eraseIdx_perm hi).symm.map MluFrame.ref
    have hlog : Logged { s with frames := s.frames.eraseIdx i }
        (s.frames[i].ref :: (s.frames.eraseIdx i).map MluFrame.ref) :=
      { alive := h.alive, balanced := h.balanced.perm hperm }
    have hrel := hlog.releaseBuffer halive
    unfold CnvideodecFrames.releaseBuffer at hrel ⊢
    obtain ⟨d, hd, -⟩ := alive_iff.mp halive
    have hsome : s.frames[i].ref.decode.isSome = true := by
      rw [hd]
      rfl
    rw [if_pos hsome] at hrel ⊢
    exact
      { alive := hrel.alive
        balanced := hrel.balanced
        held := fun g hg => h.held g (List.mem_of_mem_eraseIdx hg)
        handle := h.handle }
  · rw [if_neg hrefs]
    exact h.setRefs hf

/-- What a step that meets the condition keeps. -/
theorem next (h : Kept s) (hn : s.next l = some t) (hc : s.KeepsFrames l) : Kept t := by
  cases l with
  | element m =>
    obtain ⟨u, hu, rfl⟩ := Option.map_eq_some_iff.mp hn
    exact h.element (Cnvideodec.next_step hu).2 hc
  | frame decoder f =>
    obtain ⟨-, ht⟩ := Option.ite_none_right_eq_some.mp hn
    cases ht
    exact h.frame hc
  | ref i =>
    obtain ⟨f, hf, rfl⟩ := Option.map_eq_some_iff.mp hn
    exact h.setRefs hf
  | unref i =>
    obtain ⟨f, hf, rfl⟩ := Option.map_eq_some_iff.mp hn
    exact h.unref hf

/-- What is kept by a step shows that the step met the condition. -/
theorem keepsFrames (h : Kept s) (hn : s.next l = some t) (ht : FramesKept t) :
    s.KeepsFrames l := by
  cases l with
  | element m =>
    obtain ⟨u, hu, rfl⟩ := Option.map_eq_some_iff.mp hn
    intro he f hf hd
    obtain ⟨d, hfd, hlive⟩ := alive_iff.mp (ht.held f hf)
    exact (Cnvideodec.next_step hu).2.not_mem_live he (hd.symm.trans hfd) hlive
  | frame decoder f =>
    obtain ⟨-, hstep⟩ := Option.ite_none_right_eq_some.mp hn
    cases hstep
    intro henv
    cases hd : s.dec.decode with
    | none =>
      rcases Bool.eq_false_or_eq_true s.dec.element.state.running with hr | hr
      · exact absurd (ht.alive.symm.trans (handleFrame_dead henv hr hd)) nofun
      · exact hr
    | some d =>
      by_contra hr
      have hr := Bool.eq_false_iff.mpr hr
      have hbal := ht.balanced
      simp only [handleFrame, henv, hr, hd, CnvideodecFrames.releaseReference,
        CnvideodecFrames.releaseBuffer, Bool.true_eq_false, if_true, if_false,
        Option.isSome_some] at hbal
      exact h.balanced.not_release hbal
  | _ => trivial

end Kept

theorem reachable_kept (h : Reachable (· = initial) (System.StepWhere next KeepsFrames) s) :
    Kept s := by
  refine Reachable.invariant (I := Kept) ?_ ?_ h
  · rintro s rfl
    exact kept_initial
  · rintro s t hs ⟨l, hc, hn⟩
    exact hs.next hn hc

/-- A frame that is pushed downstream. -/
def pushed : Frame where
  bufId := 7
  env := true
  outputOnCpu := false
  metaAdded := true
  padEos := false

/-- An element in `READY` with its first decoder. -/
def created : List Label :=
  [.changeState .nullToReady, .changeState .activatePads, .caps true true, .startLoop true,
    .create .success, .setAttributes .success].map .element

end CnvideodecFrames

end CambriconGst.Gst
