import CambriconGst.Easycodec.DecodeHandler

/-!
# Steps of the decode handler

* `DecodeHandler.Step`: all that a step can do, one constructor for each way through the source
* `DecodeHandler.next_step`: every step of the handler is one of them
-/

namespace CambriconGst.Easycodec.DecodeHandler

open Lib

variable {s t : DecodeHandler} {l : Label}

inductive Step (s : DecodeHandler) : Label → DecodeHandler → Prop
  | createSucceeds {jpegDecode : Bool} (hp : s.pc = .creating) :
    Step s (.create jpegDecode .success)
      { s with handle := true, pc := if jpegDecode then .alive else .settingAttributes }
  | createFails {jpegDecode : Bool} {ecode : Ecode} (hp : s.pc = .creating) :
    Step s (.create jpegDecode ecode) s.destruct
  | attributesSet (hp : s.pc = .settingAttributes) :
    Step s (.setAttributes .success) { s with pc := .alive }
  | attributesFail {ecode : Ecode} (hp : s.pc = .settingAttributes) :
    Step s (.setAttributes ecode) s.destruct
  | eosAccepted (hp : s.pc = .alive) (hs : s.sendEos = false) :
    Step s (.feedEos .success)
      { s with sendEos := true, history := { s.history with accepted := true } }
  | eosSentBefore {ecode : Ecode} (hp : s.pc = .alive) (hs : s.sendEos = true) :
    Step s (.feedEos ecode) s
  | eosRefused {ecode : Ecode} (hp : s.pc = .alive) (hs : s.sendEos = false)
    (he : ecode ≠ .success) : Step s (.feedEos ecode) s
  | aborts (hh : s.handle = true) :
    Step s .abortDecoder { s.dropHandle with aborting := s.aborting + 1 }
  | abortsNothing (hh : s.handle = false) : Step s .abortDecoder s
  | abortNotifies (ha : 0 < s.aborting) (hp : s.pc.holdsEosMtx = false) :
    Step s .abortNotifies { s.setGotEos with aborting := s.aborting - 1 }
  | receiveEvent {type : CbEventType} (hh : s.handle = true)
    (hr : s.runner.holdsEventMtx = false) :
    Step s (.receiveEvent type) (s.receiveEvent type)
  | runnerLocks (hr : s.runner = .lock) : Step s .eventTaskRunner { s with runner := .loop }
  | runnerEnds (hr : s.runner = .loop) (hq : s.eventQueue = []) (hg : s.gotEos = true) :
    Step s .eventTaskRunner { s with runner := .done }
  | runnerWaits (hr : s.runner = .loop) :
    Step s .eventTaskRunner { s with runner := .wait .testing }
  | runnerTakes {type : CbEventType} {rest : List CbEventType} (hr : s.runner = .wait .testing)
    (hq : s.eventQueue = type :: rest) :
    Step s .eventTaskRunner { s with eventQueue := rest, runner := .handling type }
  | runnerNotified (hr : s.runner = .wait .testing) (hq : s.eventQueue = [])
    (hg : s.gotEos = true) : Step s .eventTaskRunner { s with runner := .loop }
  | runnerTests (hr : s.runner = .wait .testing) (hq : s.eventQueue = [])
    (hg : s.gotEos = false) : Step s .eventTaskRunner { s with runner := .wait .blocking }
  | runnerBlocks (hr : s.runner = .wait .blocking) :
    Step s .eventTaskRunner { s with runner := .wait .blocked }
  | runnerWakes (hr : s.runner = .wait .woken) :
    Step s .eventTaskRunner { s with runner := .wait .testing }
  | handlesEos (hr : s.runner = .handling .eos) :
    Step s .eventTaskRunner { s with runner := .notifying }
  | handlesAbort {type : CbEventType} (hr : s.runner = .handling type) (ha : type.aborts = true)
    (hh : s.handle = true) :
    Step s .eventTaskRunner { s.dropHandle with runner := .notifying }
  | handlesOther {type : CbEventType} (hr : s.runner = .handling type) :
    Step s .eventTaskRunner { s with runner := .lock }
  | runnerNotifies (hr : s.runner = .notifying) (hp : s.pc.holdsEosMtx = false) :
    Step s .eventTaskRunner { s.setGotEos with runner := .lock }
  | destruct (hp : s.pc = .alive) : Step s .destruct s.destruct
  | entersGot {ecode : Ecode} (hp : s.pc = .entered) (hg : s.gotEos = true) :
    Step s (.destructor ecode) { s with pc := .checking }
  | entersFeeding {ecode : Ecode} (hp : s.pc = .entered) (hg : s.gotEos = false)
    (hs : s.sendEos = false) (hh : s.handle = true) :
    Step s (.destructor ecode) { s with pc := .feeding }
  | entersNoHandle {ecode : Ecode} (hp : s.pc = .entered) (hh : s.handle = false) :
    Step s (.destructor ecode) { s with gotEos := true, pc := .checking }
  | entersSent {ecode : Ecode} (hp : s.pc = .entered) (hs : s.sendEos = true) :
    Step s (.destructor ecode) { s with pc := .checking }
  | feeds (hp : s.pc = .feeding) (hs : s.sendEos = false) :
    Step s (.destructor .success)
      { s with sendEos := true, pc := .locking, history := { s.history with accepted := true } }
  | feedsNothing {ecode : Ecode} (hp : s.pc = .feeding) (hs : s.sendEos = true) :
    Step s (.destructor ecode) { s with pc := .locking }
  | feedThrows {ecode : Ecode} (hp : s.pc = .feeding) (hs : s.sendEos = false)
    (he : ecode ≠ .success) : Step s (.destructor ecode) { s with pc := .caught }
  | locks {ecode : Ecode} (hp : s.pc = .locking) :
    Step s (.destructor ecode) { s with pc := .checking }
  | checksGot {ecode : Ecode} (hp : s.pc = .checking ∨ s.pc = .wait .testing)
    (hg : s.gotEos = true) : Step s (.destructor ecode) { s with pc := .notifying }
  | checksWaits {ecode : Ecode} (hp : s.pc = .checking) (hg : s.gotEos = false) :
    Step s (.destructor ecode) { s with pc := .wait .testing }
  | tests {ecode : Ecode} (hp : s.pc = .wait .testing) (hg : s.gotEos = false) :
    Step s (.destructor ecode) { s with pc := .wait .blocking }
  | blocks {ecode : Ecode} (hp : s.pc = .wait .blocking) :
    Step s (.destructor ecode) { s with pc := .wait .blocked }
  | wakes {ecode : Ecode} (hp : s.pc = .wait .woken) :
    Step s (.destructor ecode) { s with pc := .wait .testing }
  | notifies {ecode : Ecode} (hp : s.pc = .notifying) :
    Step s (.destructor ecode) { s with runner := s.runner.notified, pc := .joining }
  | joins {ecode : Ecode} (hp : s.pc = .joining) (hr : s.runner = .done) :
    Step s (.destructor ecode)
      { s with pc := .destroying, history := { s.history with joined := true } }
  | destroys {ecode : Ecode} (hp : s.pc = .destroying) (hh : s.handle = true) :
    Step s (.destructor ecode)
      { s with
        handle := false
        pc := .out
        history := { s.history with destroyCalls := s.history.destroyCalls + 1 } }
  | leaves {ecode : Ecode} (hp : s.pc = .destroying) (hh : s.handle = false) :
    Step s (.destructor ecode) { s with pc := .out }

/-! ## The ways through the functions -/

/-- `FeedEos` returns false, throws, or has fed an EOS. -/
theorem feedEos_cases (s : DecodeHandler) (ecode : Ecode) :
    (s.sendEos = true ∧ s.feedEos ecode = (.ok false, s)) ∨
    (s.sendEos = false ∧ ecode ≠ .success ∧ ∃ e, s.feedEos ecode = (.error e, s)) ∨
    (s.sendEos = false ∧ ecode = .success ∧
      s.feedEos ecode =
        (.ok true, { s with sendEos := true, history := { s.history with accepted := true } })) := by
  unfold feedEos
  cases hs : s.sendEos with
  | true => exact .inl ⟨rfl, rfl⟩
  | false =>
    cases ecode with
    | success => exact .inr (.inr ⟨rfl, rfl, rfl⟩)
    | timeout => exact .inr (.inl ⟨rfl, nofun, _, rfl⟩)
    | error code => exact .inr (.inl ⟨rfl, nofun, _, rfl⟩)

theorem step_eventTaskRunner (h : s.eventTaskRunner = some t) : Step s .eventTaskRunner t := by
  unfold eventTaskRunner at h
  cases hr : s.runner with
  | lock =>
    rw [hr] at h
    cases h
    exact .runnerLocks hr
  | loop =>
    simp only [hr] at h
    cases h
    by_cases he : s.eventQueue.isEmpty ∧ s.gotEos = true
    · rw [if_pos he]
      exact .runnerEnds hr (List.isEmpty_iff.mp he.1) he.2
    · rw [if_neg he]
      exact .runnerWaits hr
  | wait w =>
    cases w with
    | testing =>
      cases hq : s.eventQueue with
      | cons type rest =>
        simp only [hr, hq] at h
        cases h
        exact .runnerTakes hr hq
      | nil =>
        simp only [hr, hq] at h
        -- the predicate of the wait is tested under the mutex: `got_eos_` alone ends it too
        by_cases hg : s.gotEos = true
        · rw [if_pos hg, ← hq] at h
          cases h
          exact .runnerNotified hr hq hg
        · rw [if_neg hg, ← hq] at h
          cases h
          exact .runnerTests hr hq (eq_false_of_ne_true hg)
    | blocking =>
      rw [hr] at h
      cases h
      exact .runnerBlocks hr
    | blocked =>
      rw [hr] at h
      cases h
    | woken =>
      rw [hr] at h
      cases h
      exact .runnerWakes hr
  | handling type =>
    simp only [hr] at h
    cases h
    unfold handleEvent
    by_cases he : type = .eos
    · rw [if_pos he]
      rw [he] at hr
      exact .handlesEos hr
    · rw [if_neg he]
      by_cases ha : type.aborts = true ∧ s.handle = true
      · rw [if_pos ha]
        exact .handlesAbort hr ha.1 ha.2
      · rw [if_neg ha]
        exact .handlesOther hr
  | notifying =>
    simp only [hr] at h
    -- the destructor may hold `eos_mtx_`, and the runner waits for it
    cases hp : s.pc.holdsEosMtx with
    | true =>
      rw [hp] at h
      cases h
    | false =>
      simp only [hp, Bool.false_eq_true, if_false] at h
      cases h
      exact .runnerNotifies hr hp
  | done =>
    rw [hr] at h
    cases h

theorem step_enters {ecode : Ecode} (hp : s.pc = .entered) (h : s.destructor ecode = some t) :
    Step s (.destructor ecode) t := by
  simp only [destructor, hp] at h
  by_cases hg : s.gotEos = true
  · rw [if_pos hg] at h
    cases h
    exact .entersGot hp hg
  · rw [if_neg hg] at h
    by_cases hf : s.sendEos = false ∧ s.handle = true
    · rw [if_pos hf] at h
      cases h
      exact .entersFeeding hp (eq_false_of_ne_true hg) hf.1 hf.2
    · rw [if_neg hf] at h
      by_cases hh : s.handle = false
      · rw [if_pos hh] at h
        cases h
        exact .entersNoHandle hp hh
      · rw [if_neg hh] at h
        cases h
        refine .entersSent hp (eq_true_of_ne_false fun hs => hf ⟨hs, ?_⟩)
        exact eq_true_of_ne_false hh

theorem step_feeds {ecode : Ecode} (hp : s.pc = .feeding) (h : s.destructor ecode = some t) :
    Step s (.destructor ecode) t := by
  simp only [destructor, hp] at h
  rcases feedEos_cases s ecode with ⟨hs, he⟩ | ⟨hs, hne, e, he⟩ | ⟨hs, rfl, he⟩
  · simp only [he] at h
    cases h
    exact .feedsNothing hp hs
  · simp only [he] at h
    cases h
    exact .feedThrows hp hs hne
  · simp only [he] at h
    cases h
    exact .feeds hp hs

theorem step_destructor {ecode : Ecode} (h : s.destructor ecode = some t) :
    Step s (.destructor ecode) t := by
  cases hp : s.pc with
  | entered => exact step_enters hp h
  | feeding => exact step_feeds hp h
  | locking =>
    simp only [destructor, hp] at h
    cases h
    exact .locks hp
  | checking =>
    simp only [destructor, hp] at h
    by_cases hg : s.gotEos = true
    · rw [if_pos hg] at h
      cases h
      exact .checksGot (.inl hp) hg
    · rw [if_neg hg] at h
      cases h
      exact .checksWaits hp (eq_false_of_ne_true hg)
  | wait w =>
    cases w with
    | testing =>
      simp only [destructor, hp] at h
      by_cases hg : s.gotEos = true
      · rw [if_pos hg] at h
        cases h
        exact .checksGot (.inr hp) hg
      · rw [if_neg hg] at h
        cases h
        exact .tests hp (eq_false_of_ne_true hg)
    | blocking =>
      simp only [destructor, hp] at h
      cases h
      exact .blocks hp
    | blocked => simp [destructor, hp] at h
    | woken =>
      simp only [destructor, hp] at h
      cases h
      exact .wakes hp
  | notifying =>
    simp only [destructor, hp] at h
    cases h
    exact .notifies hp
  | joining =>
    simp only [destructor, hp] at h
    by_cases hr : s.runner = .done
    · rw [if_pos hr] at h
      cases h
      exact .joins hp hr
    · rw [if_neg hr] at h
      cases h
  | destroying =>
    simp only [destructor, hp] at h
    by_cases hh : s.handle = true
    · rw [if_pos hh] at h
      cases h
      exact .destroys hp hh
    · rw [if_neg hh] at h
      cases h
      exact .leaves hp (eq_false_of_ne_true hh)
  | _ => simp [destructor, hp] at h

theorem step_feedEos {ecode : Ecode} (hp : s.pc = .alive) :
    Step s (.feedEos ecode) (s.feedEos ecode).2 := by
  rcases feedEos_cases s ecode with ⟨hs, he⟩ | ⟨hs, hne, e, he⟩ | ⟨hs, rfl, he⟩
  · rw [he]
    exact .eosSentBefore hp hs
  · rw [he]
    exact .eosRefused hp hs hne
  · rw [he]
    exact .eosAccepted hp hs

theorem step_abortDecoder : Step s .abortDecoder s.abortDecoder := by
  unfold abortDecoder
  cases hh : s.handle with
  | true => exact .aborts hh
  | false => exact .abortsNothing hh

/-- **Every step of the handler is one of `Step`.** -/
theorem next_step (h : next s l = some t) : s.pc.left = false ∧ Step s l t := by
  unfold next at h
  cases hleft : s.pc.left with
  | true =>
    rw [hleft] at h
    cases h
  | false =>
    simp only [hleft, Bool.false_eq_true, if_false] at h
    refine ⟨rfl, ?_⟩
    cases l with
    | create jpegDecode ecode =>
      obtain ⟨hp, ⟨⟩⟩ := Option.ite_none_right_eq_some.mp h
      cases ecode with
      | success => exact .createSucceeds hp
      | timeout => exact .createFails hp
      | error code => exact .createFails hp
    | setAttributes ecode =>
      obtain ⟨hp, ⟨⟩⟩ := Option.ite_none_right_eq_some.mp h
      cases ecode with
      | success => exact .attributesSet hp
      | timeout => exact .attributesFail hp
      | error code => exact .attributesFail hp
    | feedEos ecode =>
      obtain ⟨hp, ⟨⟩⟩ := Option.ite_none_right_eq_some.mp h
      exact step_feedEos hp
    | abortDecoder =>
      cases h
      exact step_abortDecoder
    | abortNotifies =>
      obtain ⟨⟨ha, hp⟩, ⟨⟩⟩ := Option.ite_none_right_eq_some.mp h
      exact .abortNotifies ha hp
    | receiveEvent type =>
      obtain ⟨⟨hh, hr⟩, ⟨⟩⟩ := Option.ite_none_right_eq_some.mp h
      exact .receiveEvent hh hr
    | eventTaskRunner => exact step_eventTaskRunner h
    | destruct =>
      obtain ⟨hp, ⟨⟩⟩ := Option.ite_none_right_eq_some.mp h
      exact .destruct hp
    | destructor ecode => exact step_destructor h

end CambriconGst.Easycodec.DecodeHandler
