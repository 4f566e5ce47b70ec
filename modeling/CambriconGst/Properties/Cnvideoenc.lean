import CambriconGst.Gst.Cnvideoenc
import CambriconGst.Properties.EventLoop

/-!
# Steps of the video encoder element

* `Cnvideoenc.Step`: all that a step can do, one constructor for each way through the source
* `Cnvideoenc.next_step`: every step of the element is one of them
-/

namespace CambriconGst.Gst.Cnvideoenc

open Lib Easycodec

variable {s t : Cnvideoenc} {l : Label}

/-- Handling a caps event. -/
def Pc.inCaps : Pc → Bool
  | .feeding .setCaps => true
  | .waitEos .setCaps => true
  | .joining .setCaps => true
  | .starting => true
  | .creating => true
  | _ => false

/-- In `change_state`, on the way to `READY`. -/
def Pc.toReady : Pc → Bool
  | .feeding .pausedToReady => true
  | .waitEos .pausedToReady => true
  | .joining .pausedToReady => true
  | _ => false

/-- The codec accepts an EOS. -/
def History.accept (h : History) (d : Nat) : History :=
  { h with fed := d :: h.fed }

/-- The codec instance is aborted. -/
def History.kill (h : History) (d : Nat) : History :=
  { h with live := h.live.filter (· ≠ d), stranded := true }

inductive Step (s : Cnvideoenc) : Label → Cnvideoenc → Prop
  | changeState {t : Transition} (ht : t ≠ .pausedToReady)
    (hc : s.element.Can (s.pc = .idle) t) :
    Step s (.changeState t) { s with element := s.element.change t }
  | toReadyWait (hc : s.element.Can (s.pc = .idle) .pausedToReady)
    (hw : s.loop.gotEos = true ∨ s.sendEos = true ∧ s.encode ≠ none) :
    Step s .pausedToReady { s with pc := .waitEos .pausedToReady }
  | toReadyFeed {d : Nat} (hc : s.element.Can (s.pc = .idle) .pausedToReady)
    (hd : s.encode = some d) (hg : s.loop.gotEos = false) (hs : s.sendEos = false) :
    Step s .pausedToReady { s with pc := .feeding .pausedToReady }
  | toReadyNone (hc : s.element.Can (s.pc = .idle) .pausedToReady) (hd : s.encode = none) :
    Step s .pausedToReady
      { s with loop := { s.loop with gotEos := true }, pc := .waitEos .pausedToReady }
  | finalize (hn : s.element.state = .null) (hp : s.pc = .idle) (hr : s.loop.runner = .none) :
    Step s .finalize { s with pc := .finalized }
  | finalizeTerminates (hn : s.element.state = .null) (hp : s.pc = .idle)
    (hr : s.loop.runner.joinable) :
    Step s .finalize { s with pc := .terminated }
  | capsIgnored (ha : s.element.padsActive = true) (hp : s.pc = .idle) :
    Step s (.caps false) s
  | capsStart (ha : s.element.padsActive = true) (hp : s.pc = .idle) (hd : s.encode = none) :
    Step s (.caps true) { s with pc := .starting }
  | capsWait (ha : s.element.padsActive = true) (hp : s.pc = .idle)
    (hw : s.loop.gotEos = true ∨ s.sendEos = true ∧ s.encode ≠ none) :
    Step s (.caps true) { s with pc := .waitEos .setCaps }
  | capsFeed {d : Nat} (ha : s.element.padsActive = true) (hp : s.pc = .idle)
    (hd : s.encode = some d) (hg : s.loop.gotEos = false) (hs : s.sendEos = false) :
    Step s (.caps true) { s with pc := .feeding .setCaps }
  | sinkEosAccepted {d : Nat} (ha : s.element.padsActive = true) (hp : s.pc = .idle)
    (hd : s.encode = some d) :
    Step s (.sinkEos .success .success)
      { s with sendEos := true, history := s.history.accept d }
  | sinkEosRejected {avail ecode : Ecode} (ha : s.element.padsActive = true) (hp : s.pc = .idle) :
    Step s (.sinkEos avail ecode) s
  | chain (ha : s.element.padsActive = true) (hp : s.pc = .idle) : Step s .chain s
  | feedAccepted {k : Destroyer} {d : Nat} (hp : s.pc = .feeding k) (hd : s.encode = some d) :
    Step s (.feedEos .success .success)
      { s with sendEos := true, pc := .waitEos k, history := s.history.accept d }
  | feedRejected {k : Destroyer} {avail ecode : Ecode} (hp : s.pc = .feeding k) :
    Step s (.feedEos avail ecode) { s with pc := .waitEos k }
  | eosWaited {k : Destroyer} (hp : s.pc = .waitEos k) (hg : s.loop.gotEos = true) :
    Step s .eosWaited { s with pc := .joining k }
  | joinedCaps (hp : s.pc = .joining .setCaps) :
    Step s .joined { s.destroyed with pc := .starting }
  | joinedReady (hp : s.pc = .joining .pausedToReady) :
    Step s .joined
      { s.destroyed with element := s.element.change .pausedToReady, pc := .idle }
  | startNotPrepared (hp : s.pc = .starting) : Step s (.startLoop false) { s with pc := .idle }
  | startTerminates (hp : s.pc = .starting) (hr : s.loop.runner.joinable) :
    Step s (.startLoop true) { s with pc := .terminated }
  | startLoop (hp : s.pc = .starting) (hr : s.loop.runner = .none) :
    Step s (.startLoop true) { s with loop := { s.loop with runner := .loop }, pc := .creating }
  | createSucceeds (hp : s.pc = .creating) :
    Step s (.create .success)
      { s with
        loop := { s.loop with handle := some s.history.created }
        pc := .idle
        history :=
          { s.history with
            live := s.history.created :: s.history.live
            created := s.history.created + 1 } }
  | createFails {ecode : Ecode} (hp : s.pc = .creating) (he : ecode ≠ .success) :
    Step s (.create ecode)
      { s with
        loop := { s.loop with handle := none }
        pc := .idle
        history := { s.history with stranded := true } }
  | codecEvent {d : Nat} {type : CbEventType} (hd : d ∈ s.history.live) :
    Step s (.codecEvent d type) (s.handleEvent d type)
  | outputIgnored {d : Nat} (hd : d ∈ s.history.live) (he : s.encode = none) :
    Step s (.outputFailed d) s
  | outputFails {d e : Nat} (hd : d ∈ s.history.live) (he : s.encode = some e) :
    Step s (.outputFailed d)
      { s with
        loop := { s.loop with handle := none }
        aborting := s.aborting + 1
        history := s.history.kill e }
  | outputAborted (ha : 0 < s.aborting) (hp : s.pc.joins = false) :
    Step s .outputAborted s.outputAborted
  | popEos {rest : List CbEventType} (hr : s.loop.runner = .loop)
    (hq : s.loop.eventQueue = .eos :: rest) :
    Step s .pop { s with loop := { s.loop with eventQueue := rest, runner := .notifying } }
  | popAbort {type : CbEventType} {rest : List CbEventType} {d : Nat}
    (hr : s.loop.runner = .loop) (hq : s.loop.eventQueue = type :: rest)
    (ha : type.aborts = true) (hd : s.encode = some d) :
    Step s .pop
      { s with
        loop := { s.loop with eventQueue := rest, handle := none, runner := .notifying }
        history := s.history.kill d }
  | popOther {type : CbEventType} {rest : List CbEventType} (hr : s.loop.runner = .loop)
    (hq : s.loop.eventQueue = type :: rest) (he : type ≠ .eos) :
    Step s .pop { s with loop := { s.loop with eventQueue := rest } }
  | notify (hr : s.loop.runner = .notifying) (hp : s.pc.joins = false) :
    Step s .notify
      { s with
        loop :=
          { s.loop with
            gotEos := true
            runner := .loop
            eosCalls := s.loop.eosCalls + if s.element.state.running then 1 else 0 } }
  | exit (hr : s.loop.runner = .loop) (hq : s.loop.eventQueue = []) (hg : s.loop.gotEos = true) :
    Step s .exit { s with loop := { s.loop with runner := .finished } }

/-! ## The ways through the functions -/

theorem destroyEncoder_cases (s : Cnvideoenc) (k : Destroyer) :
    ((s.loop.gotEos = true ∨ s.sendEos = true ∧ s.encode ≠ none) ∧
      s.destroyEncoder k = { s with pc := .waitEos k }) ∨
    (∃ d, s.encode = some d ∧ s.loop.gotEos = false ∧ s.sendEos = false ∧
      s.destroyEncoder k = { s with pc := .feeding k }) ∨
    (s.encode = none ∧
      s.destroyEncoder k =
        { s with loop := { s.loop with gotEos := true }, pc := .waitEos k }) := by
  unfold destroyEncoder
  cases hg : s.loop.gotEos with
  | true => exact .inl ⟨.inl rfl, rfl⟩
  | false =>
    cases hd : s.encode with
    | none => exact .inr (.inr ⟨rfl, by simp⟩)
    | some d =>
      cases hs : s.sendEos with
      | true => exact .inl ⟨.inr ⟨rfl, nofun⟩, by simp⟩
      | false => exact .inr (.inl ⟨d, rfl, rfl, rfl, by simp⟩)

/-- `feed_eos` has the codec accept an EOS, or changes nothing. -/
theorem feedEos_cases (s : Cnvideoenc) (avail ecode : Ecode) :
    (∃ d, avail = .success ∧ ecode = .success ∧ s.encode = some d ∧
      s.feedEos avail ecode = { s with sendEos := true, history := s.history.accept d }) ∨
    s.feedEos avail ecode = s := by
  cases avail with
  | success =>
    cases ecode with
    | success =>
      cases hd : s.encode with
      | none => exact .inr (by simp [feedEos, hd])
      | some d => exact .inl ⟨d, rfl, rfl, rfl, by simp [feedEos, hd, History.accept]⟩
    | timeout => exact .inr rfl
    | error code => exact .inr rfl
  | timeout => exact .inr rfl
  | error code => exact .inr rfl

theorem next_eq_some : next s l = some t ↔
    s.pc.ended = false ∧ s.Enabled l ∧ t = s.effect l := by
  unfold next
  by_cases h : s.pc.ended = false ∧ s.Enabled l
  · rw [if_pos h, Option.some.injEq]
    exact ⟨fun ht => ⟨h.1, h.2, ht.symm⟩, fun ht => ht.2.2.symm⟩
  · rw [if_neg h]
    exact ⟨fun ht => (by cases ht), fun ht => absurd ⟨ht.1, ht.2.1⟩ h⟩

theorem step_caps {accepted : Bool} (ha : s.element.padsActive = true) (hp : s.pc = .idle) :
    Step s (.caps accepted) (s.setCaps accepted) := by
  unfold setCaps
  cases accepted with
  | false => exact .capsIgnored ha hp
  | true =>
    simp only [Bool.true_eq_false, if_false]
    cases hd : s.encode with
    | none => exact .capsStart ha hp hd
    | some d =>
      simp only [Option.isNone_some, Bool.false_eq_true, if_false]
      rcases destroyEncoder_cases s .setCaps with ⟨hw, he⟩ | ⟨e, hse, hg, hs, he⟩ | ⟨hn, -⟩
      · rw [he]
        exact .capsWait ha hp hw
      · rw [he]
        exact .capsFeed ha hp hse hg hs
      · rw [hd] at hn
        cases hn

theorem step_startLoop {prepared : Bool} (hp : s.pc = .starting) :
    Step s (.startLoop prepared) (s.startLoop prepared) := by
  unfold startLoop
  cases prepared with
  | false => exact .startNotPrepared hp
  | true =>
    simp only [Bool.true_eq_false, if_false]
    by_cases hr : s.loop.runner.joinable
    · rw [if_pos hr]
      exact .startTerminates hp hr
    · rw [if_neg hr]
      exact .startLoop hp (Decidable.not_not.mp hr)

theorem step_pop {loop : EventLoop} (h : s.loop.pop = some loop) : Step s .pop (s.popped loop) := by
  obtain ⟨hr, type, rest, hq, ⟨rfl, rfl⟩ | ⟨ha, hs, rfl⟩ | ⟨he, -, rfl⟩⟩ := EventLoop.pop_cases h
  · have hsame : s.popped { s.loop with eventQueue := rest, runner := .notifying } =
        { s with loop := { s.loop with eventQueue := rest, runner := .notifying } } := by
      unfold popped encode
      cases hd : s.loop.handle <;> simp
    rw [hsame]
    exact .popEos hr hq
  · obtain ⟨d, hd⟩ := Option.isSome_iff_exists.mp hs
    have henc : s.encode = some d := hd
    have hkill : s.popped { s.loop with eventQueue := rest, handle := none, runner := .notifying } =
        { s with
          loop := { s.loop with eventQueue := rest, handle := none, runner := .notifying }
          history := s.history.kill d } := by
      unfold popped
      rw [henc]
      simp [History.kill, eq_comm]
    rw [hkill]
    exact .popAbort hr hq ha henc
  · have hsame : s.popped { s.loop with eventQueue := rest } =
        { s with loop := { s.loop with eventQueue := rest } } := by
      unfold popped encode
      cases hd : s.loop.handle <;> simp
    rw [hsame]
    exact .popOther hr hq he

/-- **Every step of the element is one of `Step`.** -/
theorem next_step (h : next s l = some t) : s.pc.ended = false ∧ Step s l t := by
  obtain ⟨hend, hen, rfl⟩ := next_eq_some.mp h
  refine ⟨hend, ?_⟩
  cases l with
  | changeState u => exact .changeState hen.1 hen.2
  | pausedToReady =>
    show Step s .pausedToReady (s.destroyEncoder .pausedToReady)
    rcases destroyEncoder_cases s .pausedToReady with ⟨hw, he⟩ | ⟨d, hd, hg, hs, he⟩ | ⟨hd, he⟩
    · rw [he]
      exact .toReadyWait hen hw
    · rw [he]
      exact .toReadyFeed hen hd hg hs
    · rw [he]
      exact .toReadyNone hen hd
  | finalize =>
    show Step s .finalize s.finalize
    unfold finalize
    by_cases hr : s.loop.runner.joinable
    · rw [if_pos hr]
      exact .finalizeTerminates hen.1 hen.2 hr
    · rw [if_neg hr]
      exact .finalize hen.1 hen.2 (Decidable.not_not.mp hr)
  | caps accepted => exact step_caps hen.1 hen.2
  | sinkEos avail ecode =>
    show Step s (.sinkEos avail ecode) (s.feedEos avail ecode)
    rcases feedEos_cases s avail ecode with ⟨d, rfl, rfl, hd, he⟩ | he
    · rw [he]
      exact .sinkEosAccepted hen.1 hen.2 hd
    · rw [he]
      exact .sinkEosRejected hen.1 hen.2
  | chain => exact .chain hen.1 hen.2
  | feedEos avail ecode =>
    cases hp : s.pc with
    | feeding k =>
      simp only [effect, hp]
      rcases feedEos_cases s avail ecode with ⟨d, rfl, rfl, hd, he⟩ | he
      · rw [he]
        exact .feedAccepted hp hd
      · rw [he]
        exact .feedRejected hp
    | _ => simp [Enabled, hp, Pc.feeds] at hen
  | eosWaited =>
    cases hp : s.pc with
    | waitEos k =>
      simp only [effect, hp]
      exact .eosWaited hp hen.2
    | _ => simp [Enabled, hp, Pc.waits] at hen
  | joined =>
    cases hp : s.pc with
    | joining k =>
      cases k with
      | setCaps =>
        simp only [effect, hp]
        exact .joinedCaps hp
      | pausedToReady =>
        simp only [effect, hp]
        exact .joinedReady hp
    | _ => simp [Enabled, hp, Pc.joins] at hen
  | startLoop prepared => exact step_startLoop hen
  | create ecode =>
    cases ecode with
    | success => exact .createSucceeds hen
    | timeout => exact .createFails hen (by simp)
    | error code => exact .createFails hen (by simp)
  | codecEvent d type => exact .codecEvent hen
  | outputFailed d =>
    show Step s (.outputFailed d) s.outputFailed
    unfold Cnvideoenc.outputFailed
    cases he : s.encode with
    | none => exact .outputIgnored hen he
    | some e => exact .outputFails hen he
  | outputAborted => exact .outputAborted hen.1 hen.2
  | pop =>
    obtain ⟨loop, hl⟩ := Option.isSome_iff_exists.mp hen
    simp only [effect, hl, Option.map_some, Option.getD_some]
    exact step_pop hl
  | notify =>
    simp only [effect, EventLoop.notify_of_notifying hen.1, Option.getD_some]
    exact .notify hen.1 hen.2
  | exit =>
    obtain ⟨loop, hl⟩ := Option.isSome_iff_exists.mp hen
    obtain ⟨hr, hq, hg, rfl⟩ := EventLoop.exit_eq_some.mp hl
    simp only [effect, hl, Option.getD_some]
    exact .exit hr hq hg

end CambriconGst.Gst.Cnvideoenc
