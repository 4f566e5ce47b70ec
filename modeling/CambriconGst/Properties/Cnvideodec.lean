import CambriconGst.Gst.Cnvideodec
import CambriconGst.Properties.EventLoop

/-!
# Steps of the video decoder element

* `Cnvideodec.Step`: all that a step can do, one constructor for each way through the source
* `Cnvideodec.next_step`: every step of the element is one of them
-/

namespace CambriconGst.Gst.Cnvideodec

open Lib Easycodec

variable {s t : Cnvideodec} {l : Label}

/-- In `change_state`, on the way to `NULL`. -/
def Pc.toNull : Pc → Bool
  | .feeding .readyToNull => true
  | .waitEos .readyToNull => true
  | .joining .readyToNull => true
  | _ => false

/-- Handling a caps event. -/
def Pc.inCaps : Pc → Bool
  | .feeding .setCaps => true
  | .waitEos .setCaps => true
  | .joining .setCaps => true
  | .starting => true
  | .creating => true
  | .settingAttributes => true
  | _ => false

/-- The codec accepts an EOS. -/
def History.accept (h : History) (d : Nat) : History :=
  { h with accepted := true, owed := d :: h.owed }

/-- The codec instance is destroyed or aborted. -/
def History.kill (h : History) (d : Nat) (stranded : Bool) : History :=
  { h with live := h.live.filter (· ≠ d), stranded }

inductive Step (s : Cnvideodec) : Label → Cnvideodec → Prop
  | changeState {t : Transition} (ht : t ≠ .readyToNull) (hc : s.element.Can (s.pc = .idle) t) :
    Step s (.changeState t) { s with element := s.element.change t }
  | toNull {env : Bool} (hc : s.element.Can (s.pc = .idle) .readyToNull) (hd : s.decode = none) :
    Step s (.readyToNull env) { s with element := s.element.change .readyToNull }
  | toNullNoEnv {d : Nat} (hc : s.element.Can (s.pc = .idle) .readyToNull)
    (hd : s.decode = some d) :
    Step s (.readyToNull false)
      { s with
        element := s.element.change .readyToNull
        history := { s.history with stranded := true } }
  | toNullWait {d : Nat} (hc : s.element.Can (s.pc = .idle) .readyToNull)
    (hd : s.decode = some d) (hw : s.loop.gotEos = true ∨ s.sendEos = true) :
    Step s (.readyToNull true) { s with pc := .waitEos .readyToNull }
  | toNullFeed {d : Nat} (hc : s.element.Can (s.pc = .idle) .readyToNull)
    (hd : s.decode = some d) (hg : s.loop.gotEos = false) (hs : s.sendEos = false) :
    Step s (.readyToNull true) { s with pc := .feeding .readyToNull }
  | finalize (hn : s.element.state = .null) (hp : s.pc = .idle) (hr : s.loop.runner = .none) :
    Step s .finalize { s with pc := .finalized }
  | finalizeTerminates (hn : s.element.state = .null) (hp : s.pc = .idle)
    (hr : s.loop.runner.joinable) :
    Step s .finalize { s with pc := .terminated }
  | capsIgnored {accepted env : Bool} (ha : s.element.padsActive = true) (hp : s.pc = .idle) :
    Step s (.caps accepted env) s
  | capsStart {env : Bool} (ha : s.element.padsActive = true) (hp : s.pc = .idle)
    (hd : s.decode = none) :
    Step s (.caps true env) { s with pc := .starting }
  | capsWait {d : Nat} (ha : s.element.padsActive = true) (hp : s.pc = .idle)
    (hd : s.decode = some d) (hw : s.loop.gotEos = true ∨ s.sendEos = true) :
    Step s (.caps true true) { s with pc := .waitEos .setCaps }
  | capsFeed {d : Nat} (ha : s.element.padsActive = true) (hp : s.pc = .idle)
    (hd : s.decode = some d) (hg : s.loop.gotEos = false) (hs : s.sendEos = false) :
    Step s (.caps true true) { s with pc := .feeding .setCaps }
  | sinkEosAccepted {d : Nat} (ha : s.element.padsActive = true) (hp : s.pc = .idle)
    (hd : s.decode = some d) :
    Step s (.sinkEos .success)
      { s with
        sendEos := true
        history := { s.history.accept d with upstreamEos := s.history.upstreamEos + 1 } }
  | sinkEosRejected {ecode : Ecode} (ha : s.element.padsActive = true) (hp : s.pc = .idle)
    (hr : ¬(ecode = .success ∧ s.decode.isSome = true)) :
    Step s (.sinkEos ecode)
      { s with sendEos := true }
  | chain (ha : s.element.padsActive = true) (hp : s.pc = .idle) : Step s .chain s
  | feedAccepted {k : Destroyer} {d : Nat} (hp : s.pc = .feeding k) (hd : s.decode = some d) :
    Step s (.feedEos .success)
      { s with sendEos := true, pc := .waitEos k, history := s.history.accept d }
  | feedRejected {k : Destroyer} {ecode : Ecode} (hp : s.pc = .feeding k)
    (hr : ¬(ecode = .success ∧ s.decode.isSome = true)) :
    Step s (.feedEos ecode) { s with sendEos := true, pc := .waitEos k }
  | eosWaited {k : Destroyer} (hp : s.pc = .waitEos k) (hg : s.loop.gotEos = true) :
    Step s .eosWaited { s with pc := .joining k }
  | joinedCaps (hp : s.pc = .joining .setCaps) :
    Step s .joined { s.destroyed with pc := .starting }
  | joinedNull (hp : s.pc = .joining .readyToNull) :
    Step s .joined
      { s.destroyed with element := s.element.change .readyToNull, pc := .idle }
  | startNoEnv (hp : s.pc = .starting) :
    Step s (.startLoop false)
      { s with
        sendEos := false
        loop := { s.loop with gotEos := false }
        pc := .idle
        history := { s.history with accepted := false } }
  | startTerminates (hp : s.pc = .starting) (hr : s.loop.runner.joinable) :
    Step s (.startLoop true)
      { s with
        sendEos := false
        loop := { s.loop with gotEos := false }
        pc := .terminated
        history := { s.history with accepted := false } }
  | startLoop (hp : s.pc = .starting) (hr : s.loop.runner = .none) :
    Step s (.startLoop true)
      { s with
        sendEos := false
        loop := { s.loop with gotEos := false, runner := .loop }
        pc := .creating
        history := { s.history with accepted := false } }
  | createSucceeds (hp : s.pc = .creating) :
    Step s (.create .success)
      { s with
        loop := { s.loop with handle := some s.history.created }
        pc := .settingAttributes
        history :=
          { s.history with
            live := s.history.created :: s.history.live
            created := s.history.created + 1 } }
  | createFails {ecode : Ecode} (hp : s.pc = .creating) (he : ecode ≠ .success) :
    Step s (.create ecode)
      { s with
        loop := { s.loop with handle := none }
        pc := .idle
        history := { s.history with stranded := true } }
  | attributesSet (hp : s.pc = .settingAttributes) :
    Step s (.setAttributes .success) { s with pc := .idle }
  | attributesFail {ecode : Ecode} (hp : s.pc = .settingAttributes) (he : ecode ≠ .success) :
    Step s (.setAttributes ecode)
      { s with
        loop := { s.loop with handle := none }
        pc := .idle
        history := { s.history with stranded := true } }
  | codecEvent {d : Nat} {type : CbEventType} (hd : d ∈ s.history.live) :
    Step s (.codecEvent d type) (s.handleEvent d type)
  | popEos {rest : List CbEventType} (hr : s.loop.runner = .loop)
    (hq : s.loop.eventQueue = .eos :: rest) :
    Step s .pop { s with loop := { s.loop with eventQueue := rest, runner := .notifying } }
  | popAbort {type : CbEventType} {rest : List CbEventType} {d : Nat}
    (hr : s.loop.runner = .loop) (hq : s.loop.eventQueue = type :: rest)
    (ha : type.aborts = true) (hd : s.decode = some d) :
    Step s .pop
      { s with
        loop := { s.loop with eventQueue := rest, handle := none, runner := .notifying }
        history := s.history.kill d true }
  | popOther {type : CbEventType} {rest : List CbEventType} (hr : s.loop.runner = .loop)
    (hq : s.loop.eventQueue = type :: rest) (he : type ≠ .eos)
    (hn : type.aborts = true → s.decode = none) :
    Step s .pop { s with loop := { s.loop with eventQueue := rest } }
  | notify (hr : s.loop.runner = .notifying) (hp : s.pc.joins = false) :
    Step s .notify
      { s with
        loop :=
          { s.loop with
            gotEos := true
            runner := .loop
            eosCalls := s.loop.eosCalls + if s.element.state.running then 1 else 0 } }
  | exit (hr : s.loop.runner = .loop) (hq : s.loop.eventQueue = []) (hg : s.loop.gotEos = true) :
    Step s .exit { s with loop := { s.loop with runner := .finished } }

/-! ## The ways through the functions -/

theorem destroyDecoder_of_some {d : Nat} (hd : s.decode = some d) (k : Destroyer) :
    ((s.loop.gotEos = true ∨ s.sendEos = true) ∧
      s.destroyDecoder k = { s with pc := .waitEos k }) ∨
    (s.loop.gotEos = false ∧ s.sendEos = false ∧
      s.destroyDecoder k = { s with pc := .feeding k }) := by
  unfold destroyDecoder
  cases hg : s.loop.gotEos with
  | true => exact .inl ⟨.inl rfl, rfl⟩
  | false =>
    cases hs : s.sendEos with
    | true => exact .inl ⟨.inr rfl, by simp [hd]⟩
    | false => exact .inr ⟨rfl, rfl, by simp [hd]⟩

theorem feed_of_not (s : Cnvideodec) {ecode : Ecode}
    (h : ¬(ecode = .success ∧ s.decode.isSome = true)) : s.feed ecode = s := by
  cases ecode with
  | success =>
    cases hd : s.decode with
    | none => simp [feed, hd]
    | some d => exact absurd ⟨rfl, by rw [hd]; rfl⟩ h
  | timeout => rfl
  | error code => rfl

theorem feed_success {d : Nat} (hd : s.decode = some d) :
    s.feed .success = { s with history := s.history.accept d } := by
  simp [feed, hd, History.accept]

theorem next_eq_some : next s l = some t ↔
    s.pc.ended = false ∧ s.Enabled l ∧ t = s.effect l := by
  unfold next
  by_cases h : s.pc.ended = false ∧ s.Enabled l
  · rw [if_pos h, Option.some.injEq]
    exact ⟨fun ht => ⟨h.1, h.2, ht.symm⟩, fun ht => ht.2.2.symm⟩
  · rw [if_neg h]
    exact ⟨fun ht => (by cases ht), fun ht => absurd ⟨ht.1, ht.2.1⟩ h⟩

theorem step_readyToNull {env : Bool} (hc : s.element.Can (s.pc = .idle) .readyToNull) :
    Step s (.readyToNull env) (s.readyToNull env) := by
  unfold readyToNull
  cases hd : s.decode with
  | none => exact .toNull hc hd
  | some d =>
    cases env with
    | false => exact .toNullNoEnv hc hd
    | true =>
      rcases destroyDecoder_of_some hd .readyToNull with ⟨hw, he⟩ | ⟨hg, hs, he⟩
      · simp only [Option.isNone_some, Bool.false_eq_true, Bool.true_eq_false, if_false]
        rw [he]
        exact .toNullWait hc hd hw
      · simp only [Option.isNone_some, Bool.false_eq_true, Bool.true_eq_false, if_false]
        rw [he]
        exact .toNullFeed hc hd hg hs

theorem step_caps {accepted env : Bool} (ha : s.element.padsActive = true) (hp : s.pc = .idle) :
    Step s (.caps accepted env) (s.setCaps accepted env) := by
  unfold setCaps
  cases accepted with
  | false => exact .capsIgnored ha hp
  | true =>
    simp only [Bool.true_eq_false, if_false]
    cases hd : s.decode with
    | none => exact .capsStart ha hp hd
    | some d =>
      cases env with
      | false => exact .capsIgnored ha hp
      | true =>
        simp only [Option.isNone_some, Bool.false_eq_true, Bool.true_eq_false, if_false]
        rcases destroyDecoder_of_some hd .setCaps with ⟨hw, he⟩ | ⟨hg, hs, he⟩
        · rw [he]
          exact .capsWait ha hp hd hw
        · rw [he]
          exact .capsFeed ha hp hd hg hs

theorem step_startLoop {env : Bool} (hp : s.pc = .starting) :
    Step s (.startLoop env) (s.startLoop env) := by
  unfold startLoop
  cases env with
  | false => exact .startNoEnv hp
  | true =>
    simp only [Bool.true_eq_false, if_false]
    by_cases hr : s.loop.runner.joinable
    · rw [if_pos hr]
      exact .startTerminates hp hr
    · rw [if_neg hr]
      exact .startLoop hp (Decidable.not_not.mp hr)

theorem step_pop {loop : EventLoop} (h : s.loop.pop = some loop) : Step s .pop (s.popped loop) := by
  obtain ⟨hr, type, rest, hq, ⟨rfl, rfl⟩ | ⟨ha, hs, rfl⟩ | ⟨he, hn, rfl⟩⟩ := EventLoop.pop_cases h
  · have hsame : s.popped { s.loop with eventQueue := rest, runner := .notifying } =
        { s with loop := { s.loop with eventQueue := rest, runner := .notifying } } := by
      unfold popped decode
      cases hd : s.loop.handle <;> simp
    rw [hsame]
    exact .popEos hr hq
  · obtain ⟨d, hd⟩ := Option.isSome_iff_exists.mp hs
    have hdec : s.decode = some d := hd
    have hkill : s.popped { s.loop with eventQueue := rest, handle := none, runner := .notifying } =
        { s with
          loop := { s.loop with eventQueue := rest, handle := none, runner := .notifying }
          history := s.history.kill d true } := by
      unfold popped
      rw [hdec]
      simp [History.kill, eq_comm]
    rw [hkill]
    exact .popAbort hr hq ha hdec
  · have hsame : s.popped { s.loop with eventQueue := rest } =
        { s with loop := { s.loop with eventQueue := rest } } := by
      unfold popped decode
      cases hd : s.loop.handle <;> simp
    rw [hsame]
    exact .popOther hr hq he hn

/-- **Every step of the element is one of `Step`.** -/
theorem next_step (h : next s l = some t) : s.pc.ended = false ∧ Step s l t := by
  obtain ⟨hend, hen, rfl⟩ := next_eq_some.mp h
  refine ⟨hend, ?_⟩
  cases l with
  | changeState u => exact .changeState hen.1 hen.2
  | readyToNull env => exact step_readyToNull hen
  | finalize =>
    show Step s .finalize s.finalize
    unfold finalize
    by_cases hr : s.loop.runner.joinable
    · rw [if_pos hr]
      exact .finalizeTerminates hen.1 hen.2 hr
    · rw [if_neg hr]
      exact .finalize hen.1 hen.2 (Decidable.not_not.mp hr)
  | caps accepted env => exact step_caps hen.1 hen.2
  | sinkEos ecode =>
    show Step s (.sinkEos ecode) { s.feed ecode with
      sendEos := true
      history := { (s.feed ecode).history with
        upstreamEos :=
          s.history.upstreamEos + if ecode = .success ∧ s.decode.isSome then 1 else 0 } }
    by_cases ha : ecode = .success ∧ s.decode.isSome = true
    · rw [if_pos ha]
      obtain ⟨rfl, hs⟩ := ha
      obtain ⟨d, hd⟩ := Option.isSome_iff_exists.mp hs
      rw [feed_success hd]
      exact .sinkEosAccepted hen.1 hen.2 hd
    · rw [if_neg ha, feed_of_not s ha]
      exact .sinkEosRejected hen.1 hen.2 ha
  | chain => exact .chain hen.1 hen.2
  | feedEos ecode =>
    cases hp : s.pc with
    | feeding k =>
      simp only [effect, hp]
      by_cases ha : ecode = .success ∧ s.decode.isSome = true
      · obtain ⟨rfl, hs⟩ := ha
        obtain ⟨d, hd⟩ := Option.isSome_iff_exists.mp hs
        rw [feed_success hd]
        exact .feedAccepted hp hd
      · rw [feed_of_not s ha]
        exact .feedRejected hp ha
    | _ => simp [Enabled, hp, Pc.feeds] at hen
  | eosWaited =>
    cases hp : s.pc with
    | waitEos k =>
      simp only [effect, hp]
      exact .eosWaited hp hen.2
    | _ => simp [Enabled, hp, Pc.waits] at hen
  | joined =>
    cases hp : s.pc with
    | joining k =>
      cases k with
      | setCaps =>
        simp only [effect, hp]
        exact .joinedCaps hp
      | readyToNull =>
        simp only [effect, hp]
        exact .joinedNull hp
    | _ => simp [Enabled, hp, Pc.joins] at hen
  | startLoop env => exact step_startLoop hen
  | create ecode =>
    cases ecode with
    | success => exact .createSucceeds hen
    | timeout => exact .createFails hen (by simp)
    | error code => exact .createFails hen (by simp)
  | setAttributes ecode =>
    cases ecode with
    | success => exact .attributesSet hen
    | timeout => exact .attributesFail hen (by simp)
    | error code => exact .attributesFail hen (by simp)
  | codecEvent d type => exact .codecEvent hen
  | pop =>
    obtain ⟨loop, hl⟩ := Option.isSome_iff_exists.mp hen
    simp only [effect, hl, Option.map_some, Option.getD_some]
    exact step_pop hl
  | notify =>
    simp only [effect, EventLoop.notify_of_notifying hen.1, Option.getD_some]
    exact .notify hen.1 hen.2
  | exit =>
    obtain ⟨loop, hl⟩ := Option.isSome_iff_exists.mp hen
    obtain ⟨hr, hq, hg, rfl⟩ := EventLoop.exit_eq_some.mp hl
    simp only [effect, hl, Option.getD_some]
    exact .exit hr hq hg

end CambriconGst.Gst.Cnvideodec
