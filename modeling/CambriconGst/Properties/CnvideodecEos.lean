import CambriconGst.Properties.Cnvideodec

/-!
# When the video decoder element pushes EOS

The codec's EOS event answers an EOS that was fed: by upstream, or by the element itself before it
destroys a decoder. Each EOS that is pushed is set against an EOS event from upstream, or a fatal
event, of its own.

* `Cnvideodec.Accounted`: what was pushed and what may still be is no more than what was received
* `Cnvideodec.eos_pushed_after`: runs in which no caps event makes the codec accept the element's
  own EOS
* `Cnvideodec.caps_push_eos`: such a caps event does make the element push EOS
-/

namespace CambriconGst.Gst.Cnvideodec

open Lib Easycodec

variable {s t : Cnvideodec} {l : Label}

/--
The condition on a step: the codec reports an EOS only in answer to one that it accepted, and does
not accept the EOS that a caps event feeds.
-/
def EosAnswers (s : Cnvideodec) : Label → Prop
  | .codecEvent d .eos => d ∈ s.history.owed
  | .feedEos .success => s.pc = .feeding .setCaps → s.decode = none
  | _ => True

/-! ## Ends of the stream -/

/-- An event that is announced, or dropped when there is no decoder to abort. -/
def endsStream (type : CbEventType) : Bool :=
  type = .eos ∨ type.aborts = true

/-- The end that the event loop thread has taken. -/
def taken : Runner → Nat
  | .notifying => 1
  | _ => 0

/-- The ends under way: owed by the codec, queued, or taken by the event loop. -/
def inFlight (s : Cnvideodec) : Nat :=
  s.history.owed.length + s.loop.eventQueue.countP endsStream + taken s.loop.runner

/-- What EOS may be pushed for: EOS events from upstream, and fatal events. -/
def received (s : Cnvideodec) : Nat :=
  s.history.upstreamEos + s.history.fatal

/--
On the way to `NULL` the element feeds an EOS that nothing was received for. The first end that is
announced while it waits is not pushed, and makes up for it.
-/
def allowance : Pc → Bool → Int
  | .feeding .readyToNull, gotEos => if gotEos then -1 else 0
  | .waitEos .readyToNull, gotEos => if gotEos then 0 else 1
  | _, _ => 0

structure Accounted (s : Cnvideodec) : Prop where
  pushed : s.loop.eosCalls ≤ s.received
  calls : (s.loop.eosCalls + s.inFlight : Int) ≤ s.received + allowance s.pc s.loop.gotEos
  ready : s.pc.toNull = true → s.element.state = .ready ∧ s.element.padsActive = false

theorem accounted_initial : Accounted initial where
  pushed := Nat.le_refl 0
  calls := by decide
  ready := fun h => by cases h

theorem allowance_of_toNull {pc : Pc} {gotEos : Bool} (h : pc.toNull = false) :
    allowance pc gotEos = 0 := by
  unfold allowance
  split
  · cases h
  · cases h
  · rfl

theorem allowance_le (pc : Pc) (gotEos : Bool) : allowance pc gotEos ≤ allowance pc true + 1 := by
  unfold allowance
  split
  · cases gotEos <;> decide
  · cases gotEos <;> decide
  · decide

namespace Accounted

/-- The thread goes on, outside a change to `NULL`. -/
theorem goto (h : Accounted s) (hp : s.pc.toNull = false) {pc : Pc}
    (ha : 0 ≤ allowance pc s.loop.gotEos)
    (hr : pc.toNull = true → s.element.state = .ready ∧ s.element.padsActive = false) :
    Accounted { s with pc } := by
  have hcalls := h.calls
  rw [allowance_of_toNull hp] at hcalls
  refine ⟨h.pushed, ?_, hr⟩
  change (s.loop.eosCalls + s.inFlight : Int) ≤ s.received + allowance pc s.loop.gotEos
  omega

/-- The codec is created, joined or given up, and the flags may be reset: no end goes or comes. -/
theorem codec (h : Accounted s) (hp : s.pc.toNull = false) {loop : EventLoop} {pc : Pc}
    {sendEos : Bool} {element : Element} {history : History} (hn : pc.toNull = false)
    (hcalls : loop.eosCalls = s.loop.eosCalls) (hqueue : loop.eventQueue = s.loop.eventQueue)
    (hrun : taken loop.runner ≤ taken s.loop.runner) (howed : history.owed = s.history.owed)
    (hup : history.upstreamEos = s.history.upstreamEos) (hfatal : history.fatal = s.history.fatal) :
    Accounted { element, sendEos, loop, pc, history } := by
  have hold := h.calls
  have hpushed := h.pushed
  rw [allowance_of_toNull hp] at hold
  refine ⟨?_, ?_, fun he => absurd (hn.symm.trans he) (by decide)⟩
  · simp only [received, hcalls, hup, hfatal] at hpushed ⊢
    exact hpushed
  · rw [allowance_of_toNull hn]
    simp only [inFlight, received, hcalls, hqueue, howed, hup, hfatal] at hold ⊢
    omega

theorem changeState (h : Accounted s) {u : Transition} (hu : u ≠ .readyToNull)
    (hc : s.element.Can (s.pc = .idle) u) : Accounted { s with element := s.element.change u } := by
  refine ⟨h.pushed, h.calls, fun hn => ?_⟩
  obtain ⟨hs, ha⟩ := h.ready hn
  have hidle : s.pc ≠ .idle := fun he => by rw [he] at hn; cases hn
  cases u with
  | nullToReady => exact absurd hc.2 hidle
  | activatePads => exact absurd hc.2.2 hidle
  | readyToPaused => exact absurd (ha.symm.trans hc.2) (by decide)
  | pausedToPlaying => exact absurd (ha.symm.trans hc.2) (by decide)
  | playingToPaused => exact absurd (hs.symm.trans hc) (by decide)
  | deactivatePads => exact absurd hc.2.2 hidle
  | pausedToReady => exact absurd hc.2.2 hidle
  | readyToNull => exact absurd rfl hu

/-- The element's own EOS is accepted on the way to `NULL`. -/
theorem feedAccepted (h : Accounted s) {d : Nat} (hp : s.pc = .feeding .readyToNull) :
    Accounted { s with
      sendEos := true, pc := .waitEos .readyToNull, history := s.history.accept d } := by
  have hold := h.calls
  refine ⟨h.pushed, ?_, fun _ => h.ready (by rw [hp]; rfl)⟩
  rw [hp] at hold
  simp only [inFlight, received, History.accept, List.length_cons, allowance] at hold ⊢
  cases hg : s.loop.gotEos <;> simp only [hg, if_true, Bool.false_eq_true, if_false] at hold ⊢ <;>
    push_cast at hold ⊢ <;> omega

theorem feedRejected (h : Accounted s) {k : Destroyer} (hp : s.pc = .feeding k) :
    Accounted { s with sendEos := true, pc := .waitEos k } := by
  have hold := h.calls
  rw [hp] at hold
  cases k with
  | setCaps => exact ⟨h.pushed, hold, fun he => by cases he⟩
  | readyToNull =>
    refine ⟨h.pushed, ?_, fun _ => h.ready (by rw [hp]; rfl)⟩
    refine Int.le_trans hold (Int.add_le_add_left ?_ _)
    simp only [allowance]
    cases s.loop.gotEos <;> decide

theorem eosWaited (h : Accounted s) {k : Destroyer} (hp : s.pc = .waitEos k)
    (hg : s.loop.gotEos = true) : Accounted { s with pc := .joining k } := by
  have hold := h.calls
  rw [hp, hg] at hold
  cases k with
  | setCaps => exact ⟨h.pushed, hold, fun he => by cases he⟩
  | readyToNull => exact ⟨h.pushed, hold, fun _ => h.ready (by rw [hp]; rfl)⟩

/-- The codec reports an event, for which it owed an EOS, or which it is counted for. -/
theorem codecEvent (h : Accounted s) {d : Nat} {type : CbEventType}
    (hc : s.EosAnswers (.codecEvent d type)) : Accounted (s.handleEvent d type) := by
  have hold := h.calls
  refine ⟨?_, ?_, h.ready⟩
  · have hpushed := h.pushed
    simp only [received, handleEvent, EventLoop.receiveEvent] at hpushed ⊢
    omega
  change _ ≤ ((s.handleEvent d type).received : Int) + allowance s.pc s.loop.gotEos
  simp only [inFlight, received, handleEvent, EventLoop.receiveEvent, List.countP_append,
    List.countP_singleton] at hold ⊢
  by_cases he : type = .eos
  · subst he
    have hd : d ∈ s.history.owed := hc
    have hlen := List.length_erase_of_mem hd
    have hpos := List.length_pos_of_mem hd
    simp only [if_true, hlen, endsStream, CbEventType.aborts, true_or, decide_true,
      Bool.false_eq_true, if_false]
    omega
  · have hends : endsStream type = type.aborts := by
      cases ha : type.aborts <;> simp [endsStream, he, ha]
    simp only [if_neg he, hends]
    cases type.aborts <;> simp only [if_true, Bool.false_eq_true, if_false] <;> omega

/-- The event loop goes on, with no more under way than before. -/
theorem move (h : Accounted s) {loop : EventLoop} {history : History}
    (hcalls : loop.eosCalls = s.loop.eosCalls) (hgot : loop.gotEos = s.loop.gotEos)
    (howed : history.owed = s.history.owed) (hup : history.upstreamEos = s.history.upstreamEos)
    (hfatal : history.fatal = s.history.fatal)
    (hle : loop.eventQueue.countP endsStream + taken loop.runner
      ≤ s.loop.eventQueue.countP endsStream + taken s.loop.runner) :
    Accounted { s with loop, history } := by
  have hold := h.calls
  have hpushed := h.pushed
  refine ⟨?_, ?_, h.ready⟩
  · simp only [received, hcalls, hup, hfatal] at hpushed ⊢
    exact hpushed
  · simp only [inFlight, received, hcalls, hgot, howed, hup, hfatal] at hold ⊢
    omega

/-- An end is announced: pushed, or made up for. -/
theorem notify (h : Accounted s) (hr : s.loop.runner = .notifying) :
    Accounted { s with
      loop :=
        { s.loop with
          gotEos := true
          runner := .loop
          eosCalls := s.loop.eosCalls + if s.element.state.running then 1 else 0 } } := by
  have hold := h.calls
  have hpushed := h.pushed
  simp only [inFlight, received, hr, taken] at hold hpushed
  by_cases hn : s.pc.toNull = true
  · have hready : s.element.state.running = false := by rw [(h.ready hn).1]; rfl
    have hallow := allowance_le s.pc s.loop.gotEos
    refine ⟨?_, ?_, h.ready⟩ <;>
      simp only [inFlight, received, taken, hready, Bool.false_eq_true, if_false]
    · exact hpushed
    · omega
  · have hzero {gotEos : Bool} := @allowance_of_toNull s.pc gotEos (by simpa using hn)
    rw [hzero] at hold
    refine ⟨?_, ?_, h.ready⟩ <;> simp only [inFlight, received, taken, hzero]
    · split <;> omega
    · split <;> omega

end Accounted

/-! ## Steps and runs -/

theorem Step.accounted (h : Step s l t) (hc : s.EosAnswers l) (ha : Accounted s) : Accounted t := by
  have hidle : s.pc = .idle → s.pc.toNull = false := fun hp => by rw [hp]; rfl
  cases h with
  | changeState ht hcan => exact ha.changeState ht hcan
  | toNull hcan hd =>
    exact ⟨ha.pushed, ha.calls, fun hn => absurd hn (by simp [hidle hcan.2.2])⟩
  | toNullNoEnv hcan hd =>
    exact ⟨ha.pushed, ha.calls, fun hn => absurd hn (by simp [hidle hcan.2.2])⟩
  | toNullWait hcan hd hw =>
    refine ha.goto (hidle hcan.2.2) ?_ fun _ => ⟨hcan.1, hcan.2.1⟩
    simp only [allowance]
    split <;> decide
  | toNullFeed hcan hd hg hs =>
    refine ha.goto (hidle hcan.2.2) ?_ fun _ => ⟨hcan.1, hcan.2.1⟩
    rw [hg]
    decide
  | finalize hn hp hr => exact ha.goto (hidle hp) (Int.le_refl 0) fun he => by cases he
  | finalizeTerminates hn hp hr => exact ha.goto (hidle hp) (Int.le_refl 0) fun he => by cases he
  | capsIgnored hactive hp => exact ha
  | capsStart hactive hp hd => exact ha.goto (hidle hp) (Int.le_refl 0) fun he => by cases he
  | capsWait hactive hp hd hw => exact ha.goto (hidle hp) (Int.le_refl 0) fun he => by cases he
  | capsFeed hactive hp hd hg hs => exact ha.goto (hidle hp) (Int.le_refl 0) fun he => by cases he
  | sinkEosAccepted hactive hp hd =>
    have hold := ha.calls
    have hpushed := ha.pushed
    rw [hp] at hold
    simp only [inFlight, received] at hold hpushed
    refine ⟨?_, ?_, fun hn => absurd hn (by simp [hidle hp])⟩
    · simp only [received, History.accept]
      omega
    · rw [hp]
      simp only [inFlight, received, History.accept, List.length_cons]
      omega
  | sinkEosRejected hactive hp hr => exact ⟨ha.pushed, ha.calls, ha.ready⟩
  | chain hactive hp => exact ha
  | @feedAccepted k d hp hd =>
    cases k with
    -- the condition on the step: a caps event does not feed an EOS that is accepted
    | setCaps => exact absurd (hd.symm.trans (hc hp)) (Option.some_ne_none d)
    | readyToNull => exact ha.feedAccepted hp
  | feedRejected hp hr => exact ha.feedRejected hp
  | eosWaited hp hg => exact ha.eosWaited hp hg
  -- what the old instance owed goes with it
  | joinedCaps hp =>
    have hjoin : Accounted { s with pc := .starting } := by
      have hold := ha.calls
      rw [hp] at hold
      exact ⟨ha.pushed, hold, fun he => by cases he⟩
    exact hjoin.codec rfl rfl rfl rfl (Nat.zero_le _) rfl rfl rfl
  | joinedNull hp =>
    have hjoin : Accounted { s with pc := .idle } := by
      have hold := ha.calls
      rw [hp] at hold
      exact ⟨ha.pushed, hold, fun he => by cases he⟩
    exact hjoin.codec rfl rfl rfl rfl (Nat.zero_le _) rfl rfl rfl
  | startNoEnv hp => exact ha.codec (by rw [hp]; rfl) rfl rfl rfl (Nat.le_refl _) rfl rfl rfl
  | startTerminates hp hr => exact ha.codec (by rw [hp]; rfl) rfl rfl rfl (Nat.le_refl _) rfl rfl rfl
  | startLoop hp hr => exact ha.codec (by rw [hp]; rfl) rfl rfl rfl (Nat.zero_le _) rfl rfl rfl
  | createSucceeds hp => exact ha.codec (by rw [hp]; rfl) rfl rfl rfl (Nat.le_refl _) rfl rfl rfl
  | createFails hp he => exact ha.codec (by rw [hp]; rfl) rfl rfl rfl (Nat.le_refl _) rfl rfl rfl
  | attributesSet hp => exact ha.goto (by rw [hp]; rfl) (Int.le_refl 0) fun he => by cases he
  | attributesFail hp he =>
    exact ha.codec (by rw [hp]; rfl) rfl rfl rfl (Nat.le_refl _) rfl rfl rfl
  | codecEvent hd => exact ha.codecEvent hc
  | popEos hr hqueue =>
    refine ha.move rfl rfl rfl rfl rfl ?_
    rw [hr, hqueue, List.countP_cons_of_pos (by decide)]
    exact Nat.le_refl _
  | popAbort hr hqueue habort hd =>
    refine ha.move rfl rfl rfl rfl rfl ?_
    rw [hr, hqueue, List.countP_cons_of_pos (by simp [endsStream, habort])]
    exact Nat.le_refl _
  | popOther hr hqueue he hn =>
    refine ha.move rfl rfl rfl rfl rfl (Nat.add_le_add_right ?_ _)
    rw [hqueue, List.countP_cons]
    exact Nat.le_add_right _ _
  | notify hr hp => exact ha.notify hr
  | exit hr hqueue hg =>
    refine ha.move rfl rfl rfl rfl rfl ?_
    rw [hr]
    exact Nat.le_refl _

/--
**Each EOS that is pushed has an EOS event from upstream that the codec accepted, or a fatal event,
of its own**, in every state that runs reach whose steps all meet the condition.
-/
theorem eos_pushed_after (h : Reachable (· = initial) (System.StepWhere next EosAnswers) s) :
    s.loop.eosCalls ≤ s.history.upstreamEos + s.history.fatal := by
  refine Accounted.pushed (Reachable.invariant ?_ ?_ h)
  · rintro s rfl
    exact accounted_initial
  · rintro s t ha ⟨l, hc, hn⟩
    exact (next_step hn).2.accounted hc ha

/-- From `NULL` to `PLAYING`, with the first caps. -/
def firstCaps : List Label :=
  [.changeState .nullToReady, .changeState .activatePads, .changeState .readyToPaused,
    .changeState .pausedToPlaying, .caps true true, .startLoop true, .create .success,
    .setAttributes .success]

/-- A stream that ends, and caps for another. -/
def secondStream : List Label :=
  firstCaps ++ [.sinkEos .success, .codecEvent 0 .eos, .pop, .notify, .caps true true, .exit,
    .eosWaited, .joined, .startLoop true, .create .success, .setAttributes .success]

/-- Caps for a decoder that is fed to, and what follows. -/
def capsFed (decoder : Nat) : List Label :=
  [.caps true true, .feedEos .success, .codecEvent decoder .eos, .pop, .notify]

theorem eos_pushed_after_sample : ∃ s, System.run next initial
      (secondStream ++ [.codecEvent 1 .outOfMemory, .pop, .notify]) = some s ∧
    s.loop.eosCalls = 2 ∧ s.loop.eosCalls ≤ s.history.upstreamEos + s.history.fatal := by
  have hm : System.Meets next EosAnswers initial
      (secondStream ++ [.codecEvent 1 .outOfMemory, .pop, .notify]) :=
    ⟨trivial, trivial, trivial, trivial, trivial, trivial, trivial, trivial, trivial,
      List.mem_cons_self, trivial, trivial, trivial, trivial, trivial, trivial, trivial, trivial,
      trivial, trivial, trivial, trivial, trivial⟩
  exact ⟨_, rfl, by decide,
    eos_pushed_after (System.reachable_of_meets (Reachable.of_init rfl) rfl hm)⟩

/--
Caps in the middle of a stream destroy the decoder, and the element pushes EOS: in the first stream,
and in one after a stream that ended.
-/
theorem caps_push_eos :
    (∃ s, System.run next initial (firstCaps ++ capsFed 0) = some s ∧
      s.loop.eosCalls = 1 ∧ s.history.upstreamEos = 0 ∧ s.history.fatal = 0) ∧
    ∃ s, System.run next initial (secondStream ++ capsFed 1) = some s ∧
      s.loop.eosCalls = 2 ∧ s.history.upstreamEos = 1 ∧ s.history.fatal = 0 :=
  ⟨⟨_, rfl, rfl, rfl, rfl⟩, ⟨_, rfl, rfl, rfl, rfl⟩⟩

end CambriconGst.Gst.Cnvideodec
