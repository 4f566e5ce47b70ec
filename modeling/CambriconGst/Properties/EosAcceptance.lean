import CambriconGst.Easycodec.EncodeHandler
import CambriconGst.Properties.Cnvideodec
import CambriconGst.Properties.DecodeHandler

/-!
# Whether the EOS flags follow what the codec accepted

`DecodeHandler` sets its flag after the codec has returned success. `EncodeHandler` and the video
decoder element set theirs before, or whatever the codec returned, and wait for the answer to an EOS
that no codec has.

* `eos_follows_acceptance`: the flags follow in every run of the decode handler, and in the
  runs of the other two whose EOS is accepted
* `eos_not_accepted`: what a refused EOS leaves in the other two
-/

namespace CambriconGst.Easycodec

open Lib

/--
The flag says that EOS was sent only when the codec accepted one, and the owner waits for the EOS
event only then.
-/
structure EosKept (sent waits accepted : Bool) : Prop where
  sent : sent = true → accepted = true
  waits : waits = true → accepted = true

namespace DecodeHandler

variable {s t : DecodeHandler} {l : Label}

/-- An EOS feed that fails or times out. -/
def Refuses (s : DecodeHandler) : Label → Prop
  | .feedEos ecode => s.sendEos = false ∧ ecode ≠ .success
  | .destructor ecode => s.pc = .feeding ∧ s.sendEos = false ∧ ecode ≠ .success
  | _ => False

/-- The destructor is past its own EOS feed. -/
def Pc.asked : Pc → Bool
  | .locking => true
  | .checking => true
  | .wait _ => true
  | _ => false

structure Asking (s : DecodeHandler) : Prop where
  sent : s.sendEos = true → s.history.accepted = true
  asked : s.pc.asked = true → s.gotEos = true ∨ s.sendEos = true
  waits : s.pc.waits = true → s.sendEos = true

theorem asking_initial : Asking initial where
  sent := nofun
  asked := nofun
  waits := nofun

@[simp]
theorem Pc.asked_notified (p : Pc) : p.notified.asked = p.asked := by
  cases p <;> rfl

@[simp]
theorem Pc.waits_notified (p : Pc) : p.notified.waits = p.waits := by
  cases p <;> rfl

theorem Asking.kept (h : Asking s) : EosKept s.sendEos s.pc.waits s.history.accepted where
  sent := h.sent
  waits := fun hw => h.sent (h.waits hw)

theorem Asking.setGotEos (h : Asking s) : Asking s.setGotEos where
  sent := h.sent
  asked := fun _ => .inl rfl
  waits := fun hw => h.waits ((Pc.waits_notified s.pc).symm.trans hw)

theorem Asking.dropHandle (h : Asking s) : Asking s.dropHandle :=
  { h with }

/-- The destructor's thread goes to a place where nothing was asked. -/
theorem Asking.goto (h : Asking s) {pc : Pc} {handle : Bool} (ha : pc.asked = false)
    (hw : pc.waits = false) : Asking { s with pc, handle } where
  sent := h.sent
  asked := fun he => absurd (ha.symm.trans he) (by decide)
  waits := fun he => absurd (hw.symm.trans he) (by decide)

theorem Asking.destruct (h : Asking s) : Asking s.destruct where
  sent := h.sent
  asked := nofun
  waits := nofun

/-- The destructor's thread goes on to wait, or towards it. -/
theorem Asking.ask (h : Asking s) {pc : Pc} (ha : s.gotEos = true ∨ s.sendEos = true)
    (hw : pc.waits = true → s.sendEos = true) : Asking { s with pc } :=
  { h with asked := fun _ => ha, waits := hw }

theorem Step.asking (h : Step s l t) (hs : Asking s) : Asking t := by
  cases h with
  | @createSucceeds jpegDecode hp =>
    cases jpegDecode with
    | true => exact hs.goto rfl rfl
    | false => exact hs.goto rfl rfl
  | createFails hp | attributesFail hp | destruct hp => exact hs.destruct
  | attributesSet hp => exact hs.goto rfl rfl
  | eosAccepted hp hse =>
    exact { sent := fun _ => rfl, asked := fun _ => .inr rfl, waits := fun _ => rfl }
  | eosSentBefore hp hse | eosRefused hp hse he | abortsNothing hh => exact hs
  | aborts hh => exact { hs.dropHandle with }
  | abortNotifies ha hp => exact { hs.setGotEos with }
  | receiveEvent hh hr => exact { hs with }
  | runnerLocks hr | runnerEnds hr hq hg | runnerWaits hr | runnerTakes hr hq
  | runnerNotified hr hq hg | runnerTests hr hq hg | runnerBlocks hr | runnerWakes hr
  | handlesEos hr | handlesOther hr => exact { hs with }
  | handlesAbort hr ha hh => exact { hs.dropHandle with }
  | runnerNotifies hr hp => exact { hs.setGotEos with }
  | entersGot hp hg => exact hs.ask (.inl hg) nofun
  | entersFeeding hp hg hse hh | feedThrows hp hse he | checksGot hp hg | leaves hp hh =>
    exact hs.goto rfl rfl
  | entersNoHandle hp hh => exact { hs with asked := fun _ => .inl rfl, waits := nofun }
  | entersSent hp hse => exact hs.ask (.inr hse) nofun
  | feeds hp hse => exact { sent := fun _ => rfl, asked := fun _ => .inr rfl, waits := nofun }
  | feedsNothing hp hse => exact hs.ask (.inr hse) nofun
  | locks hp => exact hs.ask (hs.asked (by rw [hp]; rfl)) nofun
  | checksWaits hp hg =>
    -- EOS was not got, so it was sent
    have ha := hs.asked (by rw [hp]; rfl)
    refine hs.ask ha fun _ => ha.resolve_left fun hgot => ?_
    exact absurd (hg.symm.trans hgot) (by decide)
  | tests hp hg | blocks hp | wakes hp =>
    exact hs.ask (hs.asked (by rw [hp]; rfl)) fun _ => hs.waits (by rw [hp]; rfl)
  | notifies hp | joins hp hr | destroys hp hh =>
    exact { hs with asked := nofun, waits := nofun }

theorem reachable_asking (h : Reachable (· = initial) (System.Step next) s) : Asking s := by
  refine Reachable.invariant (I := Asking) ?_ ?_ h
  · rintro s rfl
    exact asking_initial
  · rintro s t hs ⟨l, -, hn⟩
    exact (next_step hn).2.asking hs

/-- An EOS that was refused can be fed again. -/
theorem sendEos_of_refuses (hn : next s l = some t) (hr : s.Refuses l) : t.sendEos = false := by
  obtain ⟨-, hst⟩ := next_step hn
  cases hst with
  | eosRefused hp hse he => exact hse
  | feedThrows hp hse he => exact hse
  | eosAccepted hp hse => exact absurd rfl hr.2
  | eosSentBefore hp hse => exact absurd (hr.1.symm.trans hse) (by decide)
  | feeds hp hse => exact absurd rfl hr.2.2
  | feedsNothing hp hse => exact absurd (hr.2.1.symm.trans hse) (by decide)
  | entersGot | entersFeeding | entersNoHandle | entersSent | locks | checksGot | checksWaits
  | tests | blocks | wakes | notifies | joins | destroys | leaves => exact hr.2.1
  | _ => exact hr.elim

end DecodeHandler

namespace EncodeHandler

variable {s t : EncodeHandler} {l : Label}

/-- The codec accepts the frame that is sent. -/
def Codes.Accepted (c : Codes) : Prop :=
  c.waitAvailInputBuf = .success ∧ c.copy = none ∧ c.feedFrame = .success

/-- An EOS for which a buffer was got is accepted. -/
def Codes.AcceptedOnceFed (c : Codes) : Prop :=
  c.waitAvailInputBuf = .success → c.copy = none → c.feedFrame = .success

/-- An EOS feed that fails or times out. -/
def Refuses (s : EncodeHandler) : Label → Prop
  | .sendDataCPU true codes => s.sendEos = false ∧ ¬codes.Accepted
  | .feedEos codes => s.sendEos = false ∧ ¬codes.Accepted
  | _ => False

/--
The condition on a step: an EOS for which a buffer was got is accepted; and the destructor, when it
has got no buffer for its own, finds `got_eos_` set.
-/
def AcceptsEos (s : EncodeHandler) : Label → Prop
  | .sendDataCPU true codes => s.sendEos = false → codes.AcceptedOnceFed
  | .feedEos codes => s.sendEos = false → codes.AcceptedOnceFed
  | .check => s.loop.gotEos = true ∨ s.sendEos = true
  | _ => True

def Pc.waits : Pc → Bool
  | .waiting => true
  | _ => false

structure Sending (s : EncodeHandler) : Prop where
  sent : s.sendEos = true ↔ s.accepted = true
  waits : s.pc.waits = true → s.sendEos = true

theorem Sending.kept (h : Sending s) : EosKept s.sendEos s.pc.waits s.accepted where
  sent := h.sent.mp
  waits := fun hw => h.sent.mp (h.waits hw)

/-- What sending a frame leaves: nothing new, or EOS sent, and accepted or not. -/
theorem sendData_cases (call : String) (s : EncodeHandler) (eos : Bool) (codes : Codes) :
    ((eos = true → ¬codes.Accepted ∧ codes.AcceptedOnceFed) ∧
      (sendData call s eos codes).2 = s) ∨
    (eos = true ∧ codes.Accepted ∧
      (sendData call s eos codes).2 = { s with sendEos := true, accepted := true }) ∨
    (eos = true ∧ ¬codes.AcceptedOnceFed ∧
      (sendData call s eos codes).2 = { s with sendEos := true }) := by
  have hunfed : ∀ c : Codes, c.waitAvailInputBuf ≠ .success ∨ c.copy ≠ none →
      ¬c.Accepted ∧ c.AcceptedOnceFed := fun c hc =>
    ⟨fun ha => hc.elim (fun h => h ha.1) fun h => h ha.2.1,
      fun hav hcopy => absurd hc (not_or.mpr ⟨not_not.mpr hav, not_not.mpr hcopy⟩)⟩
  obtain ⟨avail, copy, feed⟩ := codes
  cases avail with
  | success =>
    cases copy with
    | none =>
      cases eos with
      | false => exact .inl ⟨nofun, by cases feed <;> rfl⟩
      | true =>
        cases feed with
        | success => exact .inr (.inl ⟨rfl, ⟨rfl, rfl, rfl⟩, rfl⟩)
        | timeout => exact .inr (.inr ⟨rfl, fun h => (by cases h rfl rfl), rfl⟩)
        | error code => exact .inr (.inr ⟨rfl, fun h => (by cases h rfl rfl), rfl⟩)
    | some e => exact .inl ⟨fun _ => hunfed _ (.inr nofun), rfl⟩
  | timeout => exact .inl ⟨fun _ => hunfed _ (.inl nofun), rfl⟩
  | error code => exact .inl ⟨fun _ => hunfed _ (.inl nofun), rfl⟩

theorem sendDataCPU_cases (s : EncodeHandler) (eos : Bool) (codes : Codes) :
    ((eos = true → s.sendEos = false → ¬codes.Accepted ∧ codes.AcceptedOnceFed) ∧
      (s.sendDataCPU eos codes).2 = s) ∨
    (eos = true ∧ codes.Accepted ∧
      (s.sendDataCPU eos codes).2 = { s with sendEos := true, accepted := true }) ∨
    (eos = true ∧ s.sendEos = false ∧ ¬codes.AcceptedOnceFed ∧
      (s.sendDataCPU eos codes).2 = { s with sendEos := true }) := by
  unfold sendDataCPU
  by_cases hs : s.sendEos = true
  · rw [if_pos hs]
    exact .inl ⟨fun _ hn => absurd (hn.symm.trans hs) (by decide), rfl⟩
  · have hn := eq_false_of_ne_true hs
    rw [if_neg hs]
    have hsend : ∀ call, ((eos = true → s.sendEos = false →
        ¬codes.Accepted ∧ codes.AcceptedOnceFed) ∧ (sendData call s eos codes).2 = s) ∨
        (eos = true ∧ codes.Accepted ∧
          (sendData call s eos codes).2 = { s with sendEos := true, accepted := true }) ∨
        (eos = true ∧ s.sendEos = false ∧ ¬codes.AcceptedOnceFed ∧
          (sendData call s eos codes).2 = { s with sendEos := true }) := by
      intro call
      rcases sendData_cases call s eos codes with ⟨hr, he⟩ | ⟨heos, ha, he⟩ | ⟨heos, ha, he⟩
      · exact .inl ⟨fun h _ => hr h, he⟩
      · exact .inr (.inl ⟨heos, ha, he⟩)
      · exact .inr (.inr ⟨heos, hn, ha, he⟩)
    by_cases hj : s.jpegEncode = true
    · rw [if_pos hj]
      exact hsend _
    · rw [if_neg hj]
      exact hsend _

/-- The destructor sends EOS and goes on, or is left. -/
theorem feedEos_eq (s : EncodeHandler) (codes : Codes) :
    ∃ pc : Pc, pc.waits = false ∧ s.feedEos codes = { (s.sendDataCPU true codes).2 with pc } := by
  unfold feedEos
  rcases s.sendDataCPU true codes with ⟨_ | _, u⟩
  · exact ⟨.caught, rfl, rfl⟩
  · exact ⟨.checking, rfl, rfl⟩

theorem sending_initial {jpegEncode : Bool} : Sending (initial jpegEncode) where
  sent := ⟨nofun, nofun⟩
  waits := nofun

namespace Sending

theorem goto (h : Sending s) {loop : EventLoop} {pc : Pc} {aborting : Nat}
    (hw : pc.waits = true → s.sendEos = true) : Sending { s with loop, pc, aborting } where
  sent := h.sent
  waits := hw

theorem keep (h : Sending s) {loop : EventLoop} {aborting : Nat} :
    Sending { s with loop, aborting } :=
  h.goto h.waits

theorem destruct (h : Sending s) : Sending s.destruct := by
  unfold EncodeHandler.destruct
  by_cases hg : s.loop.gotEos = true
  · rw [if_pos hg]
    exact h.goto nofun
  · rw [if_neg hg]
    by_cases hf : s.sendEos = false ∧ s.loop.handle.isSome = true
    · rw [if_pos hf]
      exact h.goto nofun
    · rw [if_neg hf]
      by_cases hd : s.loop.handle.isNone = true
      · rw [if_pos hd]
        exact h.goto nofun
      · rw [if_neg hd]
        -- there is a handle and no EOS was got, so it was sent
        refine h.goto fun _ => Bool.of_not_eq_false fun hs => hf ⟨hs, ?_⟩
        exact Option.isNone_eq_false_iff.mp (eq_false_of_ne_true hd)

/-- EOS is sent, and accepted when a buffer was got for it. -/
theorem send (h : Sending s) {eos : Bool} {codes : Codes}
    (hc : eos = true → s.sendEos = false → codes.AcceptedOnceFed) :
    Sending (s.sendDataCPU eos codes).2 := by
  rcases sendDataCPU_cases s eos codes with ⟨-, he⟩ | ⟨-, -, he⟩ | ⟨heos, hn, hna, -⟩
  · rw [he]
    exact h
  · rw [he]
    exact { sent := ⟨fun _ => rfl, fun _ => rfl⟩, waits := fun _ => rfl }
  · exact absurd (hc heos hn) hna

theorem next (h : Sending s) (hc : s.AcceptsEos l) (hn : EncodeHandler.next s l = some t) :
    Sending t := by
  obtain ⟨-, hstep⟩ := Option.ite_none_left_eq_some.mp hn
  cases l with
  | sendDataCPU eos codes =>
    obtain ⟨-, ⟨⟩⟩ := Option.ite_none_right_eq_some.mp hstep
    refine h.send fun heos => ?_
    rw [heos] at hc
    exact hc
  | abortEncoder =>
    cases hstep
    unfold abortEncoder
    split
    · exact h.keep
    · exact h
  | abortNotifies =>
    obtain ⟨-, ⟨⟩⟩ := Option.ite_none_right_eq_some.mp hstep
    exact h.keep
  | receiveEvent type =>
    obtain ⟨-, ⟨⟩⟩ := Option.ite_none_right_eq_some.mp hstep
    exact h.keep
  | pop =>
    obtain ⟨loop, -, rfl⟩ := Option.map_eq_some_iff.mp hstep
    exact h.keep
  | notify =>
    obtain ⟨-, hmap⟩ := Option.ite_none_right_eq_some.mp hstep
    obtain ⟨loop, -, rfl⟩ := Option.map_eq_some_iff.mp hmap
    exact h.keep
  | exit =>
    obtain ⟨loop, -, rfl⟩ := Option.map_eq_some_iff.mp hstep
    exact h.keep
  | destruct =>
    obtain ⟨-, ⟨⟩⟩ := Option.ite_none_right_eq_some.mp hstep
    exact h.destruct
  | feedEos codes =>
    obtain ⟨-, ⟨⟩⟩ := Option.ite_none_right_eq_some.mp hstep
    obtain ⟨pc, hw, he⟩ := feedEos_eq s codes
    rw [he]
    exact (h.send fun _ => hc).goto fun hp => absurd (hw.symm.trans hp) (by decide)
  | check =>
    obtain ⟨-, ⟨⟩⟩ := Option.ite_none_right_eq_some.mp hstep
    refine h.goto fun hw => hc.resolve_left fun hg => ?_
    rw [if_pos hg] at hw
    cases hw
  | eosWaited =>
    obtain ⟨-, ⟨⟩⟩ := Option.ite_none_right_eq_some.mp hstep
    exact h.goto nofun
  | joined =>
    obtain ⟨-, ⟨⟩⟩ := Option.ite_none_right_eq_some.mp hstep
    exact h.goto nofun

end Sending

theorem reachable_sending {jpegEncode : Bool}
    (h : Reachable (· = initial jpegEncode) (System.StepWhere next AcceptsEos) s) : Sending s := by
  refine Reachable.invariant (I := Sending) ?_ ?_ h
  · rintro s rfl
    exact sending_initial
  · rintro s t hs ⟨l, hc, hn⟩
    exact hs.next hc hn

/-- An EOS that is refused where the condition is met can be fed again. -/
theorem sendEos_of_refuses (hn : next s l = some t) (hc : s.AcceptsEos l) (hr : s.Refuses l) :
    t.sendEos = false := by
  have hsend : ∀ codes : Codes, (s.sendEos = false → codes.AcceptedOnceFed) →
      s.sendEos = false → ¬codes.Accepted → (s.sendDataCPU true codes).2.sendEos = false := by
    intro codes hc hs hna
    rcases sendDataCPU_cases s true codes with ⟨-, he⟩ | ⟨-, ha, -⟩ | ⟨-, -, hno, -⟩
    · rw [he]
      exact hs
    · exact absurd ha hna
    · exact absurd (hc hs) hno
  obtain ⟨-, hstep⟩ := Option.ite_none_left_eq_some.mp hn
  cases l with
  | sendDataCPU eos codes =>
    obtain ⟨-, ⟨⟩⟩ := Option.ite_none_right_eq_some.mp hstep
    cases eos with
    | false => exact hr.elim
    | true => exact hsend codes hc hr.1 hr.2
  | feedEos codes =>
    obtain ⟨-, ⟨⟩⟩ := Option.ite_none_right_eq_some.mp hstep
    obtain ⟨pc, -, he⟩ := feedEos_eq s codes
    rw [he]
    exact hsend codes hc hr.1 hr.2
  | _ => exact hr.elim

/-- A step that does not meet the condition sets the flag for nothing, or waits for nothing. -/
theorem Sending.not_kept (h : Sending s) (hn : EncodeHandler.next s l = some t)
    (hc : ¬s.AcceptsEos l) : ¬EosKept t.sendEos t.pc.waits t.accepted := by
  have hsend : ∀ codes : Codes, ¬(s.sendEos = false → codes.AcceptedOnceFed) →
      (s.sendDataCPU true codes).2 = { s with sendEos := true } ∧ s.accepted = false := by
    intro codes hno
    obtain ⟨hs, hna⟩ := Classical.not_imp.mp hno
    have hacc : s.accepted = false := eq_false_of_ne_true fun ha =>
      absurd (hs.symm.trans (h.sent.mpr ha)) (by decide)
    rcases sendDataCPU_cases s true codes with ⟨hr, -⟩ | ⟨-, ha, -⟩ | ⟨-, -, -, he⟩
    · exact absurd (hr rfl hs).2 hna
    · exact absurd (fun _ _ => ha.2.2) hna
    · exact ⟨he, hacc⟩
  obtain ⟨-, hstep⟩ := Option.ite_none_left_eq_some.mp hn
  intro hk
  cases l with
  | sendDataCPU eos codes =>
    obtain ⟨-, ⟨⟩⟩ := Option.ite_none_right_eq_some.mp hstep
    cases eos with
    | false => exact hc trivial
    | true =>
      obtain ⟨he, hacc⟩ := hsend codes hc
      rw [he] at hk
      exact absurd (hacc.symm.trans (hk.sent rfl)) (by decide)
  | feedEos codes =>
    obtain ⟨-, ⟨⟩⟩ := Option.ite_none_right_eq_some.mp hstep
    obtain ⟨pc, -, hpc⟩ := feedEos_eq s codes
    obtain ⟨he, hacc⟩ := hsend codes hc
    rw [hpc, he] at hk
    exact absurd (hacc.symm.trans (hk.sent rfl)) (by decide)
  | check =>
    obtain ⟨-, ⟨⟩⟩ := Option.ite_none_right_eq_some.mp hstep
    obtain ⟨hg, hs⟩ := not_or.mp hc
    have hacc : s.accepted = true := by
      refine hk.waits ?_
      rw [if_neg hg]
      rfl
    exact hs (h.sent.mpr hacc)
  | _ => exact hc trivial

end EncodeHandler

end CambriconGst.Easycodec

namespace CambriconGst.Gst.Cnvideodec

open Lib Easycodec

variable {s t : Cnvideodec} {l : Label}

/-- The codec accepts the EOS that is fed. -/
def Accepts (s : Cnvideodec) (ecode : Ecode) : Prop :=
  ecode = .success ∧ s.decode.isSome = true

/-- An EOS feed that fails or times out. -/
def Refuses (s : Cnvideodec) : Label → Prop
  | .sinkEos ecode => ¬s.Accepts ecode
  | .feedEos ecode => ¬s.Accepts ecode
  | _ => False

/-- The condition on a step: an EOS that is fed is accepted. -/
def AcceptsEos (s : Cnvideodec) : Label → Prop
  | .sinkEos ecode => s.Accepts ecode
  | .feedEos ecode => s.Accepts ecode
  | _ => True

structure Sending (s : Cnvideodec) : Prop where
  sent : s.sendEos = true → s.history.accepted = true
  waits : s.pc.waits = true → s.loop.gotEos = true ∨ s.sendEos = true

theorem sending_initial : Sending initial where
  sent := nofun
  waits := nofun

theorem Sending.kept (h : Sending s) :
    EosKept s.sendEos (s.pc.waits && !s.loop.gotEos) s.history.accepted where
  sent := h.sent
  waits := fun hw => by
    rw [Bool.and_eq_true, Bool.not_eq_true'] at hw
    refine h.sent ((h.waits hw.1).resolve_left fun hg => ?_)
    exact absurd (hw.2.symm.trans hg) (by decide)

theorem Sending.goto (h : Sending s) {pc : Pc}
    (hw : pc.waits = true → s.loop.gotEos = true ∨ s.sendEos = true) : Sending { s with pc } where
  sent := h.sent
  waits := hw

theorem Step.sending (h : Step s l t) (hc : s.AcceptsEos l) (hs : Sending s) : Sending t := by
  cases h with
  | changeState ht hcan | toNull hcan hd | toNullNoEnv hcan hd | codecEvent hd
  | popEos hr hqueue | popAbort hr hqueue ha hd | popOther hr hqueue he hn | exit hr hqueue hg =>
    exact { hs with }
  | toNullWait hcan hd hw | capsWait ha hp hd hw => exact hs.goto fun _ => hw
  | toNullFeed hcan hd hg hse | capsFeed ha hp hd hg hse | capsStart ha hp hd
  | finalize hn hp hr | finalizeTerminates hn hp hr | eosWaited hp hg | attributesSet hp =>
    exact hs.goto nofun
  | capsIgnored ha hp | chain ha hp => exact hs
  | sinkEosAccepted ha hp hd => exact { sent := fun _ => rfl, waits := fun _ => .inr rfl }
  | sinkEosRejected ha hp hr => exact absurd hc hr
  | feedAccepted hp hd => exact { sent := fun _ => rfl, waits := fun _ => .inr rfl }
  | feedRejected hp hr => exact absurd hc hr
  | joinedCaps hp | joinedNull hp => exact { hs with waits := nofun }
  | startNoEnv hp | startTerminates hp hr | startLoop hp hr =>
    exact { sent := nofun, waits := nofun }
  | createSucceeds hp | createFails hp he | attributesFail hp he => exact { hs with waits := nofun }
  | notify hr hp => exact { hs with waits := fun _ => .inl rfl }

theorem reachable_sending (h : Reachable (· = initial) (System.StepWhere next AcceptsEos) s) :
    Sending s := by
  refine Reachable.invariant (I := Sending) ?_ ?_ h
  · rintro s rfl
    exact sending_initial
  · rintro s t hs ⟨l, hc, hn⟩
    exact (next_step hn).2.sending hc hs

theorem not_refuses (hc : s.AcceptsEos l) : ¬s.Refuses l := by
  cases l with
  | sinkEos ecode => exact fun hr => hr hc
  | feedEos ecode => exact fun hr => hr hc
  | _ => exact id

/-- The flag is set for an EOS that was refused. -/
theorem sendEos_of_not_acceptsEos (hn : next s l = some t) (hc : ¬s.AcceptsEos l) :
    s.Refuses l ∧ t.sendEos = true := by
  obtain ⟨-, hst⟩ := next_step hn
  cases hst with
  | sinkEosAccepted ha hp hd => exact ⟨hc, rfl⟩
  | sinkEosRejected ha hp hr => exact ⟨hc, rfl⟩
  | feedAccepted hp hd => exact ⟨hc, rfl⟩
  | feedRejected hp hr => exact ⟨hc, rfl⟩
  | _ => exact absurd trivial hc

end CambriconGst.Gst.Cnvideodec

namespace CambriconGst

open Lib Easycodec Gst

/--
**The EOS bookkeeping follows what the codec accepted**: in every run of the decode handler; and in
the runs of the encode handler and of the video decoder element whose steps all meet the condition,
after which a step keeps it so only if it meets the condition.
-/
theorem eos_follows_acceptance (d : DecodeHandler) (e : EncodeHandler) (c : Cnvideodec) :
    (Reachable (· = DecodeHandler.initial) (System.Step DecodeHandler.next) d →
      EosKept d.sendEos d.pc.waits d.history.accepted ∧
        ∀ l t, DecodeHandler.next d l = some t → d.Refuses l → t.sendEos = false) ∧
    (∀ jpegEncode, Reachable (· = EncodeHandler.initial jpegEncode)
        (System.StepWhere EncodeHandler.next EncodeHandler.AcceptsEos) e →
      EosKept e.sendEos e.pc.waits e.accepted ∧
        ∀ l t, EncodeHandler.next e l = some t →
          (EosKept t.sendEos t.pc.waits t.accepted ∧ (e.Refuses l → t.sendEos = false) ↔
            e.AcceptsEos l)) ∧
    (Reachable (· = Cnvideodec.initial)
        (System.StepWhere Cnvideodec.next Cnvideodec.AcceptsEos) c →
      EosKept c.sendEos (c.pc.waits && !c.loop.gotEos) c.history.accepted ∧
        ∀ l t, Cnvideodec.next c l = some t →
          (EosKept t.sendEos (t.pc.waits && !t.loop.gotEos) t.history.accepted ∧
            (c.Refuses l → t.sendEos = false) ↔ c.AcceptsEos l)) := by
  refine ⟨fun h => ?_, fun jpegEncode h => ?_, fun h => ?_⟩
  · exact ⟨(DecodeHandler.reachable_asking h).kept,
      fun l t hn hr => DecodeHandler.sendEos_of_refuses hn hr⟩
  · have hs := EncodeHandler.reachable_sending h
    refine ⟨hs.kept, fun l t hn => ⟨fun hk => ?_, fun hc => ?_⟩⟩
    · exact Classical.byContradiction fun hc => hs.not_kept hn hc hk.1
    · exact ⟨(hs.next hc hn).kept, EncodeHandler.sendEos_of_refuses hn hc⟩
  · have hs := Cnvideodec.reachable_sending h
    refine ⟨hs.kept, fun l t hn => ⟨fun hk => ?_, fun hc => ?_⟩⟩
    · refine Classical.byContradiction fun hc => ?_
      obtain ⟨hr, hsent⟩ := Cnvideodec.sendEos_of_not_acceptsEos hn hc
      exact absurd (hsent.symm.trans (hk.2 hr)) (by decide)
    · exact ⟨((Cnvideodec.next_step hn).2.sending hc hs).kept,
        fun hr => absurd hr (Cnvideodec.not_refuses hc)⟩

/-- A handler whose user sends a frame and EOS, both accepted. -/
theorem eos_follows_acceptance_sample : ∃ s, System.run EncodeHandler.next
      (EncodeHandler.initial false)
      [.sendDataCPU false ⟨.success, none, .success⟩, .sendDataCPU true ⟨.timeout, none, .success⟩,
        .sendDataCPU true ⟨.success, none, .success⟩, .destruct] = some s ∧
    s.pc = .waiting ∧ EosKept s.sendEos s.pc.waits s.accepted := by
  have hm : System.Meets EncodeHandler.next EncodeHandler.AcceptsEos (EncodeHandler.initial false)
      [.sendDataCPU false ⟨.success, none, .success⟩, .sendDataCPU true ⟨.timeout, none, .success⟩,
        .sendDataCPU true ⟨.success, none, .success⟩, .destruct] :=
    ⟨trivial, fun _ => nofun, fun _ _ _ => rfl, trivial, trivial⟩
  exact ⟨_, rfl, rfl, ((eos_follows_acceptance DecodeHandler.initial _ Cnvideodec.initial).2.1 false
    (System.reachable_of_meets (Reachable.of_init rfl) rfl hm)).1⟩

/--
The encode handler's flag stays set when its EOS times out; its destructor waits after it got no
buffer for its own; and the element waits for the answer to an EOS that was refused.
-/
theorem eos_not_accepted :
    (∃ s, System.run EncodeHandler.next (EncodeHandler.initial false)
        [.sendDataCPU true ⟨.success, none, .timeout⟩] = some s ∧
      s.sendEos = true ∧ s.accepted = false) ∧
    (∃ s, System.run EncodeHandler.next (EncodeHandler.initial false)
        [.destruct, .feedEos ⟨.timeout, none, .success⟩, .check] = some s ∧
      s.pc = .waiting ∧ s.accepted = false) ∧
    ∃ s, System.run Cnvideodec.next Cnvideodec.initial
        [.changeState .nullToReady, .changeState .activatePads, .changeState .readyToPaused,
          .changeState .pausedToPlaying, .caps true true, .startLoop true, .create .success,
          .setAttributes .success, .sinkEos (.error 1), .caps true true] = some s ∧
      s.sendEos = true ∧ s.pc = .waitEos .setCaps ∧ s.loop.gotEos = false ∧
      s.history.accepted = false :=
  ⟨⟨_, rfl, rfl, rfl⟩, ⟨_, rfl, rfl, rfl⟩, ⟨_, rfl, rfl, rfl, rfl, rfl⟩⟩

end CambriconGst
