import CambriconGst.Properties.Cnvideoenc

/-!
# The event loop thread of the video encoder element

The element joins the thread on the way to `READY`, with an encoder or without one, and in a caps
event that finds an encoder. A caps event that finds none starts another thread.

* `Cnvideoenc.KeepsThread`: the condition on a step
* `Cnvideoenc.step_keeps_iff`: from the states reached by such steps, a step keeps the thread and
  the codec instances exactly when it meets the condition
-/

namespace CambriconGst.Gst.Cnvideoenc

open Lib Easycodec

variable {s t : Cnvideoenc} {l : Label}

/--
No joinable thread was overwritten or destroyed, and every codec instance that was created is
destroyed, aborted, or held.
-/
structure Keeps (s : Cnvideoenc) : Prop where
  running : s.pc ≠ .terminated
  held : ∀ d ∈ s.history.live, s.encode = some d
  finalized : s.pc = .finalized → s.history.live = []

/-- The condition on a step: the element starts no event loop after one was left behind. -/
def KeepsThread (s : Cnvideoenc) : Label → Prop
  | .startLoop true => s.history.stranded = false
  | _ => True

def Pc.stage : Pc → Stage
  | .starting => .starting
  | .creating => .creating
  | _ => .elsewhere

theorem Pc.stage_of_destroying {pc : Pc} (h : pc.waits = true ∨ pc.joins = true) :
    pc.stage = .elsewhere := by
  cases pc with
  | waitEos k => rfl
  | joining k => rfl
  | _ => exact h.elim nofun nofun

/-- What is known between steps that meet the condition. -/
structure Sound (s : Cnvideoenc) : Prop where
  attended : Attended s.loop s.history.live s.history.stranded s.pc.stage
  running : s.pc ≠ .terminated
  pads : s.pc.inCaps = true → s.element.padsActive = true
  ready : s.pc.toReady = true → s.element.state = .paused ∧ s.element.padsActive = false
  active : s.element.padsActive = true → s.element.state ≠ .null
  off : s.element.state.running = false → s.element.padsActive = false → s.loop.runner = .none
  final : s.pc = .finalized → s.loop.runner = .none

theorem sound_initial : Sound initial where
  attended := .initial rfl rfl
  running := by decide
  pads := nofun
  ready := nofun
  active := nofun
  off := fun _ _ => rfl
  final := nofun

namespace Sound

theorem keeps (h : Sound s) : Keeps s where
  running := h.running
  held := h.attended.held
  finalized := by
    intro hp
    cases hd : s.encode with
    | none => exact h.attended.live_eq_nil hd
    | some d => exact absurd (h.final hp) (h.attended.looped fun hne => nomatch hd.symm.trans hne)

/-- An element whose state is `NULL` has joined its thread. -/
theorem runner_of_null (h : Sound s) (hn : s.element.state = .null) : s.loop.runner = .none := by
  refine h.off (by rw [hn]; rfl) ?_
  cases ha : s.element.padsActive with
  | false => rfl
  | true => exact absurd hn (h.active ha)

/-- The thread goes on to a place where nothing is started. -/
theorem goto (h : Sound s) {pc : Pc} (hs : s.pc.stage ≠ .creating) (hstage : pc.stage = .elsewhere)
    (hr : pc ≠ .terminated) (hpads : pc.inCaps = true → s.element.padsActive = true)
    (hready : pc.toReady = true → s.element.state = .paused ∧ s.element.padsActive = false)
    (hfin : pc = .finalized → s.loop.runner = .none) : Sound { s with pc } where
  attended := by
    show Attended s.loop s.history.live s.history.stranded pc.stage
    rw [hstage]
    exact h.attended.goto hs
  running := hr
  pads := hpads
  ready := hready
  active := h.active
  off := h.off
  final := hfin

/-- A step of the event loop or of the codec that changes neither handle nor thread. -/
theorem move (h : Sound s) {loop : EventLoop} {aborting : Nat} {history : History}
    (hh : loop.handle = s.loop.handle) (hj : loop.runner.joinable ↔ s.loop.runner.joinable)
    (hl : history.live = s.history.live) (hs : history.stranded = s.history.stranded) :
    Sound { s with loop, aborting, history } where
  attended := by
    show Attended loop history.live history.stranded s.pc.stage
    rw [hl, hs]
    exact h.attended.move hh hj
  running := h.running
  pads := h.pads
  ready := h.ready
  active := h.active
  off := fun hst ha => Decidable.not_not.mp fun hne => hj.mp hne (h.off hst ha)
  final := fun hp => Decidable.not_not.mp fun hne => hj.mp hne (h.final hp)

theorem changeState (h : Sound s) {u : Transition} (hu : u ≠ .pausedToReady)
    (hc : s.element.Can (s.pc = .idle) u) : Sound { s with element := s.element.change u } := by
  have hpads : s.pc.inCaps = true → (s.element.change u).padsActive = true := by
    intro hp
    have hidle : s.pc ≠ .idle := fun he => by rw [he] at hp; cases hp
    cases u with
    | activatePads => rfl
    | deactivatePads => exact absurd hc.2.2 hidle
    | _ => exact h.pads hp
  have hready : s.pc.toReady = true →
      (s.element.change u).state = .paused ∧ (s.element.change u).padsActive = false := by
    intro hp
    obtain ⟨hst, ha⟩ := h.ready hp
    have hidle : s.pc ≠ .idle := fun he => by rw [he] at hp; cases hp
    cases u with
    | nullToReady => exact absurd hc.2 hidle
    | activatePads => exact absurd hc.2.2 hidle
    | readyToPaused => exact absurd (ha.symm.trans hc.2) (by decide)
    | pausedToPlaying => exact absurd (ha.symm.trans hc.2) (by decide)
    | playingToPaused => exact ⟨rfl, ha⟩
    | deactivatePads => exact absurd hc.2.2 hidle
    | pausedToReady => exact absurd rfl hu
    | readyToNull => exact absurd hc.2.2 hidle
  have hactive : (s.element.change u).padsActive = true → (s.element.change u).state ≠ .null := by
    intro ha
    cases u with
    | activatePads => exact fun he => absurd (hc.1.symm.trans he) (by decide)
    | deactivatePads => cases ha
    | readyToNull => exact absurd (hc.2.1.symm.trans ha) (by decide)
    | _ => exact nofun
  have hoff : (s.element.change u).state.running = false →
      (s.element.change u).padsActive = false → s.loop.runner = .none := by
    intro hst ha
    cases u with
    | nullToReady => exact h.runner_of_null hc.1
    | activatePads => cases ha
    | readyToNull => exact h.off (by rw [hc.1]; rfl) hc.2.1
    | deactivatePads =>
      have hrun : s.element.state.running = false := hst
      rw [hc.1] at hrun
      cases hrun
    | pausedToReady => exact absurd rfl hu
    | _ => cases hst
  exact { h with pads := hpads, ready := hready, active := hactive, off := hoff }

/-- The thread is joined and the codec destroyed. -/
theorem joined (h : Sound s) {pc : Pc} {element : Element} (hr : pc ≠ .terminated)
    (hc : ¬(pc.stage = .creating ∨ pc.stage = .settingAttributes))
    (hpads : pc.inCaps = true → element.padsActive = true) (hready : pc.toReady = false)
    (ha : element.padsActive = true → element.state ≠ .null) :
    Sound { s.destroyed with pc, element } where
  attended := h.attended.joined hc
  running := hr
  pads := hpads
  ready := fun hp => absurd (hready.symm.trans hp) nofun
  active := ha
  off := fun _ _ => rfl
  final := fun _ => rfl

/-- There is no codec any more, or there never was; the thread is left. -/
theorem leave (h : Sound s) {loop : EventLoop} {history : History} {pc : Pc} {aborting : Nat}
    (hd : loop.handle = none) (hj : loop.runner.joinable) (hsj : s.loop.runner.joinable)
    (hl : history.live = []) (hs : history.stranded = true) (hr : pc ≠ .terminated)
    (hf : pc ≠ .finalized) (hp : pc.inCaps = true → s.pc.inCaps = true)
    (hn : pc.toReady = true → s.pc.toReady = true) :
    Sound { s with loop, history, pc, aborting } where
  attended := by
    show Attended loop history.live history.stranded pc.stage
    rw [hl, hs]
    exact .leave hd hj
  running := hr
  pads := fun he => h.pads (hp he)
  ready := fun he => h.ready (hn he)
  active := h.active
  off := fun hst ha => absurd (h.off hst ha) hsj
  final := fun he => absurd he hf

/-- An instance is aborted. -/
theorem kill (h : Sound s) {d : Nat} (hd : s.encode = some d) {loop : EventLoop} {aborting : Nat}
    (hh : loop.handle = none) (hj : loop.runner.joinable) :
    Sound { s with loop, aborting, history := s.history.kill d } := by
  have hsj : s.loop.runner.joinable := h.attended.looped fun hne => nomatch hd.symm.trans hne
  exact h.leave hh hj hsj (h.attended.filter_live hd) rfl h.running (fun hf => hsj (h.final hf)) id id

/-- The destroying goes on, for the same destroyer. -/
theorem along (h : Sound s) {pc : Pc} (hp : s.pc.stage = .elsewhere)
    (hn : pc.waits = true ∨ pc.joins = true) (hi : pc.inCaps = s.pc.inCaps)
    (ht : pc.toReady = s.pc.toReady) : Sound { s with pc } := by
  have hne {pc' : Pc} (hpc' : ¬(pc'.waits = true ∨ pc'.joins = true)) : pc ≠ pc' :=
    fun he => hpc' (he ▸ hn)
  exact h.goto (by rw [hp]; exact nofun) (Pc.stage_of_destroying hn) (hne (by decide))
    (fun he => h.pads (hi ▸ he)) (fun he => h.ready (ht ▸ he)) fun he => absurd he (hne (by decide))

end Sound

/-! ## Steps -/

theorem Step.sound (h : Step s l t) (hc : s.KeepsThread l) (hs : Sound s) : Sound t := by
  have hidle : s.pc = .idle → s.pc.stage ≠ .creating := fun hp => by rw [hp]; exact nofun
  have hstage {stage : Stage} {pc : Pc} (hp : s.pc = pc) (he : pc.stage = stage) :
      Attended s.loop s.history.live s.history.stranded stage := by
    subst hp he
    exact hs.attended
  cases h with
  | changeState ht hcan => exact hs.changeState ht hcan
  | toReadyWait hcan hw =>
    exact hs.goto (hidle hcan.2.2) rfl nofun nofun (fun _ => ⟨hcan.1, hcan.2.1⟩) nofun
  | toReadyFeed hcan hd hg hse =>
    exact hs.goto (hidle hcan.2.2) rfl nofun nofun (fun _ => ⟨hcan.1, hcan.2.1⟩) nofun
  | toReadyNone hcan hd =>
    have hgo : Sound { s with pc := .waitEos .pausedToReady } :=
      hs.goto (hidle hcan.2.2) rfl nofun nofun (fun _ => ⟨hcan.1, hcan.2.1⟩) nofun
    exact hgo.move rfl Iff.rfl rfl rfl
  | finalize hn hp hr => exact hs.goto (hidle hp) rfl nofun nofun nofun fun _ => hr
  | finalizeTerminates hn hp hr => exact absurd (hs.runner_of_null hn) hr
  | capsIgnored ha hp => exact hs
  | capsStart ha hp hd =>
    exact { hs with
      attended := hs.attended.start (hidle hp) hd
      running := nofun
      pads := fun _ => ha
      ready := nofun
      final := nofun }
  | capsWait ha hp hw => exact hs.goto (hidle hp) rfl nofun (fun _ => ha) nofun nofun
  | capsFeed ha hp hd hg hse => exact hs.goto (hidle hp) rfl nofun (fun _ => ha) nofun nofun
  | sinkEosAccepted ha hp hd => exact { hs with }
  | sinkEosRejected ha hp => exact hs
  | chain ha hp => exact hs
  | @feedAccepted k d hp hd =>
    have hgo : Sound { s with pc := .waitEos k } :=
      hs.along (by rw [hp]; rfl) (.inl rfl) (by rw [hp]; cases k <;> rfl)
        (by rw [hp]; cases k <;> rfl)
    exact { hgo with }
  | @feedRejected k avail ecode hp =>
    exact hs.along (by rw [hp]; rfl) (.inl rfl) (by rw [hp]; cases k <;> rfl)
      (by rw [hp]; cases k <;> rfl)
  | @eosWaited k hp hg =>
    exact hs.along (by rw [hp]; rfl) (.inr rfl) (by rw [hp]; cases k <;> rfl)
      (by rw [hp]; cases k <;> rfl)
  | joinedCaps hp =>
    exact hs.joined nofun nofun (fun _ => hs.pads (by rw [hp]; rfl)) rfl hs.active
  | joinedReady hp => exact hs.joined nofun nofun nofun rfl fun _ => nofun
  | startNotPrepared hp =>
    exact hs.goto (by rw [hp]; exact nofun) rfl nofun nofun nofun nofun
  | startTerminates hp hr =>
    have hstart := hstage hp rfl
    have hst := (hstart.joinable_iff (hstart.fresh (.inl rfl)) nofun).mp hr
    exact absurd (hst.symm.trans hc) (by decide)
  | startLoop hp hr =>
    have ha : s.element.padsActive = true := hs.pads (by rw [hp]; rfl)
    exact { hs with
      attended := (hstage hp rfl).startLoop rfl nofun
      running := nofun
      pads := fun _ => ha
      ready := nofun
      off := fun _ hn => absurd (ha.symm.trans hn) (by decide)
      final := nofun }
  | createSucceeds hp =>
    exact { hs with
      attended := (hstage hp rfl).create rfl rfl nofun
      running := nofun
      pads := nofun
      ready := nofun
      final := nofun }
  | createFails hp he =>
    have hcreate := hstage hp rfl
    have hj := hcreate.started (.inl rfl)
    exact hs.leave rfl hj hj (hcreate.live_eq_nil (hcreate.fresh (.inr rfl))) rfl nofun nofun nofun
      nofun
  | codecEvent hd => exact hs.move rfl Iff.rfl rfl rfl
  | outputIgnored hd he => exact hs
  | outputFails hd he =>
    exact hs.kill he rfl (hs.attended.looped fun hne => nomatch he.symm.trans hne)
  | outputAborted ha hp => exact hs.move rfl Iff.rfl rfl rfl
  | popEos hr hqueue =>
    have hj : s.loop.runner.joinable := by rw [hr]; exact nofun
    exact hs.move rfl ⟨fun _ => hj, fun _ => nofun⟩ rfl rfl
  | popAbort hr hqueue ha hd => exact hs.kill hd rfl nofun
  | popOther hr hqueue he => exact hs.move rfl Iff.rfl rfl rfl
  | notify hr hp =>
    have hj : s.loop.runner.joinable := by rw [hr]; exact nofun
    exact hs.move rfl ⟨fun _ => hj, fun _ => nofun⟩ rfl rfl
  | exit hr hqueue hg =>
    have hj : s.loop.runner.joinable := by rw [hr]; exact nofun
    exact hs.move rfl ⟨fun _ => hj, fun _ => nofun⟩ rfl rfl

theorem reachable_sound (h : Reachable (· = initial) (System.StepWhere next KeepsThread) s) :
    Sound s := by
  refine Reachable.invariant (I := Sound) ?_ ?_ h
  · rintro s rfl
    exact sound_initial
  · rintro s t hs ⟨l, hc, hn⟩
    exact (next_step hn).2.sound hc hs

/-- A step that does not meet the condition overwrites the thread. -/
theorem Sound.not_keeps (h : Sound s) (hn : next s l = some t) (hc : ¬s.KeepsThread l) :
    ¬Keeps t := by
  obtain ⟨-, hst⟩ := next_step hn
  intro hk
  cases hst with
  | startLoop hp hr =>
    have hstr : s.history.stranded = true := by simpa [KeepsThread] using hc
    exact h.attended.stranded hstr hr
  | startTerminates hp hr => exact hk.running rfl
  | _ => exact hc trivial

/-- **A step keeps the thread and the codec instances exactly when it meets the condition.** -/
theorem step_keeps_iff (h : Reachable (· = initial) (System.StepWhere next KeepsThread) s)
    (hn : next s l = some t) : Keeps t ↔ s.KeepsThread l := by
  have hs := reachable_sound h
  constructor
  · exact fun hk => Classical.byContradiction fun hc => hs.not_keeps hn hc hk
  · exact fun hc => ((next_step hn).2.sound hc hs).keeps

end CambriconGst.Gst.Cnvideoenc
