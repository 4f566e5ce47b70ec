import CambriconGst.Properties.Cnvideodec

/-!
# The event loop thread of the video decoder element

The thread is started before the codec is created, and joined by the caps event or the state change
that finds a decoder. A thread that is left without one is never joined.

* `Cnvideodec.KeepsThread`: the condition on a step
* `Cnvideodec.step_keeps_iff`: from the states reached by such steps, a step keeps the thread and
  the codec instances exactly when it meets the condition
-/

namespace CambriconGst.Gst.Cnvideodec

open Lib Easycodec

variable {s t : Cnvideodec} {l : Label}

/--
No joinable thread was overwritten or destroyed, and every codec instance that was created is
destroyed, aborted, or held.
-/
structure Keeps (s : Cnvideodec) : Prop where
  running : s.pc ≠ .terminated
  held : ∀ d ∈ s.history.live, s.decode = some d
  finalized : s.pc = .finalized → s.history.live = []

/--
The condition on a step: the element neither starts an event loop nor is finalized after one was
left behind, and the attributes of a codec that is there are set.
-/
def KeepsThread (s : Cnvideodec) : Label → Prop
  | .startLoop true => s.history.stranded = false
  | .finalize => s.history.stranded = false
  | .setAttributes ecode => ecode = .success ∨ s.decode = none
  | _ => True

def Pc.stage : Pc → Stage
  | .starting => .starting
  | .creating => .creating
  | .settingAttributes => .settingAttributes
  | _ => .elsewhere

theorem Pc.stage_of_destroying {pc : Pc} (h : pc.waits = true ∨ pc.joins = true) :
    pc.stage = .elsewhere := by
  cases pc with
  | waitEos k => rfl
  | joining k => rfl
  | _ => exact h.elim nofun nofun

/-- What is known between steps that meet the condition. -/
structure Sound (s : Cnvideodec) : Prop where
  attended : Attended s.loop s.history.live s.history.stranded s.pc.stage
  running : s.pc ≠ .terminated
  null : s.element.state = .null → s.pc = .idle → s.decode ≠ none → s.history.stranded = true
  pads : s.pc.inCaps = true → s.element.padsActive = true
  down : s.pc.toNull = true → s.element.padsActive = false
  active : s.element.padsActive = true → s.element.state ≠ .null
  final : s.pc = .finalized → ¬s.loop.runner.joinable

theorem sound_initial : Sound initial where
  attended := .initial rfl rfl
  running := by decide
  null := fun _ _ h => absurd rfl h
  pads := nofun
  down := nofun
  active := nofun
  final := nofun

namespace Sound

theorem keeps (h : Sound s) : Keeps s where
  running := h.running
  held := h.attended.held
  finalized := by
    intro hp
    refine List.eq_nil_iff_forall_not_mem.mpr fun d hd => h.final hp (h.attended.looped ?_)
    rw [h.attended.held d hd]
    exact nofun

/-- When the element can be finalized, what is there to be joined was left. -/
theorem joinable_iff_of_null (h : Sound s) (hn : s.element.state = .null) (hp : s.pc = .idle) :
    s.loop.runner.joinable ↔ s.history.stranded = true := by
  refine ⟨fun hj => ?_, h.attended.stranded⟩
  by_cases hd : s.decode = none
  · exact (h.attended.joinable_iff hd (by rw [hp]; exact nofun)).mp hj
  · exact h.null hn hp hd

/-- The thread goes on to a place where nothing is started. -/
theorem goto (h : Sound s) {pc : Pc} (hs : s.pc.stage ≠ .creating) (hstage : pc.stage = .elsewhere)
    (hr : pc ≠ .terminated) (hn : pc = .idle → s.element.state ≠ .null)
    (hpads : pc.inCaps = true → s.element.padsActive = true)
    (hdown : pc.toNull = true → s.element.padsActive = false)
    (hfin : pc = .finalized → ¬s.loop.runner.joinable) : Sound { s with pc } where
  attended := by
    show Attended s.loop s.history.live s.history.stranded pc.stage
    rw [hstage]
    exact h.attended.goto hs
  running := hr
  null := fun he hp => absurd he (hn hp)
  pads := hpads
  down := hdown
  active := h.active
  final := hfin

/-- A step of the event loop or of the codec that changes neither handle nor thread. -/
theorem move (h : Sound s) {loop : EventLoop} {history : History}
    (hh : loop.handle = s.loop.handle) (hj : loop.runner.joinable ↔ s.loop.runner.joinable)
    (hl : history.live = s.history.live) (hs : history.stranded = s.history.stranded) :
    Sound { s with loop, history } where
  attended := by
    show Attended loop history.live history.stranded s.pc.stage
    rw [hl, hs]
    exact h.attended.move hh hj
  running := h.running
  null := fun hn hp hd => hs.trans (h.null hn hp fun he => hd (hh.trans he))
  pads := h.pads
  down := h.down
  active := h.active
  final := fun hp hr => h.final hp (hj.mp hr)

theorem changeState (h : Sound s) {u : Transition} (hu : u ≠ .readyToNull)
    (hc : s.element.Can (s.pc = .idle) u) : Sound { s with element := s.element.change u } := by
  have hpads : s.pc.inCaps = true → (s.element.change u).padsActive = true := by
    intro hp
    have hidle : s.pc ≠ .idle := fun he => by rw [he] at hp; cases hp
    cases u with
    | activatePads => rfl
    | deactivatePads => exact absurd hc.2.2 hidle
    | _ => exact h.pads hp
  have hdown : s.pc.toNull = true → (s.element.change u).padsActive = false := by
    intro hp
    have hidle : s.pc ≠ .idle := fun he => by rw [he] at hp; cases hp
    cases u with
    | activatePads => exact absurd hc.2.2 hidle
    | deactivatePads => rfl
    | _ => exact h.down hp
  have hnull : (s.element.change u).state ≠ .null := by
    cases u with
    | activatePads => exact fun he => absurd (hc.1.symm.trans he) (by decide)
    | deactivatePads => exact fun he => absurd (hc.1.symm.trans he) (by decide)
    | readyToNull => exact absurd rfl hu
    | _ => exact nofun
  exact { h with
    null := fun he => absurd he hnull
    pads := hpads
    down := hdown
    active := fun _ => hnull }

/-- The element's state goes to `NULL`. -/
theorem toNull (h : Sound s) (hc : s.element.Can (s.pc = .idle) .readyToNull) {history : History}
    (ha : Attended s.loop history.live history.stranded s.pc.stage)
    (hd : s.decode ≠ none → history.stranded = true) :
    Sound { s with element := s.element.change .readyToNull, history } where
  attended := ha
  running := h.running
  null := fun _ _ => hd
  pads := fun hp => by
    have hidle : s.pc = .idle := hc.2.2
    rw [hidle] at hp
    cases hp
  down := fun _ => hc.2.1
  active := fun ha => absurd (hc.2.1.symm.trans ha) (by decide)
  final := h.final

/-- The thread is joined and the codec destroyed. -/
theorem joined (h : Sound s) {pc : Pc} {element : Element} (hr : pc ≠ .terminated)
    (hc : ¬(pc.stage = .creating ∨ pc.stage = .settingAttributes))
    (hpads : pc.inCaps = true → element.padsActive = true) (hdown : pc.toNull = false)
    (ha : element.padsActive = true → element.state ≠ .null) :
    Sound { s.destroyed with pc, element } where
  attended := h.attended.joined hc
  running := hr
  null := fun _ _ hd => absurd rfl hd
  pads := hpads
  down := fun hp => absurd (hdown.symm.trans hp) nofun
  active := ha
  final := fun _ hj => hj rfl

/-- There is no codec any more, or there never was; the thread is left. -/
theorem leave (h : Sound s) {loop : EventLoop} {history : History} {pc : Pc}
    (hd : loop.handle = none) (hj : loop.runner.joinable) (hl : history.live = [])
    (hs : history.stranded = true) (hr : pc ≠ .terminated) (hf : pc ≠ .finalized)
    (hp : pc.inCaps = true → s.pc.inCaps = true) (hn : pc.toNull = true → s.pc.toNull = true) :
    Sound { s with loop, history, pc } where
  attended := by
    show Attended loop history.live history.stranded pc.stage
    rw [hl, hs]
    exact .leave hd hj
  running := hr
  null := fun _ _ he => absurd hd he
  pads := fun he => h.pads (hp he)
  down := fun he => h.down (hn he)
  active := h.active
  final := fun he => absurd he hf

/-- The destroying goes on, for the same destroyer. -/
theorem along (h : Sound s) {pc : Pc} (hp : s.pc.stage = .elsewhere)
    (hn : pc.waits = true ∨ pc.joins = true) (hi : pc.inCaps = s.pc.inCaps)
    (ht : pc.toNull = s.pc.toNull) : Sound { s with pc } := by
  have hne {pc' : Pc} (hpc' : ¬(pc'.waits = true ∨ pc'.joins = true)) : pc ≠ pc' :=
    fun he => hpc' (he ▸ hn)
  exact h.goto (by rw [hp]; exact nofun) (Pc.stage_of_destroying hn) (hne (by decide))
    (fun he => absurd he (hne (by decide))) (fun he => h.pads (hi ▸ he)) (fun he => h.down (ht ▸ he))
    fun he => absurd he (hne (by decide))

end Sound

/-! ## Steps -/

theorem Step.sound (h : Step s l t) (hc : s.KeepsThread l) (hs : Sound s) : Sound t := by
  have hidle : s.pc = .idle → s.pc.stage ≠ .creating := fun hp => by rw [hp]; exact nofun
  have hstage {stage : Stage} {pc : Pc} (hp : s.pc = pc) (he : pc.stage = stage) :
      Attended s.loop s.history.live s.history.stranded stage := by
    subst hp he
    exact hs.attended
  cases h with
  | changeState ht hcan => exact hs.changeState ht hcan
  | toNull hcan hd => exact hs.toNull hcan hs.attended fun hne => absurd hd hne
  | toNullNoEnv hcan hd =>
    -- no environment is bound: the call returns before the join, and leaves the thread behind
    exact hs.toNull hcan (hs.attended.strand fun hne => nomatch hd.symm.trans hne) fun _ => rfl
  | toNullWait hcan hd hw =>
    exact hs.goto (hidle hcan.2.2) rfl nofun nofun nofun (fun _ => hcan.2.1) nofun
  | toNullFeed hcan hd hg hse =>
    exact hs.goto (hidle hcan.2.2) rfl nofun nofun nofun (fun _ => hcan.2.1) nofun
  | finalize hn hp hr => exact hs.goto (hidle hp) rfl nofun nofun nofun nofun fun _ hj => hj hr
  | finalizeTerminates hn hp hr =>
    -- a joinable thread at its destructor is one left behind, which the condition excludes
    have hst := (hs.joinable_iff_of_null hn hp).mp hr
    exact absurd (hst.symm.trans hc) (by decide)
  | capsIgnored ha hp => exact hs
  | capsStart ha hp hd =>
    exact { hs with
      attended := hs.attended.start (hidle hp) hd
      running := nofun
      null := nofun
      pads := fun _ => ha
      down := nofun
      final := nofun }
  | capsWait ha hp hd hw => exact hs.goto (hidle hp) rfl nofun nofun (fun _ => ha) nofun nofun
  | capsFeed ha hp hd hg hse => exact hs.goto (hidle hp) rfl nofun nofun (fun _ => ha) nofun nofun
  | sinkEosAccepted ha hp hd => exact { hs with }
  | sinkEosRejected ha hp hr => exact { hs with }
  | chain ha hp => exact hs
  | @feedAccepted k d hp hd =>
    have hgo : Sound { s with pc := .waitEos k } :=
      hs.along (by rw [hp]; rfl) (.inl rfl) (by rw [hp]; cases k <;> rfl)
        (by rw [hp]; cases k <;> rfl)
    exact { hgo with }
  | @feedRejected k ecode hp hr =>
    have hgo : Sound { s with pc := .waitEos k } :=
      hs.along (by rw [hp]; rfl) (.inl rfl) (by rw [hp]; cases k <;> rfl)
        (by rw [hp]; cases k <;> rfl)
    exact { hgo with }
  | @eosWaited k hp hg =>
    exact hs.along (by rw [hp]; rfl) (.inr rfl) (by rw [hp]; cases k <;> rfl)
      (by rw [hp]; cases k <;> rfl)
  | joinedCaps hp =>
    exact hs.joined nofun nofun (fun _ => hs.pads (by rw [hp]; rfl)) rfl hs.active
  | joinedNull hp =>
    have hdown : s.element.padsActive = false := hs.down (by rw [hp]; rfl)
    exact hs.joined nofun nofun nofun rfl fun ha => absurd (hdown.symm.trans ha) (by decide)
  | startNoEnv hp =>
    have hactive := hs.active (hs.pads (by rw [hp]; rfl))
    have hgo : Sound { s with pc := .idle } :=
      hs.goto (by rw [hp]; exact nofun) rfl nofun (fun _ => hactive) nofun nofun nofun
    exact { hgo with attended := hgo.attended.move rfl Iff.rfl }
  | startTerminates hp hr =>
    have hstart := hstage hp rfl
    have hst := (hstart.joinable_iff (hstart.fresh (.inl rfl)) nofun).mp hr
    exact absurd (hst.symm.trans hc) (by decide)
  | startLoop hp hr =>
    exact { hs with
      attended := (hstage hp rfl).startLoop rfl nofun
      running := nofun
      null := nofun
      pads := fun _ => hs.pads (by rw [hp]; rfl)
      down := nofun
      final := nofun }
  | createSucceeds hp =>
    exact { hs with
      attended := (hstage hp rfl).create rfl rfl nofun
      running := nofun
      null := nofun
      pads := fun _ => hs.pads (by rw [hp]; rfl)
      down := nofun
      final := nofun }
  | createFails hp he =>
    -- the loop runs already when the decoder is refused
    have hcreate := hstage hp rfl
    exact hs.leave rfl (hcreate.started (.inl rfl)) (hcreate.live_eq_nil (hcreate.fresh (.inr rfl)))
      rfl nofun nofun nofun nofun
  | attributesSet hp =>
    have hactive := hs.active (hs.pads (by rw [hp]; rfl))
    exact hs.goto (by rw [hp]; exact nofun) rfl nofun (fun _ => hactive) nofun nofun nofun
  | attributesFail hp he =>
    have hset := hstage hp rfl
    exact hs.leave rfl (hset.started (.inr rfl)) (hset.live_eq_nil (hc.resolve_left he)) rfl nofun
      nofun nofun nofun
  | codecEvent hd => exact hs.move rfl Iff.rfl rfl rfl
  | popEos hr hqueue =>
    have hj : s.loop.runner.joinable := by rw [hr]; exact nofun
    exact hs.move rfl ⟨fun _ => hj, fun _ => nofun⟩ rfl rfl
  | popAbort hr hqueue ha hd =>
    have hj : s.loop.runner.joinable := by rw [hr]; exact nofun
    exact hs.leave rfl nofun (hs.attended.filter_live hd) rfl hs.running
      (fun hf => hs.final hf hj) id id
  | popOther hr hqueue he hn => exact hs.move rfl Iff.rfl rfl rfl
  | notify hr hp =>
    have hj : s.loop.runner.joinable := by rw [hr]; exact nofun
    exact hs.move rfl ⟨fun _ => hj, fun _ => nofun⟩ rfl rfl
  | exit hr hqueue hg =>
    -- the loop returns, and its thread stays joinable
    have hj : s.loop.runner.joinable := by rw [hr]; exact nofun
    exact hs.move rfl ⟨fun _ => hj, fun _ => nofun⟩ rfl rfl

theorem reachable_sound (h : Reachable (· = initial) (System.StepWhere next KeepsThread) s) :
    Sound s := by
  refine Reachable.invariant (I := Sound) ?_ ?_ h
  · rintro s rfl
    exact sound_initial
  · rintro s t hs ⟨l, hc, hn⟩
    exact (next_step hn).2.sound hc hs

/-- A step that does not meet the condition loses the thread or a codec instance. -/
theorem Sound.not_keeps (h : Sound s) (hn : next s l = some t) (hc : ¬s.KeepsThread l) :
    ¬Keeps t := by
  obtain ⟨-, hst⟩ := next_step hn
  intro hk
  cases hst with
  | finalize hnull hp hr =>
    have hstr : s.history.stranded = true := by simpa [KeepsThread] using hc
    exact h.attended.stranded hstr hr
  | finalizeTerminates hnull hp hr => exact hk.running rfl
  | startLoop hp hr =>
    have hstr : s.history.stranded = true := by simpa [KeepsThread] using hc
    exact h.attended.stranded hstr hr
  | startTerminates hp hr => exact hk.running rfl
  | attributesFail hp he =>
    -- the codec instance is there, and its handle is dropped
    obtain ⟨d, hd⟩ := Option.ne_none_iff_exists'.mp fun hd => hc (.inr hd)
    exact absurd (hk.held d (h.attended.live d hd)) nofun
  | attributesSet hp => exact hc (.inl rfl)
  | _ => exact hc trivial

/-- **A step keeps the thread and the codec instances exactly when it meets the condition.** -/
theorem step_keeps_iff (h : Reachable (· = initial) (System.StepWhere next KeepsThread) s)
    (hn : next s l = some t) : Keeps t ↔ s.KeepsThread l := by
  have hs := reachable_sound h
  constructor
  · exact fun hk => Classical.byContradiction fun hc => hs.not_keeps hn hc hk
  · exact fun hc => ((next_step hn).2.sound hc hs).keeps

end CambriconGst.Gst.Cnvideodec
