import CambriconGst.Properties.Cnvideoenc

/-!
# The EOS flags of the video encoder element

The flags belong to the element and are not reset, so they describe the codec instance only while
nothing has set them before it is created.

* `Cnvideoenc.eos_state_per_instance`: the flags describe the codec instance in runs that create one
  only with both flags unset
* `Cnvideoenc.second_instance_got_eos`: the instance created after an EOS finds `got_eos` set
-/

namespace CambriconGst.Gst.Cnvideoenc

open Lib Easycodec

variable {s t : Cnvideoenc} {l : Label}

/--
While an instance has not delivered its EOS or an abort event, `got_eos` is not set and its event
loop is running, and `send_eos` says that this instance was fed EOS.
-/
def PerInstance (s : Cnvideoenc) : Prop :=
  ∀ d ∈ s.history.live, d ∉ s.history.delivered →
    s.loop.gotEos = false ∧ (s.loop.runner = .loop ∨ s.loop.runner = .notifying) ∧
      (s.sendEos = true → d ∈ s.history.fed)

/-- The condition on a step: an instance is created with both flags unset. -/
def CreatesFresh (s : Cnvideoenc) : Label → Prop
  | .create .success => s.loop.gotEos = false ∧ s.sendEos = false
  | _ => True

/-- Nothing is under way that sets `got_eos`, or aborts the codec. -/
structure Undisturbed (s : Cnvideoenc) : Prop where
  got : s.loop.gotEos = false
  queue : ∀ type ∈ s.loop.eventQueue, type ≠ .eos ∧ type.aborts = false
  aborting : s.aborting = 0

/-- What is known between steps that meet the condition. -/
structure Tracked (s : Cnvideoenc) : Prop where
  held : ∀ d ∈ s.history.live, s.encode = some d
  looped : s.encode ≠ none → s.loop.runner ≠ .none
  fresh : s.pc = .starting ∨ s.pc = .creating → s.encode = none
  joining : s.pc.joins = true → s.loop.gotEos = true
  encodeLt : ∀ d, s.encode = some d → d < s.history.created
  deliveredLt : ∀ d ∈ s.history.delivered, d < s.history.created
  fedLt : ∀ d ∈ s.history.fed, d < s.history.created
  unlooped : s.loop.runner = .none → s.loop.gotEos = false → s.Undisturbed
  creating : s.pc = .creating →
    s.loop.runner ≠ .none ∧ (s.loop.gotEos = false → s.loop.runner = .loop ∧ s.Undisturbed)
  current : ∀ d ∈ s.history.live, d ∉ s.history.delivered →
    s.Undisturbed ∧ s.loop.runner = .loop ∧ (s.sendEos = true → d ∈ s.history.fed)

theorem tracked_initial : Tracked initial where
  held := fun _ h => absurd h List.not_mem_nil
  looped := fun h => absurd rfl h
  fresh := fun _ => rfl
  joining := nofun
  encodeLt := nofun
  deliveredLt := fun _ h => absurd h List.not_mem_nil
  fedLt := fun _ h => absurd h List.not_mem_nil
  unlooped := fun _ _ =>
    { got := rfl, queue := fun _ h => absurd h List.not_mem_nil, aborting := rfl }
  creating := nofun
  current := fun _ h => absurd h List.not_mem_nil

namespace Tracked

theorem perInstance (h : Tracked s) : PerInstance s := by
  intro d hd hu
  obtain ⟨hun, hr, hf⟩ := h.current d hd hu
  exact ⟨hun.got, .inl hr, hf⟩

theorem live_eq_nil (h : Tracked s) (hd : s.encode = none) : s.history.live = [] := by
  refine List.eq_nil_iff_forall_not_mem.mpr fun d hmem => ?_
  rw [h.held d hmem] at hd
  cases hd

/-- The thread goes on to a place where nothing is started. -/
theorem goto (h : Tracked s) {pc : Pc} (hf : pc = .starting → s.encode = none)
    (hc : pc ≠ .creating) (hj : pc.joins = true → s.loop.gotEos = true) : Tracked { s with pc } :=
  { h with
    fresh := fun he => hf (he.resolve_right hc)
    joining := hj
    unlooped := fun hr hg => { h.unlooped hr hg with }
    creating := fun he => absurd he hc
    current := fun d hd hu => by
      obtain ⟨hun, hr, hs⟩ := h.current d hd hu
      exact ⟨{ hun with }, hr, hs⟩ }

/-- The element's state changes. -/
theorem changeElement (h : Tracked s) (element : Element) : Tracked { s with element } :=
  { h with
    unlooped := fun hr hg => { h.unlooped hr hg with }
    creating := fun hp => by
      obtain ⟨hr, hun⟩ := h.creating hp
      exact ⟨hr, fun hg => ⟨(hun hg).1, { (hun hg).2 with }⟩⟩
    current := fun d hd hu => by
      obtain ⟨hun, hr, hs⟩ := h.current d hd hu
      exact ⟨{ hun with }, hr, hs⟩ }

/-- The codec accepts an EOS. -/
theorem accept (h : Tracked s) {d : Nat} (hd : s.encode = some d) :
    Tracked { s with sendEos := true, history := s.history.accept d } :=
  { h with
    fedLt := fun e he => by
      rcases List.mem_cons.mp he with rfl | he
      · exact h.encodeLt e hd
      · exact h.fedLt e he
    unlooped := fun hr hg => { h.unlooped hr hg with }
    creating := fun hp => by
      rw [h.fresh (.inr hp)] at hd
      cases hd
    current := fun e he hu => by
      obtain ⟨hun, hr, -⟩ := h.current e he hu
      have hsome := (h.held e he).symm.trans hd
      cases hsome
      exact ⟨{ hun with }, hr, fun _ => List.mem_cons_self⟩ }

/-- The thread is joined and the codec destroyed, with an EOS got. -/
theorem joined (h : Tracked s) (hg : s.loop.gotEos = true) {pc : Pc} {element : Element}
    (hc : pc ≠ .creating) (hj : pc.joins = false) : Tracked { s.destroyed with pc, element } where
  held := fun d hd => by
    obtain ⟨hmem, hne⟩ := List.mem_filter.mp hd
    exact absurd (h.held d hmem) (by simpa using hne)
  looped := fun hd => absurd rfl hd
  fresh := fun _ => rfl
  joining := fun hp => by rw [hj] at hp; cases hp
  encodeLt := nofun
  deliveredLt := h.deliveredLt
  fedLt := h.fedLt
  unlooped := fun _ hn => absurd (hg.symm.trans hn) (by decide)
  creating := fun hp => absurd hp hc
  current := fun d hd => by
    obtain ⟨hmem, hne⟩ := List.mem_filter.mp hd
    exact absurd (h.held d hmem) (by simpa using hne)

/-- There is no codec any more, or there never was; the thread is left. -/
theorem leave (h : Tracked s) {loop : EventLoop} {history : History} {pc : Pc} {aborting : Nat}
    (hd : loop.handle = none) (hr : loop.runner ≠ .none) (hl : history.live = [])
    (hn : history.created = s.history.created) (hdel : history.delivered = s.history.delivered)
    (hfed : history.fed = s.history.fed) (hc : pc ≠ .creating)
    (hj : pc.joins = true → loop.gotEos = true) :
    Tracked { s with loop, history, pc, aborting } where
  held := fun d hm => by
    have hm' : d ∈ history.live := hm
    rw [hl] at hm'
    exact absurd hm' List.not_mem_nil
  looped := fun he => absurd hd he
  fresh := fun _ => hd
  joining := hj
  encodeLt := fun d he => absurd (hd.symm.trans he) nofun
  deliveredLt := fun d hm => by
    show d < history.created
    rw [hn]
    exact h.deliveredLt d (hdel ▸ hm)
  fedLt := fun d hm => by
    show d < history.created
    rw [hn]
    exact h.fedLt d (hfed ▸ hm)
  unlooped := fun he => absurd he hr
  creating := fun hp => absurd hp hc
  current := fun d hm => by
    have hm' : d ∈ history.live := hm
    rw [hl] at hm'
    exact absurd hm' List.not_mem_nil

/-- An instance is aborted; there is none while another is created. -/
theorem kill (h : Tracked s) {d : Nat} (hd : s.encode = some d) {loop : EventLoop} {aborting : Nat}
    (hh : loop.handle = none) (hr : loop.runner ≠ .none) (hg : loop.gotEos = s.loop.gotEos) :
    Tracked { s with loop, aborting, history := s.history.kill d } := by
  refine h.leave hh hr (List.filter_eq_nil_iff.mpr fun e hmem => ?_) rfl rfl rfl ?_ ?_
  · have hsome := (h.held e hmem).symm.trans hd
    cases hsome
    simp
  · intro hp
    rw [h.fresh (.inr hp)] at hd
    cases hd
  · intro hp
    rw [hg]
    exact h.joining hp

/-- `got_eos` is set, while no instance is undisturbed. -/
theorem gotten (h : Tracked s) (hu : ¬(s.Undisturbed ∧ s.loop.runner = .loop)) {loop : EventLoop}
    {aborting : Nat} (hh : loop.handle = s.loop.handle) (hr : s.loop.runner ≠ .none →
      loop.runner ≠ .none) (hg : loop.gotEos = true) : Tracked { s with loop, aborting } where
  held := fun d hd => hh.trans (h.held d hd)
  looped := fun hd => hr (h.looped fun he => hd (hh.trans he))
  fresh := fun hp => hh.trans (h.fresh hp)
  joining := fun _ => hg
  encodeLt := fun d hd => h.encodeLt d (hh.symm.trans hd)
  deliveredLt := h.deliveredLt
  fedLt := h.fedLt
  unlooped := fun _ hn => absurd (hg.symm.trans hn) (by decide)
  creating := fun hp => ⟨hr (h.creating hp).1, fun hn => absurd (hg.symm.trans hn) (by decide)⟩
  current := fun d hd hdel => by
    obtain ⟨hun, hl, -⟩ := h.current d hd hdel
    exact absurd ⟨hun, hl⟩ hu

/-- The codec reports an event: its end, or one that says nothing. -/
theorem codecEvent (h : Tracked s) {d : Nat} (hd : d ∈ s.history.live) {type : CbEventType} :
    Tracked (s.handleEvent d type) := by
  have henc := h.held d hd
  have hrun : s.loop.runner ≠ .none := h.looped (by rw [henc]; exact nofun)
  have hcr : s.pc ≠ .creating := fun hp => by
    rw [h.fresh (.inr hp)] at henc
    cases henc
  refine { h with
    deliveredLt := ?_, unlooped := fun hr => absurd hr hrun, creating := fun hp => absurd hp hcr,
    current := ?_ }
  · intro e he
    have he' : e ∈ if type = .eos ∨ type.aborts then d :: s.history.delivered
      else s.history.delivered := he
    split at he'
    · rcases List.mem_cons.mp he' with rfl | hmem
      · exact h.encodeLt e henc
      · exact h.deliveredLt e hmem
    · exact h.deliveredLt e he'
  · intro e he hu
    have hu' : e ∉ if type = .eos ∨ type.aborts then d :: s.history.delivered
      else s.history.delivered := hu
    have hsome := (h.held e he).symm.trans henc
    cases hsome
    split at hu'
    · exact absurd List.mem_cons_self hu'
    · next hend =>
      obtain ⟨hne, hna⟩ := not_or.mp hend
      obtain ⟨hun, hr, hs⟩ := h.current d hd hu'
      refine ⟨{ hun with queue := fun u hmem => ?_ }, hr, hs⟩
      rcases List.mem_append.mp hmem with hm | hm
      · exact hun.queue u hm
      · rw [List.mem_singleton.mp hm]
        exact ⟨hne, by simpa using hna⟩

/-- The event loop takes an event that neither ends the stream nor aborts. -/
theorem popOther (h : Tracked s) {type : CbEventType} {rest : List CbEventType}
    (hr : s.loop.runner = .loop) (hq : s.loop.eventQueue = type :: rest) :
    Tracked { s with loop := { s.loop with eventQueue := rest } } := by
  have hrun : s.loop.runner ≠ .none := by rw [hr]; exact nofun
  have hrest : s.Undisturbed →
      Undisturbed { s with loop := { s.loop with eventQueue := rest } } := fun hun =>
    { hun with queue := fun u hmem => hun.queue u (hq ▸ List.mem_cons_of_mem _ hmem) }
  exact { h with
    unlooped := fun he => absurd he hrun
    creating := fun hp => ⟨hrun, fun hg => ⟨hr, hrest ((h.creating hp).2 hg).2⟩⟩
    current := fun d hd hu => by
      obtain ⟨hun, -, hs⟩ := h.current d hd hu
      exact ⟨hrest hun, hr, hs⟩ }

/-- The event loop takes an EOS: no instance is undisturbed. -/
theorem popEos (h : Tracked s) {rest : List CbEventType}
    (hq : s.loop.eventQueue = .eos :: rest) :
    Tracked { s with loop := { s.loop with eventQueue := rest, runner := .notifying } } := by
  have hno : ¬s.Undisturbed := fun hun =>
    (hun.queue .eos (hq ▸ List.mem_cons_self)).1 rfl
  exact { h with
    looped := fun _ => nofun
    unlooped := nofun
    creating := fun hp => ⟨nofun, fun hg => absurd ((h.creating hp).2 hg).2 hno⟩
    current := fun d hd hu => absurd (h.current d hd hu).1 hno }

/-- The event loop is started. -/
theorem startLoop (h : Tracked s) (hp : s.pc = .starting) (hr : s.loop.runner = .none) :
    Tracked { s with loop := { s.loop with runner := .loop }, pc := .creating } := by
  have hnil := h.live_eq_nil (h.fresh (.inl hp))
  exact { h with
    looped := fun _ => nofun
    fresh := fun _ => h.fresh (.inl hp)
    joining := nofun
    unlooped := nofun
    creating := fun _ => ⟨nofun, fun hg => ⟨rfl, { h.unlooped hr hg with }⟩⟩
    current := fun d hd => by
      rw [hnil] at hd
      exact absurd hd List.not_mem_nil }

/-- An instance is created, with both flags unset. -/
theorem create (h : Tracked s) (hp : s.pc = .creating) (hg : s.loop.gotEos = false)
    (hs : s.sendEos = false) :
    Tracked { s with
      loop := { s.loop with handle := some s.history.created }
      pc := .idle
      history :=
        { s.history with
          live := s.history.created :: s.history.live
          created := s.history.created + 1 } } := by
  have hnil := h.live_eq_nil (h.fresh (.inr hp))
  obtain ⟨hrun, hun⟩ := h.creating hp
  have hmem : ∀ d ∈ s.history.created :: s.history.live, d = s.history.created := by
    rw [hnil]
    exact fun d hd => List.mem_singleton.mp hd
  exact
    { held := fun d hd => congrArg some (hmem d hd).symm
      looped := fun _ => hrun
      fresh := nofun
      joining := nofun
      encodeLt := fun d hd => by
        cases hd
        exact Nat.lt_succ_self _
      deliveredLt := fun d hd => Nat.lt_succ_of_lt (h.deliveredLt d hd)
      fedLt := fun d hd => Nat.lt_succ_of_lt (h.fedLt d hd)
      unlooped := fun hr => absurd hr hrun
      creating := nofun
      current := fun d _ _ => by
        obtain ⟨hr, hu⟩ := hun hg
        exact ⟨{ hu with }, hr, fun hse => absurd (hs.symm.trans hse) (by decide)⟩ }

end Tracked

/-! ## Steps -/

theorem Step.tracked (h : Step s l t) (hc : s.CreatesFresh l) (hs : Tracked s) : Tracked t := by
  cases h with
  | changeState ht hcan => exact hs.changeElement _
  | toReadyWait hcan hw | toReadyFeed hcan hd hg hse | capsWait ha hp hw | capsFeed ha hp hd hg hse
  | finalize hn hp hr | finalizeTerminates hn hp hr | startNotPrepared hp | startTerminates hp hr =>
    exact hs.goto nofun nofun nofun
  | toReadyNone hcan hd =>
    -- with no codec there is no instance to deliver an EOS
    have hno : ∀ d, d ∉ s.history.live := fun d hmem => by
      rw [hs.live_eq_nil hd] at hmem
      cases hmem
    have hgo : Tracked { s with pc := .waitEos .pausedToReady } := hs.goto nofun nofun nofun
    exact { hgo with
      joining := nofun
      unlooped := nofun
      creating := nofun
      current := fun d hmem => absurd hmem (hno d) }
  | capsIgnored ha hp | chain ha hp | sinkEosRejected ha hp => exact hs
  | capsStart ha hp hd => exact hs.goto (fun _ => hd) nofun nofun
  | sinkEosAccepted ha hp hd => exact hs.accept hd
  | feedAccepted hp hd => exact (hs.accept hd).goto nofun nofun nofun
  | feedRejected hp => exact hs.goto nofun nofun nofun
  | eosWaited hp hg => exact hs.goto nofun nofun fun _ => hg
  | joinedCaps hp => exact hs.joined (hs.joining (by rw [hp]; rfl)) nofun rfl
  | joinedReady hp => exact hs.joined (hs.joining (by rw [hp]; rfl)) nofun rfl
  | startLoop hp hr => exact hs.startLoop hp hr
  | createSucceeds hp => exact hs.create hp hc.1 hc.2
  | createFails hp he =>
    exact hs.leave rfl (hs.creating hp).1 (hs.live_eq_nil (hs.fresh (.inr hp))) rfl rfl rfl nofun
      nofun
  | codecEvent hd => exact hs.codecEvent hd
  | outputIgnored hd he => exact hs
  | outputFails hd he => exact hs.kill he rfl (hs.looped (by rw [he]; exact nofun)) rfl
  | outputAborted ha hp =>
    exact hs.gotten (fun hu => absurd hu.1.aborting (Nat.ne_of_gt ha)) rfl id rfl
  | popEos hr hqueue => exact hs.popEos hqueue
  | popAbort hr hqueue ha hd => exact hs.kill hd rfl nofun rfl
  | popOther hr hqueue he => exact hs.popOther hr hqueue
  | notify hr hp =>
    refine hs.gotten (fun hu => ?_) rfl (fun _ => nofun) rfl
    rw [hr] at hu
    cases hu.2
  | exit hr hqueue hg =>
    refine hs.gotten (fun hu => ?_) rfl (fun _ => nofun) hg
    exact absurd (hu.1.got.symm.trans hg) (by decide)

theorem reachable_tracked (h : Reachable (· = initial) (System.StepWhere next CreatesFresh) s) :
    Tracked s := by
  refine Reachable.invariant (I := Tracked) ?_ ?_ h
  · rintro s rfl
    exact tracked_initial
  · rintro s t hs ⟨l, hc, hn⟩
    exact (next_step hn).2.tracked hc hs

/-- The new instance has delivered nothing and was fed nothing. -/
theorem Tracked.not_perInstance (h : Tracked s) (hn : next s l = some t)
    (hc : ¬s.CreatesFresh l) : ¬PerInstance t := by
  obtain ⟨-, hst⟩ := next_step hn
  intro hk
  cases hst with
  | createSucceeds hp =>
    obtain ⟨hg, -, hf⟩ := hk s.history.created List.mem_cons_self fun hmem =>
      absurd (h.deliveredLt _ hmem) (Nat.lt_irrefl _)
    refine hc ⟨hg, ?_⟩
    cases hse : s.sendEos with
    | false => rfl
    | true => exact absurd (h.fedLt _ (hf hse)) (Nat.lt_irrefl _)
  | @createFails ecode hp he =>
    cases ecode with
    | success => exact he rfl
    | timeout => exact hc trivial
    | error code => exact hc trivial
  | _ => exact hc trivial

/--
**The EOS state is the instance's own**, in every state that runs reach whose steps all meet the
condition; and after such a run a step keeps it so only if it meets the condition.
-/
theorem eos_state_per_instance
    (h : Reachable (· = initial) (System.StepWhere next CreatesFresh) s) :
    PerInstance s ∧ ∀ l t, next s l = some t → (PerInstance t ↔ s.CreatesFresh l) := by
  have hs := reachable_tracked h
  refine ⟨hs.perInstance, fun l t hn => ⟨fun hk => ?_, fun hc => ?_⟩⟩
  · exact Classical.byContradiction fun hc => hs.not_perInstance hn hc hk
  · exact ((next_step hn).2.tracked hc hs).perInstance

/-- From `NULL` to `PLAYING`, with the first caps. -/
def firstCaps : List Label :=
  [.changeState .nullToReady, .changeState .activatePads, .changeState .readyToPaused,
    .changeState .pausedToPlaying, .caps true, .startLoop true, .create .success]

/-- The first instance is fed EOS and reports a corrupt stream. -/
theorem eos_state_per_instance_sample : ∃ s, System.run next initial (firstCaps ++
      [.sinkEos .success .success, .codecEvent 0 .streamCorrupt]) = some s ∧
    PerInstance s ∧ s.history.live = [0] ∧ s.history.delivered = [] := by
  have hm : System.Meets next CreatesFresh initial (firstCaps ++
      [.sinkEos .success .success, .codecEvent 0 .streamCorrupt]) :=
    ⟨trivial, trivial, trivial, trivial, trivial, trivial, ⟨rfl, rfl⟩, trivial, trivial, trivial⟩
  exact ⟨_, rfl,
    (eos_state_per_instance (System.reachable_of_meets (Reachable.of_init rfl) rfl hm)).1, rfl, rfl⟩

/-- After an EOS and new caps, the second instance finds `got_eos` and `send_eos` set. -/
theorem second_instance_got_eos : ∃ s, System.run next initial (firstCaps ++
      [.sinkEos .success .success, .codecEvent 0 .eos, .pop, .notify, .exit, .caps true, .eosWaited,
        .joined, .startLoop true, .create .success]) = some s ∧
    1 ∈ s.history.live ∧ 1 ∉ s.history.delivered ∧ 1 ∉ s.history.fed ∧
      s.loop.gotEos = true ∧ s.sendEos = true :=
  ⟨_, rfl, by decide, by decide, by decide, rfl, rfl⟩

end CambriconGst.Gst.Cnvideoenc
