import CambriconGst.Properties.DecodeHandler

/-!
# The last wakeup of the decode handler's event loop

The destructor sets `got_eos_` under `eos_mtx_` and notifies `event_cond_` without `event_mtx_`, so
both can fall between the runner's test of its predicate and its blocking.

* `DecodeHandler.wakeup_not_lost`: the runner is not left blocked, in runs where the destructor
  notifies while it is elsewhere
* `DecodeHandler.wakeup_lost`: it is left blocked when the codec could not be created
-/

namespace CambriconGst.Easycodec.DecodeHandler

open Lib

variable {s t : DecodeHandler} {l : Label}

/--
The destructor joins the runner, which is blocked although `got_eos_` is set, and stays so whatever
happens.
-/
def LostWakeup (s : DecodeHandler) : Prop :=
  s.pc = .joining ∧ s.runner = .wait .blocked ∧ s.gotEos = true ∧
    ∀ ls t, System.run next s ls = some t → t.runner = .wait .blocked

/-- The condition on a step: the destructor does not notify between the runner's test and its
blocking. -/
def NotifiesAwake (s : DecodeHandler) : Label → Prop
  | .destructor _ => s.pc = .notifying → s.runner ≠ .wait .blocking
  | _ => True

/-- The runner has found its predicate false. -/
def RunnerPc.tested : RunnerPc → Bool
  | .wait .blocking => true
  | .wait .blocked => true
  | _ => false

/-- The runner has no event. -/
def RunnerPc.idle : RunnerPc → Bool
  | .handling _ => false
  | .notifying => false
  | _ => true

/-- The destructor has seen `got_eos_` set. -/
def Pc.past : Pc → Bool
  | .notifying => true
  | .joining => true
  | .destroying => true
  | _ => false

/-- The destructor has notified `event_cond_`. -/
def Pc.notifiedRunner : Pc → Bool
  | .joining => true
  | .destroying => true
  | _ => false

/-- No codec was created yet. -/
structure Blank (s : DecodeHandler) : Prop where
  got : s.gotEos = false
  aborting : s.aborting = 0
  handle : s.handle = false
  queue : s.eventQueue = []
  idle : s.runner.idle = true

/-- What is known between steps that meet the condition. -/
structure Waking (s : DecodeHandler) : Prop where
  got : s.pc.past = true → s.gotEos = true
  awake : s.pc.notifiedRunner = true → s.runner.tested = false
  settled : s.gotEos = true → s.handle = true → s.runner.tested = false
  aborting : 0 < s.aborting → s.handle = false
  creating : s.pc = .creating → Blank s

theorem waking_initial : Waking initial where
  got := nofun
  awake := nofun
  settled := nofun
  aborting := nofun
  creating := fun _ => { got := rfl, aborting := rfl, handle := rfl, queue := rfl, idle := rfl }

@[simp]
theorem Pc.past_notified (p : Pc) : p.notified.past = p.past := by
  cases p <;> rfl

@[simp]
theorem Pc.notifiedRunner_notified (p : Pc) : p.notified.notifiedRunner = p.notifiedRunner := by
  cases p <;> rfl

theorem Pc.notified_eq_creating {p : Pc} : p.notified = .creating ↔ p = .creating := by
  cases p <;> simp [Pc.notified]

theorem RunnerPc.tested_notified {r : RunnerPc} (h : r.notified.tested = true) :
    r = .wait .blocking := by
  cases r with
  | wait w =>
    cases w with
    | blocking => rfl
    | _ => cases h
  | _ => cases h

theorem Pc.past_of_notifiedRunner {p : Pc} (h : p.notifiedRunner = true) : p.past = true := by
  cases p with
  | joining => rfl
  | destroying => rfl
  | _ => cases h

namespace Waking

/-- The destructor's thread goes on. -/
theorem goto (h : Waking s) {pc : Pc} {history : History} (hc : pc ≠ .creating)
    (hp : pc.past = true → s.gotEos = true)
    (hn : pc.notifiedRunner = true → s.runner.tested = false) :
    Waking { s with pc, history } :=
  { h with got := hp, awake := hn, creating := fun he => absurd he hc }

/-- The runner goes on; it finds its predicate false only without `got_eos_`. -/
theorem run (h : Waking s) {runner : RunnerPc}
    (ht : runner.tested = true → s.runner.tested = true ∨ s.gotEos = false)
    (hi : s.pc = .creating → runner.idle = true) : Waking { s with runner } := by
  have htested : s.gotEos = true → s.runner.tested = false → runner.tested = false := by
    intro hg hs
    refine Bool.of_not_eq_true fun hr => ?_
    rcases ht hr with hr' | hg'
    · exact absurd (hs.symm.trans hr') (by decide)
    · exact absurd (hg.symm.trans hg') (by decide)
  exact { h with
    awake := fun hn => htested (h.got (Pc.past_of_notifiedRunner hn)) (h.awake hn)
    settled := fun hg hh => htested hg (h.settled hg hh)
    creating := fun hp => { h.creating hp with idle := hi hp } }

/-- The codec is aborted. -/
theorem dropHandle (h : Waking s) (hh : s.handle = true) {runner : RunnerPc} {aborting : Nat}
    (ht : runner.tested = true → s.runner.tested = true) :
    Waking { s.dropHandle with runner, aborting } where
  got := h.got
  awake := fun hn => by
    refine Bool.of_not_eq_true fun hr => ?_
    exact absurd ((h.awake hn).symm.trans (ht hr)) (by decide)
  settled := fun _ he => by cases he
  aborting := fun _ => rfl
  creating := fun hp => absurd ((h.creating hp).handle.symm.trans hh) (by decide)

/-- `got_eos_` is set, by the runner or after an abort. -/
theorem setGotEos (h : Waking s) (hc : s.pc ≠ .creating) {runner : RunnerPc} {aborting : Nat}
    (ha : aborting ≤ s.aborting) (hr : runner.tested = false ∨ runner = s.runner ∧ s.handle = false) :
    Waking { s.setGotEos with runner, aborting } where
  got := fun _ => rfl
  awake := fun hn => by
    rcases hr with hr | ⟨rfl, -⟩
    · exact hr
    · exact h.awake ((Pc.notifiedRunner_notified s.pc).symm.trans hn)
  settled := fun _ hh => by
    rcases hr with hr | ⟨-, hn⟩
    · exact hr
    · exact absurd (hn.symm.trans hh) (by decide)
  aborting := fun hpos => h.aborting (Nat.lt_of_lt_of_le hpos ha)
  creating := fun hp => absurd (Pc.notified_eq_creating.mp hp) hc

theorem destruct (h : Waking s) : Waking s.destruct :=
  h.goto nofun nofun nofun

/-- The runner has an event, so the codec was created. -/
theorem not_creating (h : Waking s) (hr : s.runner.idle = false) : s.pc ≠ .creating := fun hp =>
  absurd ((h.creating hp).idle.symm.trans hr) (by decide)

end Waking

/-! ## Steps -/

theorem Step.waking (h : Step s l t) (hc : s.NotifiesAwake l) (hs : Waking s) : Waking t := by
  cases h with
  | @createSucceeds jpegDecode hp =>
    have hblank := hs.creating hp
    have hpc : ∀ p : Pc, p = .alive ∨ p = .settingAttributes →
        Waking { s with handle := true, pc := p } := by
      rintro p hp'
      exact
        { got := fun he => by rcases hp' with rfl | rfl <;> cases he
          awake := fun he => by rcases hp' with rfl | rfl <;> cases he
          settled := fun hg => absurd (hblank.got.symm.trans hg) (by decide)
          aborting := fun hpos => absurd hblank.aborting (Nat.ne_of_gt hpos)
          creating := fun he => by rcases hp' with rfl | rfl <;> cases he }
    cases jpegDecode with
    | true => exact hpc _ (.inl rfl)
    | false => exact hpc _ (.inr rfl)
  | createFails hp | attributesFail hp | destruct hp => exact hs.destruct
  | attributesSet hp => exact hs.goto nofun nofun nofun
  | eosAccepted hp hse =>
    exact { hs with creating := fun he => by rw [hp] at he; cases he }
  | eosSentBefore hp hse | eosRefused hp hse he | abortsNothing hh => exact hs
  | aborts hh => exact hs.dropHandle hh id
  | abortNotifies ha hp =>
    have hh := hs.aborting ha
    refine hs.setGotEos (fun hcr => ?_) (Nat.sub_le _ _) (.inr ⟨rfl, hh⟩)
    exact absurd (hs.creating hcr).aborting (Nat.ne_of_gt ha)
  | receiveEvent hh hr =>
    have hgo : Waking { s with runner := s.runner.notified } := by
      refine hs.run (fun ht => .inl ?_) fun hp => ?_
      · rw [RunnerPc.tested_notified ht]
        rfl
      · exact absurd ((hs.creating hp).handle.symm.trans hh) (by decide)
    exact { hgo with
      creating := fun hp => absurd ((hs.creating hp).handle.symm.trans hh) (by decide) }
  | runnerLocks hr | runnerEnds hr hq hg | runnerWaits hr | runnerNotified hr hq hg
  | runnerWakes hr | handlesOther hr => exact hs.run nofun fun _ => rfl
  | @runnerTakes type rest hr hq =>
    have hcr : s.pc ≠ .creating := fun hp => by
      rw [(hs.creating hp).queue] at hq
      cases hq
    have hgo : Waking { s with runner := .handling type } := hs.run nofun fun hp => absurd hp hcr
    exact { hgo with creating := fun hp => absurd hp hcr }
  | runnerTests hr hq hg => exact hs.run (fun _ => .inr hg) fun _ => rfl
  | runnerBlocks hr => exact hs.run (fun _ => .inl (by rw [hr]; rfl)) fun _ => rfl
  | handlesEos hr =>
    exact hs.run nofun fun hp => absurd hp (hs.not_creating (by rw [hr]; rfl))
  | handlesAbort hr ha hh => exact hs.dropHandle hh nofun
  | runnerNotifies hr hp =>
    exact hs.setGotEos (hs.not_creating (by rw [hr]; rfl)) (Nat.le_refl _) (.inl rfl)
  | entersGot hp hg | entersSent hp hse | entersFeeding hp hg hse hh | locks hp
  | feedsNothing hp hse | feedThrows hp hse he | checksWaits hp hg | tests hp hg | blocks hp
  | wakes hp => exact hs.goto nofun nofun nofun
  | entersNoHandle hp hh =>
    exact { hs with
      got := nofun
      awake := nofun
      settled := fun _ he => absurd (hh.symm.trans he) (by decide)
      creating := nofun }
  | feeds hp hse =>
    have hgo : Waking { s with pc := .locking } := hs.goto nofun nofun nofun
    exact { hgo with creating := nofun }
  | checksGot hp hg => exact hs.goto nofun (fun _ => hg) nofun
  | notifies hp =>
    -- the runner is awake, or is woken
    have hg := hs.got (by rw [hp]; rfl)
    have hr : s.runner.notified.tested = false :=
      Bool.of_not_eq_true fun ht => hc hp (RunnerPc.tested_notified ht)
    exact
      { got := fun _ => hg
        awake := fun _ => hr
        settled := fun _ _ => hr
        aborting := hs.aborting
        creating := nofun }
  | joins hp hr => exact hs.goto nofun (fun _ => hs.got (by rw [hp]; rfl)) fun _ => by rw [hr]; rfl
  | destroys hp hh =>
    exact
      { got := nofun
        awake := nofun
        settled := fun _ he => by cases he
        aborting := fun _ => rfl
        creating := nofun }
  | leaves hp hh => exact hs.goto nofun nofun nofun

theorem reachable_waking (h : Reachable (· = initial) (System.StepWhere next NotifiesAwake) s) :
    Waking s := by
  refine Reachable.invariant (I := Waking) ?_ ?_ h
  · rintro s rfl
    exact waking_initial
  · rintro s t hs ⟨l, hc, hn⟩
    exact (next_step hn).2.waking hc hs

/-- Without a codec nobody notifies a blocked runner that is being joined. -/
theorem stays_blocked {ls : List Label} (hp : s.pc = .joining) (hr : s.runner = .wait .blocked)
    (hh : s.handle = false) (h : System.run next s ls = some t) : t.runner = .wait .blocked := by
  refine (System.run_invariant
    (I := fun u => u.pc = .joining ∧ u.runner = .wait .blocked ∧ u.handle = false) ?_ h
    ⟨hp, hr, hh⟩).2.1
  rintro u l v ⟨hp, hr, hh⟩ hn
  obtain ⟨-, hst⟩ := next_step hn
  cases hst with
  | abortsNothing => exact ⟨hp, hr, hh⟩
  | aborts h' => exact absurd (hh.symm.trans h') (by decide)
  | abortNotifies ha hm => rw [hp] at hm; cases hm
  | receiveEvent h' => exact absurd (hh.symm.trans h') (by decide)
  | checksGot h' => exact absurd hp (by rcases h' with h' | h' <;> rw [h'] <;> exact nofun)
  | joins h' hd => rw [hr] at hd; cases hd
  | _ => simp_all

theorem not_notifiesAwake (h : ¬s.NotifiesAwake l) :
    ∃ ecode, l = .destructor ecode ∧ s.pc = .notifying ∧ s.runner = .wait .blocking := by
  cases l with
  | destructor ecode =>
    obtain ⟨hp, hr⟩ := Classical.not_imp.mp h
    exact ⟨ecode, rfl, hp, Classical.not_not.mp hr⟩
  | _ => exact absurd trivial h

/-- The destructor notifies too early, and the runner blocks for good. -/
theorem Waking.loses (h : Waking s) (hn : next s l = some t) (hc : ¬s.NotifiesAwake l) :
    ∃ u, next t .eventTaskRunner = some u ∧ LostWakeup u := by
  obtain ⟨ecode, rfl, hp, hr⟩ := not_notifiesAwake hc
  have hg := h.got (by rw [hp]; rfl)
  have hh : s.handle = false := Bool.of_not_eq_true fun hh => by
    have ht := h.settled hg hh
    rw [hr] at ht
    cases ht
  have hnext : next s (.destructor ecode) = some { s with pc := .joining } := by
    simp only [next, step, destructor, hp, Pc.left, hr, RunnerPc.notified, Waiter.notify,
      Bool.false_eq_true, if_false]
  rw [hnext] at hn
  cases hn
  refine ⟨{ s with runner := .wait .blocked, pc := .joining }, ?_, rfl, rfl, hg, ?_⟩
  · simp [next, step, eventTaskRunner, Pc.left, hr]
  · intro ls v hrun
    refine stays_blocked ?_ ?_ ?_ hrun
    · rfl
    · rfl
    · exact hh

/--
**No wakeup is lost**, in every state that runs reach whose steps all meet the condition; and after
such a run a step that does not meet it lets the runner lose its wakeup.
-/
theorem wakeup_not_lost
    (h : Reachable (· = initial) (System.StepWhere next NotifiesAwake) s) :
    ¬LostWakeup s ∧ ∀ l t, next s l = some t → ¬s.NotifiesAwake l →
      ∃ u, next t .eventTaskRunner = some u ∧ LostWakeup u := by
  have hs := reachable_waking h
  refine ⟨?_, fun l t hn hc => hs.loses hn hc⟩
  rintro ⟨hp, hr, -, -⟩
  have ht := hs.awake (by rw [hp]; rfl)
  rw [hr] at ht
  cases ht

/-- The codec could not be created, and the runner is blocked when the destructor notifies it. -/
def failedCreate : List Label :=
  [.eventTaskRunner, .eventTaskRunner, .eventTaskRunner, .create false (.error 1),
    .destructor .success, .destructor .success]

theorem wakeup_not_lost_sample : ∃ s, System.run next initial (failedCreate ++
      [.eventTaskRunner, .destructor .success]) = some s ∧
    s.pc = .joining ∧ s.runner = .wait .woken ∧ ¬LostWakeup s := by
  have hm : System.Meets next NotifiesAwake initial (failedCreate ++
      [.eventTaskRunner, .destructor .success]) :=
    ⟨trivial, trivial, trivial, trivial, nofun, nofun, trivial, fun _ => nofun, trivial⟩
  exact ⟨_, rfl, rfl, rfl,
    (wakeup_not_lost (System.reachable_of_meets (Reachable.of_init rfl) rfl hm)).1⟩

/-- The destructor notifies after the runner's test and before its blocking. -/
theorem wakeup_lost : ∃ s, System.run next initial (failedCreate ++
      [.destructor .success, .eventTaskRunner]) = some s ∧ LostWakeup s :=
  ⟨_, rfl, rfl, rfl, rfl, fun _ _ hrun => stays_blocked rfl rfl rfl hrun⟩

end CambriconGst.Easycodec.DecodeHandler
