import CambriconGst.Properties.DecodeHandler

/-!
# What the decode handler's destructor leaves

* `DecodeHandler.teardown_complete`: every way out of the destructor has joined the event loop and
  destroyed the codec that was not aborted, in runs where feeding EOS does not throw there
* `DecodeHandler.teardown_throws`: the way out that an error of the codec takes
-/

namespace CambriconGst.Easycodec.DecodeHandler

open Lib

variable {s t : DecodeHandler} {l : Label}

/-- The codec that the destructor found, if it was not aborted meanwhile. -/
def History.owned (h : History) : Bool :=
  h.entryHandle && !h.aborted

/--
The event loop was joined, and the codec's destroy function was called once if there was a handle on
entry that was not aborted meanwhile, and not at all otherwise.
-/
structure History.TornDown (h : History) : Prop where
  joined : h.joined = true
  destroyed : h.destroyCalls = if h.owned then 1 else 0

/-- The condition on a step: the EOS that the destructor feeds is accepted, or was sent before. -/
def FeedsEos (s : DecodeHandler) : Label → Prop
  | .destructor ecode => s.pc = .feeding → s.sendEos = true ∨ ecode = .success
  | _ => True

/-- The destructor is running. -/
def Pc.destructing : Pc → Bool
  | .entered => true
  | .feeding => true
  | .locking => true
  | .checking => true
  | .wait _ => true
  | .notifying => true
  | .joining => true
  | .destroying => true
  | _ => false

/-- What is known between steps that meet the condition. -/
structure Tearing (s : DecodeHandler) : Prop where
  handle : s.pc.destructing = true → s.handle = s.history.owned
  calls : s.pc.left = false → s.history.destroyCalls = 0
  joined : s.pc.left = false → (s.history.joined = true ↔ s.pc = .destroying)
  out : s.pc.left = true → s.history.TornDown

theorem tearing_initial : Tearing initial where
  handle := nofun
  calls := fun _ => rfl
  joined := fun _ => ⟨nofun, nofun⟩
  out := nofun

@[simp]
theorem Pc.destructing_notified (p : Pc) : p.notified.destructing = p.destructing := by
  cases p <;> rfl

@[simp]
theorem Pc.left_notified (p : Pc) : p.notified.left = p.left := by
  cases p <;> rfl

theorem Pc.notified_eq_destroying {p : Pc} : p.notified = .destroying ↔ p = .destroying := by
  cases p <;> simp [Pc.notified]

namespace Tearing

/-- Away from its end, the destructor has not joined, and will have joined at no other place. -/
theorem joined_iff (h : Tearing s) (hp : s.pc.left = false) (hs : s.pc ≠ .destroying) {pc : Pc}
    (hd : pc ≠ .destroying) : s.history.joined = true ↔ pc = .destroying :=
  ⟨fun hj => absurd ((h.joined hp).mp hj) hs, fun he => absurd he hd⟩

/-- The destructor goes on, to a place before its end. -/
theorem goto (h : Tearing s) {pc : Pc} (hs : s.pc.destructing = true) (hn : s.pc ≠ .destroying)
    (hd : pc ≠ .destroying) (hl : pc.left = false) (hp : s.pc.left = false) :
    Tearing { s with pc } where
  handle := fun _ => h.handle hs
  calls := fun _ => h.calls hp
  joined := fun _ => h.joined_iff hp hn hd
  out := fun he => absurd (hl.symm.trans he) (by decide)

/-- The destructor is entered. -/
theorem destruct (h : Tearing s) (hn : s.pc ≠ .destroying) (hp : s.pc.left = false) :
    Tearing s.destruct where
  handle := fun _ => (Bool.and_true s.handle).symm
  calls := fun _ => h.calls hp
  joined := fun _ => h.joined_iff hp hn nofun
  out := nofun

/-- A step outside the destructor. -/
theorem outside (h : Tearing s) (hn : s.pc ≠ .destroying) (hp : s.pc.left = false) {pc : Pc}
    {handle : Bool} (hd : pc.destructing = false) (hl : pc.left = false) :
    Tearing { s with pc, handle } where
  handle := fun he => absurd (hd.symm.trans he) (by decide)
  calls := fun _ => h.calls hp
  joined := fun _ => h.joined_iff hp hn fun he => by
    have he' : pc = .destroying := he
    rw [he'] at hd
    cases hd
  out := fun he => absurd (hl.symm.trans he) (by decide)

/-- The codec is aborted. -/
theorem dropHandle (h : Tearing s) (hp : s.pc.left = false) : Tearing s.dropHandle where
  handle := fun _ => (Bool.and_false s.history.entryHandle).symm
  calls := h.calls
  joined := h.joined
  out := fun he => absurd (hp.symm.trans he) (by decide)

theorem setGotEos (h : Tearing s) (hp : s.pc.left = false) : Tearing s.setGotEos where
  handle := fun he => h.handle ((Pc.destructing_notified s.pc).symm.trans he)
  calls := fun _ => h.calls hp
  joined := fun _ => (h.joined hp).trans Pc.notified_eq_destroying.symm
  out := fun he => absurd (hp.symm.trans ((Pc.left_notified s.pc).symm.trans he)) (by decide)

end Tearing

/-! ## Steps -/

theorem Step.tearing (h : Step s l t) (hp : s.pc.left = false) (hc : s.FeedsEos l)
    (hs : Tearing s) : Tearing t := by
  cases h with
  | @createSucceeds jpegDecode hpc =>
    cases jpegDecode with
    | true => exact hs.outside (by rw [hpc]; exact nofun) hp rfl rfl
    | false => exact hs.outside (by rw [hpc]; exact nofun) hp rfl rfl
  | createFails hpc | attributesFail hpc | destruct hpc =>
    exact hs.destruct (by rw [hpc]; exact nofun) hp
  | attributesSet hpc => exact hs.outside (by rw [hpc]; exact nofun) hp rfl rfl
  | eosAccepted hpc hse =>
    exact
      { handle := fun he => by rw [hpc] at he; cases he
        calls := hs.calls
        joined := hs.joined
        out := fun he => absurd (hp.symm.trans he) (by decide) }
  | eosSentBefore hpc hse | eosRefused hpc hse he | abortsNothing hh => exact hs
  | aborts hh => exact { hs.dropHandle hp with }
  | abortNotifies ha hm => exact { hs.setGotEos hp with }
  | receiveEvent hh hr => exact { hs with }
  | runnerLocks hr | runnerEnds hr hq hg | runnerWaits hr | runnerTakes hr hq
  | runnerNotified hr hq hg | runnerTests hr hq hg | runnerBlocks hr | runnerWakes hr
  | handlesEos hr | handlesOther hr => exact { hs with }
  | handlesAbort hr ha hh => exact { hs.dropHandle hp with }
  | runnerNotifies hr hm => exact { hs.setGotEos hp with }
  | entersGot hpc hg | entersFeeding hpc hg hse hh | entersSent hpc hse | feedsNothing hpc hse
  | locks hpc | checksWaits hpc hg | tests hpc hg | blocks hpc | wakes hpc =>
    exact hs.goto (by rw [hpc]; rfl) (by rw [hpc]; exact nofun) nofun rfl hp
  | entersNoHandle hpc hh =>
    have hgo : Tearing { s with pc := .checking } :=
      hs.goto (by rw [hpc]; rfl) (by rw [hpc]; exact nofun) nofun rfl hp
    exact { hgo with }
  | feeds hpc hse =>
    have hgo : Tearing { s with pc := .locking } :=
      hs.goto (by rw [hpc]; rfl) (by rw [hpc]; exact nofun) nofun rfl hp
    exact { hgo with out := nofun }
  -- `FeedEos` throws before the event loop is joined: the condition excludes it
  | feedThrows hpc hse he =>
    rcases hc hpc with hse' | he'
    · exact absurd (hse.symm.trans hse') (by decide)
    · exact absurd he' he
  | checksGot hpc hg =>
    rcases hpc with hpc | hpc
    · exact hs.goto (by rw [hpc]; rfl) (by rw [hpc]; exact nofun) nofun rfl hp
    · exact hs.goto (by rw [hpc]; rfl) (by rw [hpc]; exact nofun) nofun rfl hp
  | notifies hpc =>
    have hgo : Tearing { s with pc := .joining } :=
      hs.goto (by rw [hpc]; rfl) (by rw [hpc]; exact nofun) nofun rfl hp
    exact { hgo with }
  | joins hpc hr =>
    exact
      { handle := fun _ => hs.handle (by rw [hpc]; rfl)
        calls := fun _ => hs.calls hp
        joined := fun _ => ⟨fun _ => rfl, fun _ => rfl⟩
        out := nofun }
  | destroys hpc hh =>
    have howned : s.history.owned = true := (hs.handle (by rw [hpc]; rfl)).symm.trans hh
    have hcalls : s.history.destroyCalls + 1 = if s.history.owned then 1 else 0 := by
      rw [howned, if_pos rfl, hs.calls hp]
    exact
      { handle := nofun
        calls := nofun
        joined := nofun
        out := fun _ => { joined := (hs.joined hp).mpr hpc, destroyed := hcalls } }
  | leaves hpc hh =>
    have howned : s.history.owned = false := (hs.handle (by rw [hpc]; rfl)).symm.trans hh
    have hcalls : s.history.destroyCalls = if s.history.owned then 1 else 0 := by
      rw [howned, hs.calls hp]
      rfl
    exact
      { handle := nofun
        calls := nofun
        joined := nofun
        out := fun _ => { joined := (hs.joined hp).mpr hpc, destroyed := hcalls } }

theorem reachable_tearing (h : Reachable (· = initial) (System.StepWhere next FeedsEos) s) :
    Tearing s := by
  refine Reachable.invariant (I := Tearing) ?_ ?_ h
  · rintro s rfl
    exact tearing_initial
  · rintro s t hs ⟨l, hc, hn⟩
    obtain ⟨hp, hst⟩ := next_step hn
    exact hst.tearing hp hc hs

theorem feeding_of_not_feedsEos (h : ¬s.FeedsEos l) :
    ∃ ecode, l = .destructor ecode ∧ s.pc = .feeding := by
  cases l with
  | destructor ecode => exact ⟨ecode, rfl, (Classical.not_imp.mp h).1⟩
  | _ => exact absurd trivial h

/-- A step that does not meet the condition throws. -/
theorem not_feedsEos (hn : next s l = some t) (hc : ¬s.FeedsEos l) :
    t = { s with pc := .caught } := by
  obtain ⟨-, hst⟩ := next_step hn
  cases hst with
  | feedThrows hpc hse he => rfl
  | feeds hpc hse => exact absurd (fun _ => .inr rfl) hc
  | feedsNothing hpc hse => exact absurd (fun _ => .inl hse) hc
  | entersGot hpc | entersFeeding hpc | entersNoHandle hpc | entersSent hpc | locks hpc
  | checksWaits hpc | tests hpc | blocks hpc | wakes hpc | notifies hpc | joins hpc | destroys hpc
  | leaves hpc =>
    refine absurd (fun he => ?_) hc
    rw [hpc] at he
    cases he
  | checksGot hpc =>
    refine absurd (fun he => ?_) hc
    rw [he] at hpc
    exact hpc.elim nofun nofun
  | _ => exact absurd trivial hc

/--
**Every way out of the destructor is complete**, in every state that runs reach whose steps all meet
the condition; and after such a run a step keeps it so only if it meets the condition.
-/
theorem teardown_complete (h : Reachable (· = initial) (System.StepWhere next FeedsEos) s) :
    (s.pc.left = true → s.history.TornDown) ∧
      ∀ l t, next s l = some t → ((t.pc.left = true → t.history.TornDown) ↔ s.FeedsEos l) := by
  have hs := reachable_tearing h
  refine ⟨hs.out, fun l t hn => ⟨fun hk => ?_, fun hc => ?_⟩⟩
  · refine Classical.byContradiction fun hc => ?_
    obtain ⟨ecode, -, hp⟩ := feeding_of_not_feedsEos hc
    obtain rfl := not_feedsEos hn hc
    -- the exception was thrown before the event loop was joined
    have hj := (hs.joined (by rw [hp]; rfl)).mp (hk rfl).joined
    rw [hp] at hj
    cases hj
  · obtain ⟨hp, hst⟩ := next_step hn
    exact (hst.tearing hp hc hs).out

/-- The codec is created, and the destructor entered. -/
def destructCreated : List Label :=
  [.create true .success, .destruct, .destructor .success]

/-- The destructor feeds EOS, waits for the answer, joins and destroys. -/
def answered : List Label :=
  [.destructor .success, .destructor .success, .destructor .success, .destructor .success,
    .receiveEvent .eos, .eventTaskRunner, .eventTaskRunner, .eventTaskRunner, .eventTaskRunner,
    .destructor .success, .eventTaskRunner, .destructor .success, .destructor .success,
    .destructor .success, .eventTaskRunner, .eventTaskRunner, .destructor .success,
    .destructor .success]

theorem teardown_complete_sample : ∃ s,
    System.run next initial (destructCreated ++ answered) = some s ∧
      s.pc = .out ∧ s.history.TornDown ∧ s.history.owned = true := by
  have hm : System.Meets next FeedsEos initial (destructCreated ++ answered) :=
    ⟨trivial, trivial, nofun, fun _ => .inr rfl, nofun, nofun, nofun, trivial, trivial, trivial,
      trivial, trivial, nofun, trivial, nofun, nofun, nofun, trivial, trivial, nofun, nofun, trivial⟩
  exact ⟨_, rfl, rfl,
    (teardown_complete (System.reachable_of_meets (Reachable.of_init rfl) rfl hm)).1 rfl, rfl⟩

/-- The codec does not take the EOS: the event loop is not joined, the codec not destroyed. -/
theorem teardown_throws : ∃ s,
    System.run next initial (destructCreated ++ [.destructor .timeout]) = some s ∧
      s.pc.left = true ∧ s.history.joined = false ∧ s.history.owned = true ∧
      s.history.destroyCalls = 0 :=
  ⟨_, rfl, rfl, rfl, rfl, rfl⟩

end CambriconGst.Easycodec.DecodeHandler
