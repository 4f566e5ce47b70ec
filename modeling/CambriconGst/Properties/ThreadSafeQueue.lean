import CambriconGst.Cxxutil.ThreadSafeQueue
import Mathlib.Algebra.BigOperators.Group.Finset.Basic
import Mathlib.Data.Fintype.BigOperators

/-!
# The thread-safe queue

For any number of threads, in every interleaving, with spurious wakeups and timeouts.

* `ThreadSafeQueue.linearized`: the methods take effect one after the other, as on a queue
-/

namespace CambriconGst.Cxxutil.ThreadSafeQueue

open Lib

variable {τ α : Type} [DecidableEq τ]

/-! ## What a step does -/

@[simp]
theorem goto_pc_self (s : ThreadSafeQueue τ α) (t : τ) (p : Pc α) : (s.goto t p).pc t = p :=
  Function.update_self _ _ _

theorem goto_pc_of_ne (s : ThreadSafeQueue τ α) {t u : τ} (p : Pc α) (h : u ≠ t) :
    (s.goto t p).pc u = s.pc u :=
  Function.update_of_ne h _ _

theorem wake_eq {s s' : ThreadSafeQueue τ α} {t : τ} (h : s.wake t = some s') :
    ∃ timed, s.pc t = .wait timed .blocked ∧ s' = s.goto t (.wait timed .woken) := by
  unfold wake at h
  split at h
  · next timed hpc => exact ⟨timed, hpc, (Option.some.inj h).symm⟩
  · cases h

theorem lock_eq {s s' : ThreadSafeQueue τ α} {t : τ} {p : Pc α} (h : s.lock t p = some s') :
    s.owner = none ∧ s' = { s.goto t p with owner := some t } := by
  obtain ⟨howner, h⟩ := Option.ite_none_right_eq_some.mp h
  exact ⟨howner, (Option.some.inj h).symm⟩

/-- The steps, one by one. -/
inductive Moves (s : ThreadSafeQueue τ α) : Label τ α → ThreadSafeQueue τ α → Prop
  | call {t : τ} (op : Op α) (hpc : s.pc t = .idle) : s.Moves (.call t op) (s.goto t (.locking op))
  | enter {t : τ} {op : Op α} (hpc : s.pc t = .locking op) (howner : s.owner = none) :
    s.Moves (.step t) { s.goto t op.entered with owner := some t }
  | body {t : τ} {m : Method α} (hpc : s.pc t = .locked m) : s.Moves (.step t) (s.body t m)
  | test {t : τ} {timed : Bool} (hpc : s.pc t = .wait timed .testing) :
    s.Moves (.step t) (s.pop t (.waitAndPop timed) (.wait timed .blocking))
  | block {t : τ} {timed : Bool} (hpc : s.pc t = .wait timed .blocking) :
    s.Moves (.step t) (s.unlock t (.wait timed .blocked))
  | relock {t : τ} {timed : Bool} (hpc : s.pc t = .wait timed .woken) (howner : s.owner = none) :
    s.Moves (.step t) { s.goto t (.wait timed .testing) with owner := some t }
  | relockLast {t : τ} (hpc : s.pc t = .timedOut) (howner : s.owner = none) :
    s.Moves (.step t) { s.goto t .lastTest with owner := some t }
  | testLast {t : τ} (hpc : s.pc t = .lastTest) :
    s.Moves (.step t) (s.pop t (.waitAndPop true) (.returning (.waitAndPop true) .failed))
  | ret {t : τ} {op : Op α} {r : Result α} (hpc : s.pc t = .returning op r) :
    s.Moves (.step t) (s.unlock t .idle)
  | notify {t u : τ} {value : α} {timed : Bool} (hpc : s.pc t = .notifying value)
    (hblocked : s.pc u = .wait timed .blocked) : s.Moves (.notify t (some u))
      ((s.goto t (.returning (.direct (.push value)) .pushed)).goto u (.wait timed .woken))
  | notifyNone {t : τ} {value : α} (hpc : s.pc t = .notifying value)
    (hnone : ∀ u, (s.pc u).isBlocked = false) : s.Moves (.notify t none)
      (s.goto t (.returning (.direct (.push value)) .pushed))
  | spurious {t : τ} {timed : Bool} (hpc : s.pc t = .wait timed .blocked) :
    s.Moves (.spurious t) (s.goto t (.wait timed .woken))
  | timeout {t : τ} (hpc : s.pc t = .wait true .blocked) :
    s.Moves (.timeout t) (s.goto t .timedOut)

theorem moves_of_next [Fintype τ] {s s' : ThreadSafeQueue τ α} {l : Label τ α}
    (h : s.next l = some s') : s.Moves l s' := by
  cases l with
  | call t op =>
    simp only [next] at h
    split at h
    · next hpc =>
      cases h
      exact .call op hpc
    · cases h
  | step t =>
    simp only [next] at h
    split at h
    · next hpc =>
      obtain ⟨howner, rfl⟩ := lock_eq h
      exact .enter hpc howner
    · next hpc =>
      cases h
      exact .body hpc
    · next hpc =>
      cases h
      exact .test hpc
    · next hpc =>
      cases h
      exact .block hpc
    · next hpc =>
      obtain ⟨howner, rfl⟩ := lock_eq h
      exact .relock hpc howner
    · next hpc =>
      obtain ⟨howner, rfl⟩ := lock_eq h
      exact .relockLast hpc howner
    · next hpc =>
      cases h
      exact .testLast hpc
    · next hpc =>
      cases h
      exact .ret hpc
    · cases h
  | notify t woken =>
    simp only [next] at h
    split at h
    · next value hpc =>
      -- the mutex is left before the notification, which wakes a thread if one is blocked
      cases woken with
      | some u =>
        obtain ⟨timed, hblocked, rfl⟩ := wake_eq h
        have hne : u ≠ t := by
          rintro rfl
          simp at hblocked
        refine .notify hpc ?_
        rwa [goto_pc_of_ne _ _ hne] at hblocked
      | none =>
        obtain ⟨hnone, h⟩ := Option.ite_none_right_eq_some.mp h
        cases h
        refine .notifyNone hpc fun u => ?_
        by_cases hu : u = t
        · rw [hu, hpc]
          rfl
        · have hu' := hnone u
          rwa [goto_pc_of_ne _ _ hu] at hu'
    · cases h
  | spurious t =>
    obtain ⟨timed, hpc, rfl⟩ := wake_eq h
    exact .spurious hpc
  | timeout t =>
    simp only [next] at h
    split at h
    · next hpc =>
      cases h
      exact .timeout hpc
    · cases h

/-! ## The order of the effects -/

/-- How far the call of a thread is. -/
def Pc.phase : Pc α → Phase (Op α) (Result α)
  | idle => .idle
  | locking op => .called op
  | locked m => .called (.direct m)
  | wait timed _ => .called (.waitAndPop timed)
  | timedOut => .called (.waitAndPop true)
  | lastTest => .called (.waitAndPop true)
  | notifying value => .done (.direct (.push value)) .pushed
  | returning op r => .done op r

def phases (s : ThreadSafeQueue τ α) (t : τ) : Phase (Op α) (Result α) :=
  (s.pc t).phase

@[simp]
theorem phase_entered (op : Op α) : op.entered.phase = .called op := by
  cases op <;> rfl

theorem phases_goto (s : ThreadSafeQueue τ α) (t : τ) (p : Pc α) :
    (s.goto t p).phases = Function.update s.phases t p.phase :=
  Function.comp_update Pc.phase s.pc t p

section Linearized

variable {s s' : ThreadSafeQueue τ α}

theorem phases_goto_same {t : τ} {p : Pc α} (hp : p.phase = (s.pc t).phase) :
    (s.goto t p).phases = s.phases := by
  rw [phases_goto, hp]
  exact Function.update_eq_self t s.phases

variable [DecidableEq α] {h : List (Event τ (Op α) (Result α))}

abbrev IsLinearized (s : ThreadSafeQueue τ α) (h : List (Event τ (Op α) (Result α))) : Prop :=
  Linearized Fifo.apply [] s.q s.phases h

/-- Nothing takes effect, and the phase of nobody changes. -/
theorem IsLinearized.stay (hl : s.IsLinearized h) (hq : s'.q = s.q) (hphases : s'.phases = s.phases) :
    s'.IsLinearized (h ++ ([] : List (Event τ (Op α) (Result α)))) := by
  refine Linearized.step (e := none) hl hq fun t => .inl ?_
  rw [hphases]
  exact .stay _

/-- The operation of a thread takes effect. -/
theorem IsLinearized.effect (hl : s.IsLinearized h) {t : τ} {p : Pc α} {op : Op α} {r : Result α}
    {q : List α} (hphase : (s.pc t).phase = .called op) (hp : p.phase = .done op r)
    (happly : Fifo.apply s.q op r = some q) {owner : Option τ} :
    IsLinearized { s.goto t p with q, owner } (h ++ [.effect t op r]) := by
  have hfollows : (s.pc t).phase.Follows t (some (.effect t op r)) p.phase := by
    rw [hphase, hp]
    exact .effect op r
  have hmove := Linearized.move hl hfollows (show Changes _ _ (some _) q from happly)
  rwa [← phases_goto] at hmove

/-- A thread calls or returns. -/
theorem IsLinearized.goto (hl : s.IsLinearized h) {t : τ} {p : Pc α}
    {e : Option (Event τ (Op α) (Result α))} (hfollows : (s.pc t).phase.Follows t e p.phase)
    (hstate : Changes Fifo.apply s.q e s.q) {owner : Option τ} :
    IsLinearized { s.goto t p with owner } (h ++ e.toList) := by
  have hmove := Linearized.move hl hfollows hstate
  rwa [← phases_goto] at hmove

/-- A thread pops the front, or goes elsewhere. -/
theorem IsLinearized.pop (hl : s.IsLinearized h) {t : τ} {op : Op α} {otherwise : Pc α}
    {e : Option (Event τ (Op α) (Result α))} (hphase : (s.pc t).phase = .called op)
    (hpopped : ∀ value q, s.q = value :: q →
      e = some (.effect t op (.popped value)) ∧ Fifo.apply s.q op (.popped value) = some q)
    (hempty : s.q = [] →
      (e = none ∧ otherwise.phase = .called op) ∨
      ∃ r, e = some (.effect t op r) ∧ otherwise.phase = .done op r ∧
        Fifo.apply s.q op r = some s.q) :
    (s.pop t op otherwise).IsLinearized (h ++ e.toList) := by
  unfold ThreadSafeQueue.pop
  cases hq : s.q with
  | cons value q =>
    obtain ⟨rfl, happly⟩ := hpopped value q hq
    exact hl.effect hphase rfl happly
  | nil =>
    rcases hempty hq with ⟨rfl, hother⟩ | ⟨r, rfl, hother, happly⟩
    · exact hl.stay rfl (phases_goto_same (hother.trans hphase.symm))
    · exact hl.effect hphase hother happly

/-- A thread that has the lock. -/
theorem IsLinearized.body (hl : s.IsLinearized h) {t : τ} {m : Method α} (hpc : s.pc t = .locked m) :
    (s.body t m).IsLinearized (h ++ (s.effectOf t).toList) := by
  have hphase : (s.pc t).phase = .called (.direct m) := by rw [hpc]; rfl
  cases m with
  | tryPop =>
    refine hl.pop hphase (fun value q hq => ⟨by rw [effectOf, hpc, hq], by rw [hq]; simp [Fifo.apply]⟩)
      fun hq => .inr ⟨.failed, by rw [effectOf, hpc, hq], rfl, by rw [hq]; rfl⟩
  | push value =>
    have he : s.effectOf t = some (.effect t (.direct (.push value)) .pushed) := by
      rw [effectOf, hpc]
    rw [he]
    exact hl.effect hphase rfl rfl
  | empty =>
    have he : s.effectOf t = some (.effect t (.direct .empty) (.isEmpty s.q.isEmpty)) := by
      rw [effectOf, hpc]
    rw [he]
    refine hl.effect hphase rfl ?_
    exact if_pos rfl
  | size =>
    have he : s.effectOf t =
        some (.effect t (.direct .size) (.hasSize (s.q.length % 2 ^ 32))) := by
      rw [effectOf, hpc]
    rw [he]
    refine hl.effect hphase rfl ?_
    exact if_pos rfl

theorem IsLinearized.next [Fintype τ] (hl : s.IsLinearized h) {l : Label τ α} (hnext : s.next l = some s') :
    s'.IsLinearized (h ++ (s.shows l).toList) := by
  cases moves_of_next hnext with
  | @call t op hpc =>
    have hfollows : (s.pc t).phase.Follows t (some (.call t op)) (.called op) := by
      rw [hpc]
      exact .call op
    refine hl.goto hfollows ?_
    rfl
  | enter hpc howner =>
    simp only [shows, effectOf, hpc]
    exact hl.stay rfl (phases_goto_same (by rw [hpc, phase_entered]; rfl))
  | body hpc =>
    simp only [shows, hpc]
    exact hl.body hpc
  | @test t timed hpc =>
    simp only [shows, hpc]
    -- a pop takes effect in the test that finds an element; an empty queue lets it wait on
    refine hl.pop (by rw [hpc]; rfl) (fun value q hq => ⟨by rw [effectOf, hpc, hq], ?_⟩)
      fun hq => .inl ⟨by rw [effectOf, hpc, hq], rfl⟩
    rw [hq]
    simp [Fifo.apply]
  | block hpc =>
    simp only [shows, effectOf, hpc]
    exact hl.stay rfl (phases_goto_same (by rw [hpc]; rfl))
  | relock hpc howner =>
    simp only [shows, effectOf, hpc]
    exact hl.stay rfl (phases_goto_same (by rw [hpc]; rfl))
  | relockLast hpc howner =>
    simp only [shows, effectOf, hpc]
    exact hl.stay rfl (phases_goto_same (by rw [hpc]; rfl))
  | testLast hpc =>
    simp only [shows, hpc]
    refine hl.pop (by rw [hpc]; rfl) (fun value q hq => ⟨by rw [effectOf, hpc, hq], ?_⟩)
      fun hq => .inr ⟨.failed, by rw [effectOf, hpc, hq], rfl, by rw [hq]; rfl⟩
    rw [hq]
    simp [Fifo.apply]
  | @ret t op r hpc =>
    simp only [shows, hpc]
    have hfollows : (s.pc t).phase.Follows t (some (.ret t r)) .idle := by
      rw [hpc]
      exact .ret op r
    refine hl.goto hfollows ?_
    rfl
  | @notify t u value timed hpc hblocked =>
    have hne : u ≠ t := by
      rintro rfl
      simp [hpc] at hblocked
    refine hl.stay rfl ((phases_goto_same ?_).trans (phases_goto_same (by rw [hpc]; rfl)))
    rw [goto_pc_of_ne _ _ hne, hblocked]
    rfl
  | notifyNone hpc hnone => exact hl.stay rfl (phases_goto_same (by rw [hpc]; rfl))
  | spurious hpc => exact hl.stay rfl (phases_goto_same (by rw [hpc]; rfl))
  | timeout hpc => exact hl.stay rfl (phases_goto_same (by rw [hpc]; rfl))

/--
**The methods take effect one after the other, as on a queue**: each between its call and its return,
with the result that it returns.
-/
theorem linearized [Fintype τ] {ls : List (Label τ α)} (hrun : System.run next initial ls = some s) :
    Linearized Fifo.apply [] s.q s.phases (System.trace next shows initial ls) :=
  System.trace_invariant (I := IsLinearized) (fun _ _ _ _ hl hnext => hl.next hnext) hrun
    (Linearized.nil Fifo.apply [])

end Linearized

/-- A thread waits, another one pushes and wakes it. -/
def wakingRun : List (Label Bool Nat) :=
  [.call true (.waitAndPop false), .step true, .step true, .step true,
    .call false (.direct (.push 7)), .step false, .step false, .notify false (some true),
    .step false, .step true, .step true, .step true]

theorem linearized_waking : ∃ s : ThreadSafeQueue Bool Nat,
    System.run next initial wakingRun = some s ∧
      Linearized Fifo.apply [] s.q s.phases (System.trace next shows initial wakingRun) := by
  obtain ⟨s, hrun⟩ : ∃ s, System.run next initial wakingRun = some s := ⟨_, rfl⟩
  exact ⟨s, hrun, linearized hrun⟩

end CambriconGst.Cxxutil.ThreadSafeQueue
