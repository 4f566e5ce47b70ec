import CambriconGst.Properties.ThreadSafeQueue
import Mathlib.Algebra.Order.BigOperators.Group.Finset

/-!
# No run of the thread-safe queue goes on for ever

* `ThreadSafeQueue.settles`: calls and spurious wakeups bound the steps of a run, and where one ends
  nobody sleeps beside an element

Each element has a thread that is awake for it, for as long as somebody sleeps.
-/

namespace CambriconGst.Cxxutil.ThreadSafeQueue

open Lib Finset

variable {τ α : Type}

namespace Pc

def holdsLock : Pc α → Bool
  | locked _ => true
  | wait _ w => w.holdsLock
  | lastTest => true
  | notifying _ => true
  | returning _ _ => true
  | _ => false

def isBlocking : Pc α → Bool
  | wait _ .blocking => true
  | _ => false

/-- Whether the thread tests the queue, or wakes one that does. -/
def awake : Pc α → Nat
  | wait _ .testing => 1
  | wait _ .woken => 1
  | timedOut => 1
  | lastTest => 1
  | notifying _ => 1
  | _ => 0

/-- How many steps are left; one that is blocked may be woken, and the waker stepped for it. -/
def rank : Pc α → Nat
  | idle => 0
  | returning _ _ => 1
  | lastTest => 2
  | timedOut => 3
  | wait _ .blocked => 4
  | wait _ .blocking => 5
  | notifying _ => 5
  | wait _ .testing => 6
  | locked _ => 6
  | locking _ => 7
  | wait _ .woken => 7

end Pc

namespace Label

def isCall : Label τ α → Bool
  | call _ _ => true
  | _ => false

def isSpurious : Label τ α → Bool
  | spurious _ => true
  | _ => false

/-- What a step adds to the ranks, over the one step that it is. -/
def credit (l : Label τ α) : Nat :=
  8 * l.isCall.toNat + 4 * l.isSpurious.toNat

end Label

theorem sum_credit (ls : List (Label τ α)) : (ls.map Label.credit).sum =
    8 * ls.countP Label.isCall + 4 * ls.countP Label.isSpurious := by
  induction ls with
  | nil => rfl
  | cons l ls ih =>
    rw [List.map_cons, List.sum_cons, ih, List.countP_cons, List.countP_cons, Label.credit]
    cases l.isCall <;> cases l.isSpurious <;> simp <;> omega

section Moves

variable [DecidableEq τ]

theorem pop_cases (s : ThreadSafeQueue τ α) (t : τ) (op : Op α) (otherwise : Pc α) :
    (∃ value q, s.q = value :: q ∧
      s.pop t op otherwise = { s.goto t (.returning op (.popped value)) with q }) ∨
    s.q = [] ∧ s.pop t op otherwise = s.goto t otherwise := by
  unfold pop
  cases hq : s.q with
  | cons value q => exact .inl ⟨value, q, rfl, rfl⟩
  | nil => exact .inr ⟨rfl, rfl⟩

/-- The steps, by what becomes of the lock. -/
inductive Shape (s : ThreadSafeQueue τ α) : Label τ α → ThreadSafeQueue τ α → Prop
  | hold {l : Label τ α} {t : τ} {p : Pc α} {q : List α} (hheld : (s.pc t).holdsLock = true)
    (hp : p.holdsLock = true) (hunblocked : p.isBlocked = false)
    (hblocking : p.isBlocking = true → q = [])
    (hawake : (∃ u, (s.pc u).isBlocked = true) → q ≠ [] →
      q.length + (s.pc t).awake ≤ s.q.length + p.awake)
    (hrank : p.rank < (s.pc t).rank) : s.Shape l { s.goto t p with q }
  | take {l : Label τ α} {t : τ} {p : Pc α} (hfree : s.owner = none) (hp : p.holdsLock = true)
    (hunblocked : p.isBlocked = false) (hblocking : p.isBlocking = false)
    (hawake : (s.pc t).awake ≤ p.awake) (hrank : p.rank < (s.pc t).rank) :
    s.Shape l { s.goto t p with owner := some t }
  | release {l : Label τ α} {t : τ} {p : Pc α} (hheld : (s.pc t).holdsLock = true)
    (hp : p.holdsLock = false)
    (hblocked : p.isBlocked = true → (s.pc t).isBlocking = true) (hawake : (s.pc t).awake = 0)
    (hrank : p.rank < (s.pc t).rank) : s.Shape l (s.unlock t p)
  | outside {l : Label τ α} {t : τ} {p : Pc α} (hfree : (s.pc t).holdsLock = false)
    (hp : p.holdsLock = false) (hunblocked : p.isBlocked = false)
    (hawake : (s.pc t).awake ≤ p.awake) (hrank : p.rank + 1 ≤ (s.pc t).rank + l.credit) :
    s.Shape l (s.goto t p)
  | notify {l : Label τ α} {t u : τ} {value : α} {timed : Bool} {op : Op α} {r : Result α}
    (hpc : s.pc t = .notifying value) (hblocked : s.pc u = .wait timed .blocked) :
    s.Shape l ((s.goto t (.returning op r)).goto u (.wait timed .woken))

theorem Shape.pop {s : ThreadSafeQueue τ α} {l : Label τ α} {t : τ} {op : Op α} {otherwise : Pc α}
    (hheld : (s.pc t).holdsLock = true) (hp : otherwise.holdsLock = true)
    (hunblocked : otherwise.isBlocked = false) (hawake : (s.pc t).awake ≤ 1)
    (hrank : 1 < (s.pc t).rank) (hother : otherwise.rank < (s.pc t).rank) :
    s.Shape l (s.pop t op otherwise) := by
  rcases s.pop_cases t op otherwise with ⟨value, q, hq, heq⟩ | ⟨hq, heq⟩
  · rw [heq]
    refine .hold hheld rfl rfl nofun (fun _ _ => ?_) hrank
    rw [hq, List.length_cons]
    show q.length + (s.pc t).awake ≤ q.length + 1 + 0
    omega
  · rw [heq]
    exact .hold hheld hp hunblocked (fun _ => hq) (fun _ hne => absurd hq hne) hother

theorem Moves.shape {s s' : ThreadSafeQueue τ α} {l : Label τ α} (h : s.Moves l s') :
    s.Shape l s' := by
  cases h with
  | @call t op hpc =>
    have hfree : (s.pc t).holdsLock = false := by rw [hpc]; rfl
    refine .outside hfree rfl rfl ?_ ?_ <;> simp [hpc, Pc.awake, Pc.rank, Label.credit, Label.isCall]
  | @enter t op hpc howner =>
    cases op with
    | direct m =>
      refine .take howner rfl rfl rfl ?_ ?_ <;> simp [hpc, Op.entered, Pc.awake, Pc.rank]
    | waitAndPop timed =>
      refine .take howner rfl rfl rfl ?_ ?_ <;> simp [hpc, Op.entered, Pc.awake, Pc.rank]
  | @body t m hpc =>
    have hheld : (s.pc t).holdsLock = true := by rw [hpc]; rfl
    cases m with
    | tryPop => refine .pop hheld rfl rfl ?_ ?_ ?_ <;> simp [hpc, Pc.awake, Pc.rank]
    | push value =>
      refine .hold hheld rfl rfl nofun (fun _ _ => ?_) ?_ <;> simp [hpc, Pc.awake, Pc.rank]
    | empty => refine .hold hheld rfl rfl nofun (fun _ _ => ?_) ?_ <;> simp [hpc, Pc.awake, Pc.rank]
    | size => refine .hold hheld rfl rfl nofun (fun _ _ => ?_) ?_ <;> simp [hpc, Pc.awake, Pc.rank]
  | @test t timed hpc =>
    have hheld : (s.pc t).holdsLock = true := by rw [hpc]; rfl
    refine .pop hheld rfl rfl ?_ ?_ ?_ <;> simp [hpc, Pc.awake, Pc.rank]
  | @block t timed hpc =>
    have hheld : (s.pc t).holdsLock = true := by rw [hpc]; rfl
    refine .release hheld rfl ?_ ?_ ?_ <;> simp [hpc, Pc.isBlocking, Pc.awake, Pc.rank]
  | relock hpc howner => refine .take howner rfl rfl rfl ?_ ?_ <;> simp [hpc, Pc.awake, Pc.rank]
  | relockLast hpc howner => refine .take howner rfl rfl rfl ?_ ?_ <;> simp [hpc, Pc.awake, Pc.rank]
  | @testLast t hpc =>
    have hheld : (s.pc t).holdsLock = true := by rw [hpc]; rfl
    refine .pop hheld rfl rfl ?_ ?_ ?_ <;> simp [hpc, Pc.awake, Pc.rank]
  | @ret t op r hpc =>
    have hheld : (s.pc t).holdsLock = true := by rw [hpc]; rfl
    refine .release hheld rfl nofun ?_ ?_ <;> simp [hpc, Pc.awake, Pc.rank]
  | notify hpc hblocked => exact .notify hpc hblocked
  | @notifyNone t value hpc hnone =>
    have hheld : (s.pc t).holdsLock = true := by rw [hpc]; rfl
    refine .hold (q := s.q) hheld rfl rfl nofun (fun hsome _ => ?_) (by simp [hpc, Pc.rank])
    obtain ⟨u, hu⟩ := hsome
    rw [hnone u] at hu
    cases hu
  | @spurious t timed hpc =>
    have hfree : (s.pc t).holdsLock = false := by rw [hpc]; rfl
    refine .outside hfree rfl rfl ?_ ?_ <;>
      simp [hpc, Pc.awake, Pc.rank, Label.credit, Label.isCall, Label.isSpurious]
  | @timeout t hpc =>
    have hfree : (s.pc t).holdsLock = false := by rw [hpc]; rfl
    refine .outside hfree rfl rfl ?_ ?_ <;> simp [hpc, Pc.awake, Pc.rank]

end Moves

/-! ## The invariant -/

/-- Who has the lock; somebody who is about to sleep has it. -/
structure Owned (s : ThreadSafeQueue τ α) : Prop where
  lock : ∀ t, (s.pc t).holdsLock = true ↔ s.owner = some t
  blocking : ∀ t, (s.pc t).isBlocking = true → s.q = []

/-- While somebody sleeps, there are as many awake as there are elements. -/
structure Settled [Fintype τ] (s : ThreadSafeQueue τ α) : Prop extends Owned s where
  awake : (∃ t, (s.pc t).isBlocked = true) → s.q.length ≤ ∑ t, (s.pc t).awake

theorem settled_initial [Fintype τ] : (initial : ThreadSafeQueue τ α).Settled where
  lock t := by simp [initial, Pc.holdsLock]
  blocking t h := rfl
  awake _ := Nat.zero_le _

theorem holdsLock_of_isBlocking {p : Pc α} (h : p.isBlocking = true) : p.holdsLock = true := by
  unfold Pc.isBlocking at h
  split at h
  · rfl
  · cases h

section Steps

variable [DecidableEq τ] {s s' : ThreadSafeQueue τ α} {t : τ} {p : Pc α}

/-- A thread moves; what it does to the queue, it does with the lock. -/
theorem Owned.goto (hs : s.Owned) {owner : Option τ} {q : List α}
    (ht : p.holdsLock = true ↔ owner = some t)
    (hu : ∀ u, u ≠ t → (s.owner = some u ↔ owner = some u))
    (hblocking : p.isBlocking = true → q = []) (hq : s.owner = some t ∨ q = s.q) :
    Owned { s.goto t p with owner, q } := by
  refine ⟨fun u => ?_, fun u hu => ?_⟩
  · by_cases hut : u = t
    · simpa [hut] using ht
    · simpa only [goto_pc_of_ne s p hut, hs.lock u] using hu u hut
  · by_cases hut : u = t
    · exact hblocking (by simpa [hut] using hu)
    · simp only [goto_pc_of_ne s p hut] at hu
      rcases hq with howner | rfl
      · have := (hs.lock u).mp (holdsLock_of_isBlocking hu)
        exact absurd (Option.some.inj (this.symm.trans howner)) hut
      · exact hs.blocking u hu

/-- A thread moves, and the lock stays with who has it. -/
theorem Owned.goto_same (hs : s.Owned) (hp : p.holdsLock = (s.pc t).holdsLock)
    (hblocking : p.isBlocking = false) : (s.goto t p).Owned := by
  refine Owned.goto (q := s.q) hs ?_ (fun _ _ => Iff.rfl) ?_ (.inr rfl)
  · rw [hp]
    exact hs.lock t
  · simp [hblocking]

/-- When a thread moves that does not go to sleep, somebody slept before if somebody does after. -/
theorem blocked_goto (hp : p.isBlocked = false)
    (h : ∃ u, ((s.goto t p).pc u).isBlocked = true) : ∃ u, (s.pc u).isBlocked = true := by
  obtain ⟨u, hu⟩ := h
  refine ⟨u, ?_⟩
  by_cases hut : u = t
  · rw [hut, goto_pc_self, hp] at hu
    cases hu
  · rwa [goto_pc_of_ne s p hut] at hu

variable [Fintype τ]

/-- A sum over the threads, when one of them moves. -/
theorem sum_goto (s : ThreadSafeQueue τ α) (t : τ) (p : Pc α) (w : Pc α → Nat) :
    ∑ u, w ((s.goto t p).pc u) + w (s.pc t) = ∑ u, w (s.pc u) + w p := by
  have hrest : ∑ u ∈ univ.erase t, w ((s.goto t p).pc u) = ∑ u ∈ univ.erase t, w (s.pc u) :=
    sum_congr rfl fun u hu => by rw [goto_pc_of_ne s p (ne_of_mem_erase hu)]
  rw [← add_sum_erase univ _ (mem_univ t), ← add_sum_erase univ (fun u => w (s.pc u)) (mem_univ t),
    hrest, goto_pc_self]
  omega

/-- A sum over the threads, when one of them wakes another. -/
theorem sum_notify {s : ThreadSafeQueue τ α} {t u : τ} {value : α} {timed : Bool}
    (hpc : s.pc t = .notifying value) (hblocked : s.pc u = .wait timed .blocked) (p : Pc α)
    (w : Pc α → Nat) :
    ∑ v, w (((s.goto t p).goto u (.wait timed .woken)).pc v) + w (.notifying value) +
      w (.wait timed .blocked) = ∑ v, w (s.pc v) + w p + w (.wait timed .woken) := by
  have hne : u ≠ t := by
    rintro rfl
    simp [hpc] at hblocked
  have hfirst := s.sum_goto t p w
  have hsecond := (s.goto t p).sum_goto u (.wait timed .woken) w
  rw [hpc] at hfirst
  rw [goto_pc_of_ne _ _ hne, hblocked] at hsecond
  omega

theorem Settled.step (hs : s.Settled) {l : Label τ α} (h : s.Shape l s') : s'.Settled := by
  cases h with
  | @hold t p q hheld hp hunblocked hblocking hawake hrank =>
    have howner := (hs.lock t).mp hheld
    refine ⟨hs.toOwned.goto (iff_of_true hp howner) (fun _ _ => Iff.rfl) hblocking (.inl howner),
      fun hsome => ?_⟩
    replace hsome := blocked_goto hunblocked hsome
    by_cases hq : q = []
    · simp [hq]
    · have hsum := s.sum_goto t p Pc.awake
      have hmoved := hawake hsome hq
      have hbefore := hs.awake hsome
      dsimp only
      omega
  | @take t p hfree hp hunblocked hblocking hawake hrank =>
    refine ⟨hs.toOwned.goto (iff_of_true hp rfl) (fun u hu => ?_) (by simp [hblocking]) (.inr rfl),
      fun hsome => ?_⟩
    · rw [hfree]
      simp [Ne.symm hu]
    · have hsum := s.sum_goto t p Pc.awake
      have hbefore := hs.awake (blocked_goto hunblocked hsome)
      dsimp only [ThreadSafeQueue.goto] at hsum ⊢
      omega
  | @release t p hheld hp hblocked hawake hrank =>
    have howner := (hs.lock t).mp hheld
    have hblocking : p.isBlocking = true → s.q = [] := by
      intro h
      rw [holdsLock_of_isBlocking h] at hp
      cases hp
    refine ⟨hs.toOwned.goto (by simp [hp]) (fun u hu => ?_) hblocking (.inr rfl), fun hsome => ?_⟩
    · rw [howner]
      simp [Ne.symm hu]
    · cases hblk : p.isBlocked with
      | true =>
        -- it tested the queue, and has had the lock since
        have hempty : (s.unlock t p).q = [] := hs.blocking t (hblocked hblk)
        simp [hempty]
      | false =>
        have hsum := s.sum_goto t p Pc.awake
        have hbefore := hs.awake (blocked_goto hblk hsome)
        dsimp only [unlock, ThreadSafeQueue.goto] at hsum ⊢
        omega
  | @outside t p hfree hp hunblocked hawake hrank =>
    have hblocking : p.isBlocking = false := by
      rw [Bool.eq_false_iff]
      intro h
      rw [holdsLock_of_isBlocking h] at hp
      cases hp
    refine ⟨hs.toOwned.goto_same (hp.trans hfree.symm) hblocking, fun hsome => ?_⟩
    have hsum := s.sum_goto t p Pc.awake
    have hbefore := hs.awake (blocked_goto hunblocked hsome)
    dsimp only [ThreadSafeQueue.goto] at hsum ⊢
    omega
  | @notify t u value timed op r hpc hblocked =>
    have hne : u ≠ t := by
      rintro rfl
      simp [hpc] at hblocked
    have hu : (s.goto t (.returning op r)).pc u = .wait timed .blocked := by
      rw [goto_pc_of_ne _ _ hne, hblocked]
    refine ⟨(hs.toOwned.goto_same ?_ rfl).goto_same ?_ rfl, fun _ => ?_⟩
    · rw [hpc]
      rfl
    · rw [hu]
      rfl
    · have hsum := sum_notify hpc hblocked (.returning op r) Pc.awake
      have hbefore := hs.awake ⟨u, by rw [hblocked]; rfl⟩
      change _ + 1 + 0 = _ + 0 + 1 at hsum
      dsimp only [ThreadSafeQueue.goto] at hsum ⊢
      omega

/-! ## The ranks -/

def work (s : ThreadSafeQueue τ α) : Nat :=
  ∑ t, (s.pc t).rank

theorem Shape.work_lt {l : Label τ α} (h : s.Shape l s') : s'.work + 1 ≤ s.work + l.credit := by
  unfold work
  cases h with
  | @hold t p q hheld hp hunblocked hblocking hawake hrank =>
    have hsum := s.sum_goto t p Pc.rank
    dsimp only
    omega
  | @take t p hfree hp hunblocked hblocking hawake hrank =>
    have hsum := s.sum_goto t p Pc.rank
    dsimp only
    omega
  | @release t p hheld hp hblocked hawake hrank =>
    have hsum := s.sum_goto t p Pc.rank
    dsimp only [unlock]
    omega
  | @outside t p hfree hp hunblocked hawake hrank =>
    have hsum := s.sum_goto t p Pc.rank
    omega
  | @notify t u value timed op r hpc hblocked =>
    have hsum := sum_notify hpc hblocked (.returning op r) Pc.rank
    change _ + 5 + 4 = _ + 1 + 7 at hsum
    omega

/-! ## Where a run ends -/

/-- No thread can go on: only calls and spurious wakeups are left. -/
def Stuck (s : ThreadSafeQueue τ α) : Prop :=
  ∀ l, (s.next l).isSome = true → l.isCall = true ∨ l.isSpurious = true

theorem exists_notify {value : α} (hpc : s.pc t = .notifying value) :
    ∃ woken, (s.next (.notify t woken)).isSome = true := by
  by_cases hsome : ∃ u, (s.pc u).isBlocked = true
  · obtain ⟨u, hu⟩ := hsome
    have hne : u ≠ t := by
      rintro rfl
      simp [hpc, Pc.isBlocked] at hu
    refine ⟨some u, ?_⟩
    unfold Pc.isBlocked at hu
    split at hu
    · next timed hblocked => simp [next, hpc, wake, goto_pc_of_ne _ _ hne, hblocked]
    · cases hu
  · refine ⟨none, ?_⟩
    have hnone : ∀ u, ((s.goto t (.returning (.direct (.push value)) .pushed)).pc u).isBlocked =
        false := by
      intro u
      rw [← Bool.not_eq_true]
      exact fun hu => hsome (blocked_goto rfl ⟨u, hu⟩)
    simp [next, hpc, hnone]

/-- Who has the lock can go on. -/
theorem Stuck.not_holdsLock (hs : s.Stuck) (t : τ) : (s.pc t).holdsLock = false := by
  have hstep := hs (.step t)
  simp only [next, Label.isCall, Label.isSpurious] at hstep
  cases hpc : s.pc t with
  | idle => rfl
  | locking op => rfl
  | locked m => simp [hpc] at hstep
  | wait timed w =>
    cases w with
    | testing => simp [hpc] at hstep
    | blocking => simp [hpc] at hstep
    | blocked => rfl
    | woken => rfl
  | timedOut => rfl
  | lastTest => simp [hpc] at hstep
  | notifying value =>
    obtain ⟨woken, hwoken⟩ := exists_notify hpc
    simpa [Label.isCall, Label.isSpurious] using hs _ hwoken
  | returning op r => simp [hpc] at hstep

/-- Who waits for the lock can take it, and who waits for a timeout gets it. -/
theorem Stuck.idle_or_blocked (hs : s.Stuck) (howner : s.owner = none) (t : τ) :
    s.pc t = .idle ∨ s.pc t = .wait false .blocked := by
  have hheld := hs.not_holdsLock t
  have hstep := hs (.step t)
  have htimeout := hs (.timeout t)
  simp only [next, lock, howner, Label.isCall, Label.isSpurious] at hstep htimeout
  cases hpc : s.pc t with
  | idle => exact .inl rfl
  | locking op => simp [hpc] at hstep
  | wait timed w =>
    cases w with
    | blocked =>
      cases timed with
      | false => exact .inr rfl
      | true => simp [hpc] at htimeout
    | woken => simp [hpc] at hstep
    | testing => simp [hpc, Pc.holdsLock, Waiter.holdsLock] at hheld
    | blocking => simp [hpc, Pc.holdsLock, Waiter.holdsLock] at hheld
  | timedOut => simp [hpc] at hstep
  | locked m => simp [hpc, Pc.holdsLock] at hheld
  | lastTest => simp [hpc, Pc.holdsLock] at hheld
  | notifying value => simp [hpc, Pc.holdsLock] at hheld
  | returning op r => simp [hpc, Pc.holdsLock] at hheld

/-- In a state where no thread can go on, nobody sleeps beside an element. -/
theorem Settled.of_stuck (hs : s.Settled) (hstuck : s.Stuck) :
    s.owner = none ∧ (∀ t, s.pc t = .idle ∨ s.pc t = .wait false .blocked) ∧
      ((∃ t, s.pc t = .wait false .blocked) → s.q = []) := by
  have howner : s.owner = none := by
    cases howner : s.owner with
    | none => rfl
    | some t =>
      have hheld := (hs.lock t).mpr howner
      rw [hstuck.not_holdsLock t] at hheld
      cases hheld
  have hpcs := hstuck.idle_or_blocked howner
  refine ⟨howner, hpcs, ?_⟩
  rintro ⟨t, ht⟩
  have hawake := hs.awake ⟨t, by rw [ht]; rfl⟩
  have hsum : ∑ u, (s.pc u).awake = 0 := by
    refine sum_eq_zero fun u _ => ?_
    rcases hpcs u with hu | hu <;> rw [hu] <;> rfl
  exact List.eq_nil_of_length_eq_zero (by omega)

theorem run_length_le {ls : List (Label τ α)} (hrun : System.run next initial ls = some s) :
    ls.length ≤ 8 * ls.countP Label.isCall + 4 * ls.countP Label.isSpurious := by
  have hwork := System.run_work (C := fun _ _ => True) (I := fun _ => True) work (fun _ => 1)
    Label.credit (fun _ _ _ _ _ _ => trivial) (fun _ _ _ _ _ h => (moves_of_next h).shape.work_lt)
    trivial (System.meets_of_forall (fun _ _ => trivial) _ _) hrun
  have hzero : (initial : ThreadSafeQueue τ α).work = 0 := sum_eq_zero fun _ _ => rfl
  simp only [hzero, sum_credit, List.map_const', List.sum_replicate_nat] at hwork
  omega

/--
**No run goes on for ever, and where one ends nobody sleeps beside an element**: a call gives rise to
at most eight steps and a spurious wakeup to four; when no thread can go on, each is outside or waits
without a timeout, and then the queue is empty.
-/
theorem settles {ls : List (Label τ α)} (hrun : System.run next initial ls = some s) :
    ls.length ≤ 8 * ls.countP Label.isCall + 4 * ls.countP Label.isSpurious ∧
      (s.Stuck → s.owner = none ∧ (∀ t, s.pc t = .idle ∨ s.pc t = .wait false .blocked) ∧
        ((∃ t, s.pc t = .wait false .blocked) → s.q = [])) :=
  ⟨run_length_le hrun, Settled.of_stuck <|
    System.run_invariant (fun _ _ _ hs h => hs.step (moves_of_next h).shape) hrun settled_initial⟩

end Steps

/-- A thread waits, and nobody pushes. -/
def waitingRun : List (Label Bool Nat) :=
  [.call true (.waitAndPop false), .step true, .step true, .step true]

theorem settles_waiting : ∃ s : ThreadSafeQueue Bool Nat,
    System.run next initial waitingRun = some s ∧ s.pc true = .wait false .blocked ∧
      s.owner = none ∧ s.q = [] := by
  obtain ⟨s, hrun, hs⟩ : ∃ s : ThreadSafeQueue Bool Nat,
      System.run next initial waitingRun = some s ∧ s.owner = none ∧
        s.pc true = .wait false .blocked ∧ s.pc false = .idle := ⟨_, rfl, rfl, rfl, rfl⟩
  obtain ⟨howner, htrue, hfalse⟩ := hs
  have hstuck : s.Stuck := by
    intro l hl
    rcases l with ⟨t, op⟩ | t | ⟨t, woken⟩ | t | t
    · exact .inl rfl
    · cases t <;> simp [next, htrue, hfalse] at hl
    · cases t <;> simp [next, htrue, hfalse] at hl
    · exact .inr rfl
    · cases t <;> simp [next, htrue, hfalse] at hl
  obtain ⟨-, hsettled⟩ := settles hrun
  exact ⟨s, hrun, htrue, (hsettled hstuck).1, (hsettled hstuck).2.2 ⟨true, htrue⟩⟩

end CambriconGst.Cxxutil.ThreadSafeQueue
