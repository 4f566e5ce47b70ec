import Mathlib.Data.Finset.Basic
import Mathlib.Logic.Function.Basic

/-!
# Read-write locks

* `RwLock.Governs`: every thread has the lock in the mode that it believes to have it in
-/

namespace CambriconGst.Lib

variable {τ : Type*}

/-- Who has the lock. -/
structure RwLock (τ : Type*) where
  writer : Option τ
  readers : Finset τ

namespace RwLock

inductive Mode where
  | read
  | write
deriving DecidableEq, Repr

def free : RwLock τ where
  writer := none
  readers := ∅

section Calls

variable [DecidableEq τ]

def rdLock (l : RwLock τ) (t : τ) : Option (RwLock τ) :=
  if l.writer = none then some { l with readers := insert t l.readers } else none

def wrLock (l : RwLock τ) (t : τ) : Option (RwLock τ) :=
  if l.writer = none ∧ l.readers = ∅ then some { l with writer := some t } else none

def acquire (l : RwLock τ) (t : τ) : Mode → Option (RwLock τ)
  | .read => l.rdLock t
  | .write => l.wrLock t

def unlock (l : RwLock τ) (t : τ) : RwLock τ :=
  if l.writer = some t then { l with writer := none }
  else { l with readers := l.readers.erase t }

end Calls

/-- The lock, and in what mode each thread has it. -/
structure Governs (l : RwLock τ) (mode : τ → Option Mode) : Prop where
  writer : ∀ t, mode t = some .write ↔ l.writer = some t
  readers : ∀ t, mode t = some .read ↔ t ∈ l.readers
  excludes : ∀ t, l.writer = some t → l.readers = ∅

variable {l l' : RwLock τ} {mode : τ → Option Mode} {t u : τ}

theorem governs_free : Governs (free : RwLock τ) fun _ => none where
  writer t := by simp [free]
  readers t := by simp [free]
  excludes t h := by cases h

namespace Governs

/-- **Nobody else has the lock beside a writer.** -/
theorem eq_of_write (h : Governs l mode) (ht : mode t = some .write) (hu : mode u ≠ none) :
    u = t := by
  have hwriter := (h.writer t).mp ht
  cases hmode : mode u with
  | none => exact absurd hmode hu
  | some m =>
    cases m with
    | read =>
      have hmem := (h.readers u).mp hmode
      rw [h.excludes t hwriter] at hmem
      cases hmem
    | write => exact Option.some.inj (((h.writer u).mp hmode).symm.trans hwriter)

section Calls

variable [DecidableEq τ]

theorem rdLock (h : Governs l mode) (hl : l.rdLock t = some l') :
    Governs l' (Function.update mode t (some .read)) := by
  obtain ⟨hfree, hl⟩ := Option.ite_none_right_eq_some.mp hl
  obtain rfl := Option.some.inj hl
  refine ⟨fun u => ?_, fun u => ?_, fun u hu => ?_⟩
  · by_cases hut : u = t
    · simp [hut, hfree]
    · simpa [Function.update_of_ne hut] using h.writer u
  · by_cases hut : u = t
    · simp [hut]
    · simpa [Function.update_of_ne hut, hut] using h.readers u
  · rw [hfree] at hu
    cases hu

theorem wrLock (h : Governs l mode) (hl : l.wrLock t = some l') :
    Governs l' (Function.update mode t (some .write)) := by
  obtain ⟨⟨hfree, hnone⟩, hl⟩ := Option.ite_none_right_eq_some.mp hl
  obtain rfl := Option.some.inj hl
  refine ⟨fun u => ?_, fun u => ?_, fun _ _ => hnone⟩
  · by_cases hut : u = t
    · simp [hut]
    · simpa [Function.update_of_ne hut, hfree, Ne.symm hut] using h.writer u
  · by_cases hut : u = t
    · simp [hut, hnone]
    · simpa [Function.update_of_ne hut] using h.readers u

theorem acquire {m : Mode} (h : Governs l mode) (hl : l.acquire t m = some l') :
    Governs l' (Function.update mode t (some m)) := by
  cases m with
  | read => exact h.rdLock hl
  | write => exact h.wrLock hl

theorem unlock (h : Governs l mode) :
    Governs (l.unlock t) (Function.update mode t none) := by
  unfold RwLock.unlock
  split
  · next hwriter =>
    refine ⟨fun u => ?_, fun u => ?_, fun u hu => by cases hu⟩
    · by_cases hut : u = t
      · simp [hut]
      · have := h.writer u
        rw [hwriter] at this
        simpa [Function.update_of_ne hut, Ne.symm hut] using this
    · by_cases hut : u = t
      · simp [hut, h.excludes t hwriter]
      · simpa [Function.update_of_ne hut] using h.readers u
  · next hreader =>
    refine ⟨fun u => ?_, fun u => ?_, fun u hu => ?_⟩
    · by_cases hut : u = t
      · simpa [hut] using hreader
      · simpa [Function.update_of_ne hut] using h.writer u
    · by_cases hut : u = t
      · simp [hut]
      · simpa [Function.update_of_ne hut, hut] using h.readers u
    · simp [h.excludes u hu]

end Calls

theorem free_of_none (h : Governs l mode) (hnone : ∀ t, mode t = none) :
    l.writer = none ∧ l.readers = ∅ := by
  refine ⟨?_, Finset.eq_empty_of_forall_notMem fun t ht => ?_⟩
  · cases hw : l.writer with
    | none => rfl
    | some t =>
      have := (h.writer t).mpr hw
      rw [hnone t] at this
      cases this
  · have := (h.readers t).mpr ht
    rw [hnone t] at this
    cases this

/-- When nobody has it, everybody can take it. -/
theorem isSome_acquire [DecidableEq τ] (h : Governs l mode) (hnone : ∀ t, mode t = none) (t : τ)
    (m : Mode) : (l.acquire t m).isSome = true := by
  have hfree := h.free_of_none hnone
  cases m with
  | read => simp [RwLock.acquire, RwLock.rdLock, hfree]
  | write => simp [RwLock.acquire, RwLock.wrLock, hfree]

end Governs

end RwLock

end CambriconGst.Lib
