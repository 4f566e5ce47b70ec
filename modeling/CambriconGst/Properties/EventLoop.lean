import Mathlib.Logic.Basic
import CambriconGst.Easycodec.EventLoop

/-!
# Properties of the event loop

* `EventLoop.pop_cases`, `notify_eq_some`, `exit_eq_some`: all that the thread's steps do
* `Attended`: what the elements keep of their event loop, with a lemma for each thing they do to it
-/

namespace CambriconGst.Easycodec

open Lib

namespace EventLoop

variable {s t : EventLoop}

theorem pop_cases (h : s.pop = some t) : s.runner = .loop ∧ ∃ type rest,
    s.eventQueue = type :: rest ∧
      ((type = .eos ∧ t = { s with eventQueue := rest, runner := .notifying }) ∨
        (type.aborts = true ∧ s.handle.isSome = true ∧
          t = { s with eventQueue := rest, handle := none, runner := .notifying }) ∨
        (type ≠ .eos ∧ (type.aborts = true → s.handle = none) ∧
          t = { s with eventQueue := rest })) := by
  unfold pop at h
  split at h
  · next type rest hr hq =>
    refine ⟨hr, type, rest, hq, ?_⟩
    split at h
    · next he =>
      cases h
      exact .inl ⟨he, rfl⟩
    · next he =>
      split at h
      · next ha =>
        cases h
        exact .inr (.inl ⟨ha.1, ha.2, rfl⟩)
      · next ha =>
        cases h
        refine .inr (.inr ⟨he, fun hab => ?_, rfl⟩)
        exact Option.not_isSome_iff_eq_none.mp fun hs => ha ⟨hab, hs⟩
  · cases h

theorem notify_eq_some {announces : Bool} : s.notify announces = some t ↔ s.runner = .notifying ∧
    t = { s with
      gotEos := true
      runner := .loop
      eosCalls := s.eosCalls + if announces then 1 else 0 } := by
  unfold notify
  split
  · next hr => exact ⟨fun h => ⟨hr, (Option.some.inj h).symm⟩, fun h => h.2 ▸ rfl⟩
  · next hr => exact ⟨fun h => (by cases h), fun h => absurd h.1 hr⟩

theorem notify_of_notifying (h : s.runner = .notifying) (announces : Bool) :
    s.notify announces = some { s with
      gotEos := true
      runner := .loop
      eosCalls := s.eosCalls + if announces then 1 else 0 } :=
  notify_eq_some.mpr ⟨h, rfl⟩

theorem exit_eq_some : s.exit = some t ↔ s.runner = .loop ∧ s.eventQueue = [] ∧ s.gotEos = true ∧
    t = { s with runner := .finished } := by
  unfold exit
  split
  · next hr hq hg => exact ⟨fun h => ⟨hr, hq, hg, (Option.some.inj h).symm⟩, fun h => h.2.2.2 ▸ rfl⟩
  · next hn => exact ⟨fun h => (by cases h), fun h => absurd h.2.2.1 (hn h.1 h.2.1)⟩

end EventLoop

/-! ## An element and its event loop -/

/-- Where an element is, as far as its event loop goes. -/
inductive Stage where
  | elsewhere
  /-- About to start the event loop. -/
  | starting
  /-- About to create the codec. -/
  | creating
  | settingAttributes

/--
The codec instances `live` are held, and the event loop is there to be joined: it was left behind when
`stranded` says so.
-/
structure Attended (loop : EventLoop) (live : List Nat) (stranded : Bool) (stage : Stage) :
    Prop where
  held : ∀ d ∈ live, loop.handle = some d
  live : ∀ d, loop.handle = some d → d ∈ live
  looped : loop.handle ≠ none → loop.runner.joinable
  fresh : stage = .starting ∨ stage = .creating → loop.handle = none
  started : stage = .creating ∨ stage = .settingAttributes → loop.runner.joinable
  left : loop.runner.joinable → loop.handle = none → stage = .creating ∨ stranded = true
  stranded : stranded = true → loop.runner.joinable

namespace Attended

variable {loop loop' : EventLoop} {live : List Nat} {stranded : Bool} {stage stage' : Stage}

theorem initial (hh : loop.handle = none) (hr : loop.runner = .none) :
    Attended loop [] false .elsewhere where
  held := fun _ h => absurd h List.not_mem_nil
  live := fun _ hd => absurd (hh.symm.trans hd) nofun
  looped := fun h => absurd hh h
  fresh := fun _ => hh
  started := fun h => h.elim nofun nofun
  left := fun hj => absurd hr hj
  stranded := nofun

theorem live_eq_nil (h : Attended loop live stranded stage) (hd : loop.handle = none) :
    live = [] := by
  refine List.eq_nil_iff_forall_not_mem.mpr fun d hmem => ?_
  rw [h.held d hmem] at hd
  cases hd

/-- Without its codec, and away from where it is started, an event loop was left behind. -/
theorem joinable_iff (h : Attended loop live stranded stage) (hd : loop.handle = none)
    (hs : stage ≠ .creating) : loop.runner.joinable ↔ stranded = true :=
  ⟨fun hj => (h.left hj hd).resolve_left hs, h.stranded⟩

/-- The element goes on to where nothing is started. -/
theorem goto (h : Attended loop live stranded stage) (hs : stage ≠ .creating) :
    Attended loop live stranded .elsewhere :=
  { h with
    fresh := fun he => he.elim nofun nofun
    started := fun he => he.elim nofun nofun
    left := fun hj hd => .inr ((h.left hj hd).resolve_left hs) }

theorem start (h : Attended loop live stranded stage) (hs : stage ≠ .creating)
    (hd : loop.handle = none) : Attended loop live stranded .starting :=
  { h with
    fresh := fun _ => hd
    started := fun he => he.elim nofun nofun
    left := fun hj hd => .inr ((h.left hj hd).resolve_left hs) }

/-- Neither the handle changes nor whether there is a thread to join. -/
theorem move (h : Attended loop live stranded stage) (hh : loop'.handle = loop.handle)
    (hj : loop'.runner.joinable ↔ loop.runner.joinable) : Attended loop' live stranded stage where
  held := fun d hd => hh.trans (h.held d hd)
  live := fun d hd => h.live d (hh.symm.trans hd)
  looped := fun hd => hj.mpr (h.looped fun he => hd (hh.trans he))
  fresh := fun hp => hh.trans (h.fresh hp)
  started := fun hp => hj.mpr (h.started hp)
  left := fun hr hd => h.left (hj.mp hr) (hh.symm.trans hd)
  stranded := fun he => hj.mpr (h.stranded he)

/-- The element turns away from a codec that it holds. -/
theorem strand (h : Attended loop live stranded stage) (hd : loop.handle ≠ none) :
    Attended loop live true stage :=
  { h with
    left := fun _ he => absurd he hd
    stranded := fun _ => h.looped hd }

/-- The thread is joined and the codec destroyed. -/
theorem joined (h : Attended loop live stranded stage)
    (hs : ¬(stage' = .creating ∨ stage' = .settingAttributes)) :
    Attended { loop with runner := .none, handle := none }
      (live.filter fun d => loop.handle ≠ some d) false stage' where
  held := fun d hd => by
    obtain ⟨hmem, hne⟩ := List.mem_filter.mp hd
    exact absurd (h.held d hmem) (by simpa using hne)
  live := nofun
  looped := fun hd => absurd rfl hd
  fresh := fun _ => rfl
  started := fun he => absurd he hs
  left := fun hj => absurd rfl hj
  stranded := nofun

/-- There is no codec any more, or there never was; the thread is left. -/
theorem leave (hd : loop.handle = none) (hj : loop.runner.joinable) :
    Attended loop [] true stage where
  held := fun _ h => absurd h List.not_mem_nil
  live := fun _ he => absurd (hd.symm.trans he) nofun
  looped := fun _ => hj
  fresh := fun _ => hd
  started := fun _ => hj
  left := fun _ _ => .inr rfl
  stranded := fun _ => hj

theorem startLoop (h : Attended loop live stranded .starting) (hh : loop'.handle = loop.handle)
    (hj : loop'.runner.joinable) : Attended loop' live stranded .creating where
  held := fun d hd => hh.trans (h.held d hd)
  live := fun d hd => h.live d (hh.symm.trans hd)
  looped := fun _ => hj
  fresh := fun _ => hh.trans (h.fresh (.inl rfl))
  started := fun _ => hj
  left := fun _ _ => .inl rfl
  stranded := fun _ => hj

/-- The codec `d` is created. -/
theorem create (h : Attended loop live stranded .creating) {d : Nat} (hh : loop'.handle = some d)
    (hr : loop'.runner = loop.runner) (hs : ¬(stage' = .starting ∨ stage' = .creating)) :
    Attended loop' (d :: live) stranded stage' where
  held := fun e he => by
    rw [h.live_eq_nil (h.fresh (.inr rfl))] at he
    rw [hh, List.mem_singleton.mp he]
  live := fun e he => by
    obtain rfl := Option.some.inj (hh.symm.trans he)
    exact List.mem_cons_self
  looped := fun _ => hr ▸ h.started (.inl rfl)
  fresh := fun he => absurd he hs
  started := fun _ => hr ▸ h.started (.inl rfl)
  left := fun _ he => absurd (hh.symm.trans he) nofun
  stranded := fun _ => hr ▸ h.started (.inl rfl)

/-- No other instance is left when the one that is held is taken away. -/
theorem filter_live (h : Attended loop live stranded stage) {d : Nat} (hd : loop.handle = some d) :
    (live.filter fun e => e ≠ d) = [] := by
  refine List.filter_eq_nil_iff.mpr fun e hmem => ?_
  obtain rfl := Option.some.inj ((h.held e hmem).symm.trans hd)
  simp

end Attended

end CambriconGst.Easycodec
