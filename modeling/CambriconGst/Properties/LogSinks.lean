import CambriconGst.Cxxutil.LogSinks

/-!
# Log sinks

For any number of threads, in every interleaving.

* `LogSinks.settled_sinks`: the calls take effect one after the other, a message goes to each sink as
  often as it is registered, no index is out of range, and a sink that is in use is registered
-/

namespace CambriconGst.Cxxutil.LogSinks

open Lib

/-! ## The vector -/

/-- Overwriting an entry by the last one, which is then removed, takes the entry out. -/
theorem set_dropLast_perm {κ : Type} {l : List κ} {i : Nat} (hi : i < l.length) {last : κ}
    (hlast : l.getLast? = some last) : ((l.set i last).dropLast).Perm (l.eraseIdx i) := by
  have hne : l.set i last ≠ [] := by
    rw [Ne, List.set_eq_nil_iff]
    exact List.ne_nil_of_length_pos (by omega)
  have hsame : (l.set i last).getLast hne = last := by
    rw [List.getLast_eq_getElem, List.getElem_set]
    split
    · rfl
    · rw [List.getLast?_eq_getElem?] at hlast
      exact List.getElem_of_getElem? (by simpa using hlast) |>.2
  have hsplit := List.dropLast_append_getLast hne
  rw [hsame] at hsplit
  have hperm : ((l.set i last).dropLast ++ [last]).Perm (last :: l.eraseIdx i) := by
    rw [hsplit]
    exact List.set_perm_cons_eraseIdx hi last
  exact ((List.perm_append_singleton _ _).symm.trans hperm).cons_inv

theorem coe_set_dropLast {κ : Type} [DecidableEq κ] {l : List κ} {i : Nat} {sink last : κ}
    (hsink : l[i]? = some sink) (hlast : l.getLast? = some last) :
    ((l.set i last).dropLast : Multiset κ) = (l : Multiset κ).erase sink := by
  obtain ⟨hi, rfl⟩ := List.getElem?_eq_some_iff.mp hsink
  rw [Multiset.coe_eq_coe.mpr (set_dropLast_perm hi hlast),
    ← Multiset.coe_eq_coe.mpr (List.getElem_cons_eraseIdx_perm hi), ← Multiset.cons_coe,
    Multiset.erase_cons_head]

/-! ## Where a thread is -/

variable {τ κ : Type}

def Op.mode : Op κ → RwLock.Mode
  | addLogSink _ => .write
  | removeLogSink _ => .write
  | logToSinks => .read

namespace Pc

/-- How a thread has the lock. -/
def mode : Pc κ → Option RwLock.Mode
  | pushing _ => some .write
  | searching _ _ => some .write
  | sending _ _ => some .read
  | waiting _ _ => some .read
  | returning op _ => some op.mode
  | _ => none

def phase : Pc κ → Phase (Op κ) (Result κ)
  | locking op => .called op
  | pushing sink => .called (.addLogSink sink)
  | searching sink _ => .called (.removeLogSink sink)
  | sending _ _ => .called .logToSinks
  | waiting _ _ => .called .logToSinks
  | returning op r => .done op r
  | _ => .idle

/-- What a loop has done of the sinks. -/
def Sound (sinks : List κ) : Pc κ → Prop
  | searching sink i => i ≤ sinks.length ∧ sink ∉ sinks.drop i
  | sending i sent => i ≤ sinks.length ∧ sent.reverse = sinks.drop i
  | waiting i sent => i < sinks.length ∧ sent.reverse = sinks.drop i
  | outOfRange => False
  | _ => True

/-- A thread without the lock knows nothing of the sinks. -/
theorem Sound.of_mode_none {sinks : List κ} {p : Pc κ} (h : p.Sound sinks) (hp : p.mode = none)
    (sinks' : List κ) : p.Sound sinks' := by
  cases p with
  | idle => trivial
  | locking op => trivial
  | outOfRange => exact h
  | _ => cases hp

end Pc

def phases (s : LogSinks τ κ) (t : τ) : Phase (Op κ) (Result κ) :=
  (s.pc t).phase

def modes (s : LogSinks τ κ) (t : τ) : Option RwLock.Mode :=
  (s.pc t).mode

variable [DecidableEq τ]

theorem phases_goto (s : LogSinks τ κ) (t : τ) (p : Pc κ) :
    (s.goto t p).phases = Function.update s.phases t p.phase :=
  Function.comp_update Pc.phase s.pc t p

theorem modes_goto (s : LogSinks τ κ) (t : τ) (p : Pc κ) :
    (s.goto t p).modes = Function.update s.modes t p.mode :=
  Function.comp_update Pc.mode s.pc t p

theorem phases_goto_same {s : LogSinks τ κ} {t : τ} {p : Pc κ} (hp : p.phase = (s.pc t).phase) :
    (s.goto t p).phases = s.phases := by
  rw [phases_goto, hp]
  exact Function.update_eq_self t s.phases

theorem modes_goto_same {s : LogSinks τ κ} {t : τ} {p : Pc κ} (hp : p.mode = (s.pc t).mode) :
    (s.goto t p).modes = s.modes := by
  rw [modes_goto, hp]
  exact Function.update_eq_self t s.modes

variable [DecidableEq κ] {s s' : LogSinks τ κ} {h : List (Event τ (Op κ) (Result κ))}

/-! ## What a step does -/

/-- The steps, by what becomes of the lock and of the sinks, and what they show. -/
inductive Moves (s : LogSinks τ κ) :
    Label τ κ → Option (Event τ (Op κ) (Result κ)) → LogSinks τ κ → Prop
  | call {t : τ} (op : Op κ) (hpc : s.pc t = .idle) :
    s.Moves (.call t op) (some (.call t op)) (s.goto t (.locking op))
  | enter {t : τ} {op : Op κ} {p : Pc κ} {lock : RwLock τ} (hpc : s.pc t = .locking op)
    (hlock : s.lock.acquire t op.mode = some lock) (hmode : p.mode = some op.mode)
    (hphase : p.phase = .called op) (hsound : p.Sound s.sinks) :
    s.Moves (.step t) none { s.goto t p with lock }
  | turn {t : τ} {p : Pc κ} (hmode : p.mode = (s.pc t).mode) (hphase : p.phase = (s.pc t).phase)
    (hsound : p.Sound s.sinks) : s.Moves (.step t) none (s.goto t p)
  | effect {t : τ} {op : Op κ} {r : Result κ} {sinks : List κ} (hmode : (s.pc t).mode = some op.mode)
    (hphase : (s.pc t).phase = .called op) (hwrite : op.mode = .write ∨ sinks = s.sinks)
    (happly : SinkSet.apply s.sinks op r = some (sinks : Multiset κ)) :
    s.Moves (.step t) (some (.effect t op r)) { s.goto t (.returning op r) with sinks }
  | ret {t : τ} {op : Op κ} {r : Result κ} (hpc : s.pc t = .returning op r) :
    s.Moves (.step t) (some (.ret t r)) { s.goto t .idle with lock := s.lock.unlock t }

theorem moves_enter {t : τ} {op : Op κ} (hpc : s.pc t = .locking op)
    (h : s.enter t op = some s') : s.Moves (.step t) none s' := by
  cases op with
  | addLogSink sink =>
    obtain ⟨lock, hlock, rfl⟩ := Option.map_eq_some_iff.mp h
    exact .enter hpc hlock rfl rfl trivial
  | removeLogSink sink =>
    obtain ⟨lock, hlock, rfl⟩ := Option.map_eq_some_iff.mp h
    exact .enter hpc hlock rfl rfl ⟨Nat.le_refl _, by simp⟩
  | logToSinks =>
    obtain ⟨lock, hlock, rfl⟩ := Option.map_eq_some_iff.mp h
    exact .enter hpc hlock rfl rfl ⟨Nat.le_refl _, by simp⟩

/-- A turn of the search finds the sink, goes on or ends. -/
theorem moves_search {t : τ} {sink : κ} {i : Nat} (hpc : s.pc t = .searching sink i)
    (hsound : (s.pc t).Sound s.sinks) : s.Moves (.step t) (s.effectOf t) (s.search t sink i) := by
  rw [hpc] at hsound
  obtain ⟨hle, hnotMem⟩ := hsound
  cases i with
  | zero =>
    simp only [effectOf, hpc, search]
    refine Moves.effect (s := s) (by rw [hpc]; rfl) (by rw [hpc]; rfl) (.inr rfl) ?_
    rw [List.drop_zero] at hnotMem
    simp [SinkSet.apply, hnotMem]
  | succ i =>
    have hsome : s.sinks[i]? = some s.sinks[i] := List.getElem?_eq_getElem hle
    have hne : s.sinks ≠ [] := List.ne_nil_of_length_pos (by omega)
    have hlast := List.getLast?_eq_some_getLast hne
    simp only [effectOf, hpc, search, hsome, hlast, Option.some.injEq]
    split
    · next heq =>
      refine .effect (by rw [hpc]; rfl) (by rw [hpc]; rfl) (.inl rfl) ?_
      rw [coe_set_dropLast (hsome.trans (congrArg some heq)) hlast]
      rfl
    · next hneq =>
      refine .turn (by rw [hpc]; rfl) (by rw [hpc]; rfl) ⟨by omega, ?_⟩
      rw [List.drop_eq_getElem_cons hle, List.mem_cons, not_or]
      exact ⟨Ne.symm hneq, hnotMem⟩

/-- A turn of the loop over the sinks sends to one, or ends. -/
theorem moves_send {t : τ} {i : Nat} {sent : List κ} (hpc : s.pc t = .sending i sent)
    (hsound : (s.pc t).Sound s.sinks) : s.Moves (.step t) (s.effectOf t) (s.send t sent i) := by
  rw [hpc] at hsound
  obtain ⟨hle, hsent⟩ := hsound
  cases i with
  | zero =>
    simp only [effectOf, hpc, send]
    refine Moves.effect (s := s) (by rw [hpc]; rfl) (by rw [hpc]; rfl) (.inr rfl) ?_
    have hperm : (sent : Multiset κ) = s.sinks := by
      rw [List.drop_zero] at hsent
      rw [← hsent, Multiset.coe_reverse]
    simp [SinkSet.apply, hperm]
  | succ i =>
    have hsome : s.sinks[i]? = some s.sinks[i] := List.getElem?_eq_getElem hle
    simp only [effectOf, hpc, send, hsome]
    refine .turn (by rw [hpc]; rfl) (by rw [hpc]; rfl) ⟨hle, ?_⟩
    rw [List.reverse_append, hsent, List.drop_eq_getElem_cons hle]
    rfl

theorem moves_wait {t : τ} {i : Nat} {sent : List κ} (hpc : s.pc t = .waiting i sent)
    (hsound : (s.pc t).Sound s.sinks) : s.Moves (.step t) none (s.wait t i sent) := by
  rw [hpc] at hsound
  obtain ⟨hlt, hsent⟩ := hsound
  simp only [wait, List.getElem?_eq_getElem hlt]
  exact .turn (by rw [hpc]; rfl) (by rw [hpc]; rfl) ⟨Nat.le_of_lt hlt, hsent⟩

theorem moves_of_next {l : Label τ κ} (hsound : ∀ t, (s.pc t).Sound s.sinks)
    (h : s.next l = some s') : s.Moves l (s.shows l) s' := by
  cases l with
  | call t op =>
    simp only [next] at h
    split at h
    · next hpc =>
      cases h
      exact .call op hpc
    · cases h
  | step t =>
    simp only [next] at h
    split at h
    · next op hpc =>
      have hshows : s.shows (.step t) = none := by simp only [shows, effectOf, hpc]
      rw [hshows]
      exact moves_enter hpc h
    · next sink hpc =>
      cases h
      simp only [shows, effectOf, hpc]
      refine .effect (by rw [hpc]; rfl) (by rw [hpc]; rfl) (.inl rfl) ?_
      rw [← Multiset.coe_eq_coe.mpr (List.perm_append_singleton sink s.sinks).symm]
      rfl
    · next sink i hpc =>
      cases h
      have hshows : s.shows (.step t) = s.effectOf t := by simp only [shows, hpc]
      rw [hshows]
      exact moves_search hpc (hsound t)
    · next i sent hpc =>
      cases h
      have hshows : s.shows (.step t) = s.effectOf t := by simp only [shows, hpc]
      rw [hshows]
      exact moves_send hpc (hsound t)
    · next i sent hpc =>
      cases h
      have hshows : s.shows (.step t) = none := by simp only [shows, effectOf, hpc]
      rw [hshows]
      exact moves_wait hpc (hsound t)
    · next op r hpc =>
      cases h
      simp only [shows, hpc]
      exact .ret hpc
    · cases h

/-! ## Runs -/

/-- The calls have taken effect one after the other, under a lock that is had as it should be. -/
structure Inv (s : LogSinks τ κ) (h : List (Event τ (Op κ) (Result κ))) : Prop where
  history : Linearized SinkSet.apply 0 (s.sinks : Multiset κ) s.phases h
  governs : s.lock.Governs s.modes
  sound : ∀ t, (s.pc t).Sound s.sinks

theorem inv_initial : Inv (initial : LogSinks τ κ) [] where
  history := .nil SinkSet.apply 0
  governs := RwLock.governs_free
  sound _ := trivial

omit [DecidableEq κ] in
/-- Where the threads are after one of them has moved. -/
theorem sound_goto {t : τ} {p : Pc κ} {sinks : List κ} (hp : p.Sound sinks)
    (hsound : ∀ u, u ≠ t → (s.pc u).Sound sinks) (u : τ) : ((s.goto t p).pc u).Sound sinks := by
  by_cases hu : u = t
  · simpa [goto, hu] using hp
  · simpa [goto, Function.update_of_ne hu] using hsound u hu

/-- Nobody but the writer knows anything of the sinks. -/
theorem Inv.sound_of_write (hi : s.Inv h) {t u : τ} (ht : (s.pc t).mode = some .write) (hu : u ≠ t)
    (sinks : List κ) : (s.pc u).Sound sinks := by
  refine (hi.sound u).of_mode_none ?_ sinks
  by_contra hmode
  exact hu (hi.governs.eq_of_write ht hmode)

theorem Inv.step {l : Label τ κ} {e : Option (Event τ (Op κ) (Result κ))} (hi : s.Inv h)
    (hmoves : s.Moves l e s') : s'.Inv (h ++ e.toList) := by
  cases hmoves with
  | @call t op hpc =>
    have hfollows : (s.phases t).Follows t (some (.call t op)) (.called op) := by
      unfold phases
      rw [hpc]
      exact .call op
    refine ⟨?_, ?_, sound_goto trivial fun u _ => hi.sound u⟩
    · rw [phases_goto]
      exact hi.history.move hfollows rfl
    · rw [modes_goto_same (by rw [hpc]; rfl)]
      exact hi.governs
  | @enter t op p lock hpc hlock hmode hphase hsound =>
    have hfollows : (s.phases t).Follows t none p.phase := by
      rw [hphase, phases, hpc]
      exact .stay _
    refine ⟨?_, ?_, sound_goto hsound fun u _ => hi.sound u⟩
    · show Linearized _ _ _ (s.goto t p).phases _
      rw [phases_goto]
      exact hi.history.move hfollows rfl
    · show RwLock.Governs _ (s.goto t p).modes
      rw [modes_goto, hmode]
      exact hi.governs.acquire hlock
  | @turn t p hmode hphase hsound =>
    have hfollows : (s.phases t).Follows t none p.phase := by
      rw [hphase]
      exact .stay _
    refine ⟨?_, ?_, sound_goto hsound fun u _ => hi.sound u⟩
    · rw [phases_goto]
      exact hi.history.move hfollows rfl
    · rw [modes_goto_same hmode]
      exact hi.governs
  | @effect t op r sinks hmode hphase hwrite happly =>
    have hfollows : (s.phases t).Follows t (some (.effect t op r)) (.done op r) := by
      rw [phases, hphase]
      exact .effect op r
    refine ⟨?_, ?_, sound_goto trivial fun u hu => ?_⟩
    · show Linearized _ _ _ (s.goto t (.returning op r)).phases _
      rw [phases_goto]
      exact hi.history.move hfollows happly
    · show RwLock.Governs _ (s.goto t (.returning op r)).modes
      rw [modes_goto_same (p := .returning op r) hmode.symm]
      exact hi.governs
    -- the vector changes under the write lock, so that no other thread is inside a read
    · rcases hwrite with hwrite | rfl
      · exact hi.sound_of_write (hmode.trans (congrArg some hwrite)) hu sinks
      · exact hi.sound u
  | @ret t op r hpc =>
    have hfollows : (s.phases t).Follows t (some (.ret t r)) .idle := by
      unfold phases
      rw [hpc]
      exact .ret op r
    refine ⟨?_, ?_, sound_goto trivial fun u _ => hi.sound u⟩
    · show Linearized _ _ _ (s.goto t .idle).phases _
      rw [phases_goto]
      exact hi.history.move hfollows rfl
    · show RwLock.Governs _ (s.goto t .idle).modes
      rw [modes_goto]
      exact hi.governs.unlock

theorem inv_run {ls : List (Label τ κ)} (hrun : System.run next initial ls = some s) :
    s.Inv (System.trace next shows initial ls) :=
  System.trace_invariant (fun _ _ _ _ hi hnext => hi.step (moves_of_next hi.sound hnext)) hrun
    inv_initial

/-! ## Progress -/

/-- Who is in a call and has the lock can go on. -/
theorem isSome_of_mode {t : τ} (hmode : (s.pc t).mode ≠ none) :
    (s.next (.step t)).isSome = true := by
  cases hpc : s.pc t with
  | idle => exact absurd (by rw [hpc]; rfl) hmode
  | locking op => exact absurd (by rw [hpc]; rfl) hmode
  | outOfRange => exact absurd (by rw [hpc]; rfl) hmode
  | _ => simp [next, hpc]

omit [DecidableEq κ] in
theorem isSome_enter {t : τ} (op : Op κ) (hlock : (s.lock.acquire t op.mode).isSome = true) :
    (s.enter t op).isSome = true := by
  cases op with
  | addLogSink sink =>
    rw [enter, Option.isSome_map]
    exact hlock
  | removeLogSink sink =>
    rw [enter, Option.isSome_map]
    exact hlock
  | logToSinks =>
    rw [enter, Option.isSome_map]
    exact hlock

/-- As long as somebody is in a call, somebody can go on. -/
theorem Inv.exists_step (hi : s.Inv h) {t : τ} (ht : s.pc t ≠ .idle) :
    ∃ u, (s.next (.step u)).isSome = true := by
  by_cases hheld : ∃ u, s.modes u ≠ none
  · obtain ⟨u, hu⟩ := hheld
    exact ⟨u, isSome_of_mode hu⟩
  · have hnone : ∀ u, s.modes u = none := by
      intro u
      by_contra hu
      exact hheld ⟨u, hu⟩
    refine ⟨t, ?_⟩
    cases hpc : s.pc t with
    | idle => exact absurd hpc ht
    | locking op =>
      simp only [next, hpc]
      exact isSome_enter op (hi.governs.isSome_acquire hnone t op.mode)
    | outOfRange =>
      have hsound := hi.sound t
      rw [hpc] at hsound
      exact hsound.elim
    | _ =>
      have := hnone t
      rw [modes, hpc] at this
      cases this

/-- Between `Send` and `WaitTillSent` a sink is registered. -/
theorem Inv.uses_mem (hi : s.Inv h) {t : τ} {sink : κ} (huses : s.uses t = some sink) :
    sink ∈ s.sinks := by
  unfold uses at huses
  split at huses
  · next i sent hpc =>
    have hsound := hi.sound t
    rw [hpc] at hsound
    have hmem : sink ∈ sent.reverse := List.mem_reverse.mpr (List.mem_of_getLast? huses)
    rw [hsound.2] at hmem
    exact List.mem_of_mem_drop hmem
  · cases huses

/--
**The log sinks, for any number of threads.**

`AddLogSink`, `RemoveLogSink` and `LogToSinks` take effect one after the other, as on a collection of
sinks; a message goes to each sink as often as it is registered then. No index is out of range, a
sink that has been called and not finished with is registered, and nobody is stuck.
-/
theorem settled_sinks {ls : List (Label τ κ)} (hrun : System.run next initial ls = some s) :
    Linearized SinkSet.apply 0 (s.sinks : Multiset κ) s.phases
        (System.trace next shows initial ls) ∧
      (∀ t, s.pc t ≠ .outOfRange) ∧
      (∀ t sink, s.uses t = some sink → sink ∈ s.sinks) ∧
      ((∃ t, s.pc t ≠ .idle) → ∃ t, (s.next (.step t)).isSome = true) := by
  have hi := inv_run hrun
  refine ⟨hi.history, fun t ht => ?_, fun t sink => hi.uses_mem, fun ⟨t, ht⟩ => hi.exists_step ht⟩
  have hsound := hi.sound t
  rw [ht] at hsound
  exact hsound

/-- A message is sent to two sinks, and one of them is removed meanwhile. -/
def sampleRun : List (Label Bool Nat) :=
  [.call false (.addLogSink 1), .step false, .step false, .step false,
    .call false (.addLogSink 2), .step false, .step false, .step false,
    .call false .logToSinks, .step false, .step false, .call true (.removeLogSink 1),
    .step false, .step false, .step false, .step false, .step false,
    .step true, .step true, .step true, .step true]

theorem settled_sinks_sample : ∃ s : LogSinks Bool Nat,
    System.run next initial sampleRun = some s ∧ s.sinks = [2] ∧
      Linearized SinkSet.apply 0 (s.sinks : Multiset Nat) s.phases
        (System.trace next shows initial sampleRun) := by
  obtain ⟨s, hrun, hsinks⟩ : ∃ s : LogSinks Bool Nat,
      System.run next initial sampleRun = some s ∧ s.sinks = [2] := ⟨_, rfl, rfl⟩
  exact ⟨s, hrun, hsinks, (settled_sinks hrun).1⟩

end CambriconGst.Cxxutil.LogSinks
