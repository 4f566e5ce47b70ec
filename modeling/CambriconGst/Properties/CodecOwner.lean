import CambriconGst.Easycodec.CodecOwner

/-!
# At most one end of the stream for a codec instance

Threads that have all found the handle set will each drop it and announce an end.

* `Owned.Counts`: no more ends are announced or under way than the inputs allow
* `Owned.exists_run_ends`: as many are announced in some order of the steps
* `Owned.eosCalls_le_one_iff`: exactly for which inputs the EOS is announced at most once
-/

namespace CambriconGst.Easycodec

open Lib

/-! ## Inputs -/

namespace Input

variable {threads : List Nat} {pre ins js : List Input}

theorem runningAfter_append (running : Bool) (ins js : List Input) :
    runningAfter running (ins ++ js) = runningAfter (runningAfter running ins) js := by
  induction ins generalizing running with
  | nil => rfl
  | cons i ins ih => cases i <;> exact ih _

theorem eosEvents_append (ins js : List Input) :
    eosEvents (ins ++ js) = eosEvents ins + eosEvents js := by
  induction ins with
  | nil => simp [eosEvents]
  | cons i ins ih =>
    cases i with
    | event type =>
      cases type <;> simp only [List.cons_append, eosEvents, ih]
      omega
    | abort thread => exact ih
    | setRunning running => exact ih

theorem abortCalls_append (ins js : List Input) :
    abortCalls (ins ++ js) = abortCalls ins + abortCalls js := by
  induction ins with
  | nil => simp [abortCalls]
  | cons i ins ih =>
    cases i with
    | event type => exact ih
    | abort thread =>
      simp only [List.cons_append, abortCalls, ih]
      omega
    | setRunning running => exact ih

theorem firstAborts_prefix (threads : List Nat) (ins : List Input) :
    firstAborts threads ins <+: ins := by
  induction ins generalizing threads with
  | nil => exact List.prefix_rfl
  | cons i ins ih =>
    cases i with
    | event type => exact List.cons_prefix_cons.mpr ⟨rfl, ih threads⟩
    | abort thread =>
      rw [firstAborts]
      split
      · exact List.nil_prefix
      · exact List.cons_prefix_cons.mpr ⟨rfl, ih _⟩
    | setRunning running => exact List.cons_prefix_cons.mpr ⟨rfl, ih threads⟩

theorem firstAborts_mono (h : pre <+: ins) : firstAborts threads pre <+: firstAborts threads ins := by
  induction pre generalizing threads ins with
  | nil => exact List.nil_prefix
  | cons i pre ih =>
    obtain ⟨post, rfl⟩ := h
    have htail threads := @ih threads _ (List.prefix_append pre post)
    cases i with
    | event type => exact List.cons_prefix_cons.mpr ⟨rfl, htail _⟩
    | abort thread =>
      rw [List.cons_append, firstAborts, firstAborts]
      split
      · exact List.prefix_rfl
      · exact List.cons_prefix_cons.mpr ⟨rfl, htail _⟩
    | setRunning running => exact List.cons_prefix_cons.mpr ⟨rfl, htail _⟩

/-- No thread has aborted twice yet, and none does with `i`. -/
theorem firstAborts_concat {i : Input} (h : firstAborts threads ins = ins)
    (hi : ∀ thread, i = .abort thread → thread ∉ threads ∧ Input.abort thread ∉ ins) :
    firstAborts threads (ins ++ [i]) = ins ++ [i] := by
  induction ins generalizing threads with
  | nil =>
    cases i with
    | event type => rfl
    | abort thread => exact if_neg (hi thread rfl).1
    | setRunning running => rfl
  | cons j ins ih =>
    have hmem {thread : Nat} (hj : Input.abort thread ∉ j :: ins) : Input.abort thread ∉ ins :=
      fun hn => hj (List.mem_cons_of_mem j hn)
    cases j with
    | event type =>
      exact congrArg _ (ih (List.cons.inj h).2 fun u hu => ⟨(hi u hu).1, hmem (hi u hu).2⟩)
    | abort thread =>
      rw [firstAborts] at h
      split at h
      · cases h
      · next hn =>
        rw [List.cons_append, firstAborts, if_neg hn]
        refine congrArg _ (ih (List.cons.inj h).2 fun u hu => ⟨?_, hmem (hi u hu).2⟩)
        obtain ⟨hnot, hne⟩ := hi u hu
        rw [List.mem_cons, not_or]
        exact ⟨fun he => hne (he ▸ List.mem_cons_self), hnot⟩
    | setRunning running =>
      exact congrArg _ (ih (List.cons.inj h).2 fun u hu => ⟨(hi u hu).1, hmem (hi u hu).2⟩)

theorem firstAborts_of_not_mem (h : ∀ thread, Input.abort thread ∉ ins) :
    firstAborts threads ins = ins := by
  induction ins with
  | nil => rfl
  | cons i ins ih =>
    have htail := ih fun thread hn => h thread (List.mem_cons_of_mem i hn)
    cases i with
    | event type => exact congrArg _ htail
    | abort thread => exact absurd List.mem_cons_self (h thread)
    | setRunning running => exact congrArg _ htail

/-- The codec events among the inputs. -/
def events : List Input → List CbEventType
  | [] => []
  | .event type :: ins => type :: events ins
  | _ :: ins => events ins

theorem count_events (ins : List Input) : (events ins).count .eos = eosEvents ins := by
  induction ins with
  | nil => rfl
  | cons i ins ih =>
    cases i with
    | event type =>
      rw [events, List.count_cons, ih]
      cases type <;> rfl
    | abort thread => exact ih
    | setRunning running => exact ih

theorem any_events (ins : List Input) : (events ins).any CbEventType.aborts = ins.any abortsLoop := by
  induction ins with
  | nil => rfl
  | cons i ins ih =>
    cases i with
    | event type => exact congrArg (type.aborts || ·) ih
    | abort thread => exact ih
    | setRunning running => exact ih

theorem aborters_mono (h : pre <+: ins) : aborters pre ≤ aborters ins := by
  obtain ⟨post, rfl⟩ := h
  unfold aborters
  rw [abortCalls_append, List.any_append]
  cases pre.any abortsLoop <;> simp
  omega

theorem ends_mono (h : pre <+: ins) : ends pre ≤ ends ins := by
  refine Nat.add_le_add ?_ (aborters_mono (firstAborts_mono h))
  obtain ⟨post, rfl⟩ := h
  rw [eosEvents_append]
  exact Nat.le_add_right _ _

theorem ends_concat_eos (ins : List Input) : ends ins + 1 ≤ ends (ins ++ [.event .eos]) := by
  unfold ends
  rw [eosEvents_append]
  have hle := aborters_mono (@firstAborts_mono [] _ _ (List.prefix_append ins [.event .eos]))
  simp only [eosEvents] at hle ⊢
  omega

end Input

/-- The thread has found the handle set, or an end of the stream: it will announce it. -/
def Abort.owes : Abort → Bool
  | .drop => true
  | .announce => true
  | _ => false

def EventTask.owes : EventTask → Nat
  | .handling abort => if abort.owes then 1 else 0
  | _ => 0

namespace Owned

open Input

variable {o : Owner} {s t u : Owned} {ls : List Label}

theorem inputs_append (ls ms : List Label) : inputs (ls ++ ms) = inputs ls ++ inputs ms := by
  induction ls with
  | nil => rfl
  | cons l ls ih =>
    cases l with
    | input i => exact congrArg (i :: ·) ih
    | pop => exact ih
    | handle => exact ih
    | call k => exact ih
    | exit => exact ih

/-! ## What a step can do -/

theorem goOn_calls (o : Owner) (s : Owned) (abort : Abort) : (s.goOn o abort).1.calls = s.calls := by
  cases abort <;> rfl

theorem pop_cases (h : next o s .pop = some t) : s.task = .waiting ∧ ∃ type rest,
    s.eventQueue = type :: rest ∧ t = { s with eventQueue := rest, task := start type } := by
  simp only [next] at h
  split at h
  · next type rest ht hq => exact ⟨ht, type, rest, hq, (Option.some.inj h).symm⟩
  · cases h

theorem handle_cases (h : next o s .handle = some t) : ∃ abort, s.task = .handling abort ∧
    t = { (s.goOn o abort).1 with
      task := ((s.goOn o abort).2.map .handling).getD .waiting } := by
  simp only [next] at h
  split at h
  · next abort ht => exact ⟨abort, ht, (Option.some.inj h).symm⟩
  · cases h

/-- The call that goes on keeps its place, unless it returns. -/
theorem call_cases {k : Nat} (h : next o s (.call k) = some t) : ∃ l₁ call l₂,
    s.calls = l₁ ++ call :: l₂ ∧
      t = { (s.goOn o call.abort).1 with
        calls := l₁ ++ ((s.goOn o call.abort).2.map fun abort => { call with abort }).toList ++
          l₂ } := by
  simp only [next, Option.map_eq_some_iff] at h
  obtain ⟨call, hk, rfl⟩ := h
  obtain ⟨hlt, hcall⟩ := List.getElem?_eq_some_iff.mp hk
  refine ⟨s.calls.take k, call, s.calls.drop (k + 1), ?_, ?_⟩
  · rw [← hcall, ← List.drop_eq_getElem_cons hlt, List.take_append_drop]
  · rw [goOn_calls]
    cases (s.goOn o call.abort).2 with
    | none => simp [List.eraseIdx_eq_take_drop_succ]
    | some abort => simp [List.set_eq_take_append_cons_drop, hlt]

theorem exit_cases (h : next o s .exit = some t) : s.task = .waiting ∧
    t = { s with task := .finished } := by
  simp only [next] at h
  split at h
  · next hc => exact ⟨hc.1, (Option.some.inj h).symm⟩
  · cases h

/-! ## At most what the inputs allow -/

/-- The ends that were announced, that a thread will announce, or that are queued as such. -/
def due (s : Owned) : Nat :=
  s.eosCalls + s.eventQueue.count .eos + s.task.owes + s.calls.countP (·.abort.owes)

theorem start_owes (type : CbEventType) (rest : List CbEventType) :
    rest.count .eos + (start type).owes = (type :: rest).count .eos := by
  rw [List.count_cons]
  cases type <;> rfl

theorem aborts_of_start {type : CbEventType}
    (h : start type = .handling .test ∨ start type = .handling .drop) : type.aborts = true := by
  unfold start at h
  split at h
  · rcases h with h | h <;> cases h
  · split at h
    · next ha => exact ha
    · rcases h with h | h <;> cases h

theorem goOn_running (o : Owner) (s : Owned) (abort : Abort) :
    (s.goOn o abort).1.running = s.running := by
  cases abort <;> rfl

theorem goOn_eosCalls (o : Owner) (s : Owned) (abort : Abort) :
    (s.goOn o abort).1.eosCalls = s.eosCalls ∨ o.announces s.running = true := by
  cases abort with
  | announce =>
    cases ha : o.announces s.running with
    | false => exact .inl (by simp [goOn, ha])
    | true => exact .inr rfl
  | _ => exact .inl rfl

/-- While the handle is set no call has returned, so that no thread aborts for a second time. -/
structure Live (ins : List Input) (s : Owned) : Prop where
  first : firstAborts [] ins = ins
  length : s.calls.length = abortCalls ins
  called : ∀ thread, .abort thread ∈ ins → ∃ call ∈ s.calls, call.thread = thread
  calls : ∀ call ∈ s.calls, call.abort = .test ∨ call.abort = .drop
  queued : ∀ type ∈ s.eventQueue, type.aborts = true → ins.any abortsLoop = true
  task : s.task = .handling .test ∨ s.task = .handling .drop → ins.any abortsLoop = true
  eos : s.eosCalls + s.eventQueue.count .eos + (if s.task = .handling .announce then 1 else 0) ≤
    eosEvents ins

namespace Live

variable {ins : List Input}

theorem initial (r : Bool) : Live [] (initial r) where
  first := rfl
  length := rfl
  called := fun _ h => absurd h List.not_mem_nil
  calls := fun _ h => absurd h List.not_mem_nil
  queued := fun _ h => absurd h List.not_mem_nil
  task := fun h => by rcases h with h | h <;> cases h
  eos := Nat.le_refl 0

theorem due_le (h : Live ins s) : s.due ≤ ends ins := by
  have hcalls : s.calls.countP (·.abort.owes) ≤ abortCalls ins :=
    h.length ▸ List.countP_le_length
  have htask : s.task.owes ≤ (if s.task = .handling .announce then 1 else 0) +
      if ins.any abortsLoop then 1 else 0 := by
    have hloop := h.task
    cases ht : s.task with
    | handling abort =>
      rw [ht] at hloop
      cases abort with
      | drop =>
        rw [if_pos (hloop (.inr rfl))]
        exact Nat.le_add_left _ _
      | _ => simp [EventTask.owes, Abort.owes]
    | _ => exact Nat.zero_le _
  have heos := h.eos
  unfold due ends aborters
  rw [h.first]
  omega

/-- An event is queued. -/
theorem event (h : Live ins s) (type : CbEventType) :
    Live (ins ++ [.event type]) { s with eventQueue := s.eventQueue ++ [type] } where
  first := firstAborts_concat h.first fun _ he => by cases he
  length := by
    rw [abortCalls_append]
    exact h.length
  called := fun thread ht => h.called thread (by simpa using ht)
  calls := h.calls
  queued := by
    intro u hu ha
    rw [List.any_append, Bool.or_eq_true]
    rcases List.mem_append.mp hu with hu | hu
    · exact .inl (h.queued u hu ha)
    · cases List.mem_singleton.mp hu
      exact .inr (by simpa [abortsLoop] using ha)
  task := fun ht => by rw [List.any_append, h.task ht]; rfl
  eos := by
    have hcount : ([type].count .eos : Nat) = eosEvents [.event type] := by cases type <;> rfl
    have heos := h.eos
    rw [eosEvents_append]
    simp only [List.count_append, hcount]
    omega

theorem setRunning (h : Live ins s) (running : Bool) :
    Live (ins ++ [.setRunning running]) { s with running } where
  first := firstAborts_concat h.first fun _ he => by cases he
  length := by
    rw [abortCalls_append]
    exact h.length
  called := fun thread ht => h.called thread (by simpa using ht)
  calls := h.calls
  queued := fun u hu ha => by rw [List.any_append, h.queued u hu ha]; rfl
  task := fun ht => by rw [List.any_append, h.task ht]; rfl
  eos := by
    rw [eosEvents_append]
    exact h.eos

/-- A thread that is in no call aborts. -/
theorem abort (h : Live ins s) {thread : Nat} (hc : ∀ call ∈ s.calls, call.thread ≠ thread) :
    Live (ins ++ [.abort thread]) { s with calls := ⟨thread, .test⟩ :: s.calls } where
  first := by
    refine firstAborts_concat h.first fun u hu => ⟨List.not_mem_nil, fun hin => ?_⟩
    cases hu
    obtain ⟨call, hmem, he⟩ := h.called thread hin
    exact hc call hmem he
  length := by
    rw [abortCalls_append, ← h.length]
    rfl
  called := by
    intro u hu
    rcases List.mem_append.mp hu with hu | hu
    · obtain ⟨call, hmem, he⟩ := h.called u hu
      exact ⟨call, List.mem_cons_of_mem _ hmem, he⟩
    · cases List.mem_singleton.mp hu
      exact ⟨_, List.mem_cons_self, rfl⟩
  calls := by
    intro call hmem
    rcases List.mem_cons.mp hmem with rfl | hmem
    · exact .inl rfl
    · exact h.calls call hmem
  queued := fun u hu ha => by rw [List.any_append, h.queued u hu ha]; rfl
  task := fun ht => by rw [List.any_append, h.task ht]; rfl
  eos := by
    rw [eosEvents_append]
    exact h.eos

/-- The event loop takes an event. -/
theorem pop (h : Live ins s) (ht : s.task = .waiting) {type : CbEventType}
    {rest : List CbEventType} (hq : s.eventQueue = type :: rest) :
    Live ins { s with eventQueue := rest, task := start type } where
  first := h.first
  length := h.length
  called := h.called
  calls := h.calls
  queued := fun u hu => h.queued u (hq ▸ List.mem_cons_of_mem _ hu)
  task := fun hstart => h.queued type (hq ▸ List.mem_cons_self) (aborts_of_start hstart)
  eos := by
    have heos := h.eos
    have howes := start_owes type rest
    have hstart : (if start type = .handling .announce then 1 else 0) = (start type).owes := by
      cases type <;> rfl
    rw [ht, hq, ← howes] at heos
    simp only [hstart]
    simpa [Nat.add_assoc] using heos

/-- A call from outside finds the handle set. -/
theorem tested (h : Live ins s) {l₁ l₂ : List Call} {call : Call} (hq : s.calls = l₁ ++ call :: l₂) :
    Live ins { s with calls := l₁ ++ { call with abort := .drop } :: l₂ } where
  first := h.first
  length := by
    rw [← h.length, hq]
    simp
  called := by
    intro thread hin
    obtain ⟨found, hmem, rfl⟩ := h.called thread hin
    rw [hq, List.mem_append, List.mem_cons] at hmem
    rcases hmem with hmem | rfl | hmem
    · exact ⟨found, by simp [hmem], rfl⟩
    · exact ⟨{ found with abort := .drop }, by simp, rfl⟩
    · exact ⟨found, by simp [hmem], rfl⟩
  calls := by
    intro found hmem
    rw [List.mem_append, List.mem_cons] at hmem
    rcases hmem with hmem | rfl | hmem
    · exact h.calls found (by simp [hq, hmem])
    · exact .inr rfl
    · exact h.calls found (by simp [hq, hmem])
  queued := h.queued
  task := h.task
  eos := h.eos

end Live

/-- What is kept of a run that has had the inputs `ins`, from `initial r`. -/
structure Counts (o : Owner) (r : Bool) (ins : List Input) (s : Owned) : Prop where
  running : s.running = runningAfter r ins
  live : s.handle = true → Live ins s
  dead : s.handle = false → s.due ≤ ends ins
  made : s.eosCalls = 0 ∨ ∃ pre, pre <+: ins ∧ o.announces (runningAfter r pre) = true ∧
    s.eosCalls ≤ ends pre

namespace Counts

variable {r : Bool} {ins : List Input}

theorem initial (o : Owner) (r : Bool) : Counts o r [] (initial r) where
  running := rfl
  live := fun _ => Live.initial r
  dead := fun h => by cases h
  made := .inl rfl

theorem due_le (h : Counts o r ins s) : s.due ≤ ends ins := by
  cases hh : s.handle with
  | false => exact h.dead hh
  | true => exact (h.live hh).due_le

theorem made_append (h : Counts o r ins s) (js : List Input) :
    s.eosCalls = 0 ∨ ∃ pre, pre <+: ins ++ js ∧ o.announces (runningAfter r pre) = true ∧
      s.eosCalls ≤ ends pre := by
  rcases h.made with h0 | ⟨pre, hp, hrest⟩
  · exact .inl h0
  · exact .inr ⟨pre, hp.trans (List.prefix_append ins js), hrest⟩

theorem input (h : Counts o r ins s) {i : Input} (hi : s.take i = some t) :
    Counts o r (ins ++ [i]) t := by
  have hmono := ends_mono (List.prefix_append ins [i])
  cases i with
  | event type =>
    cases hi
    refine ⟨?_, fun hl => (h.live hl).event type, fun hd => ?_, h.made_append _⟩
    · rw [runningAfter_append, ← h.running]
      rfl
    · have hdue := h.dead hd
      simp only [due, List.count_append] at hdue ⊢
      by_cases he : type = .eos
      · subst he
        have hends := ends_concat_eos ins
        rw [List.count_singleton_self]
        omega
      · rw [List.count_eq_zero.mpr fun hm => he (List.mem_singleton.mp hm).symm]
        omega
  | abort thread =>
    simp only [take] at hi
    split at hi
    · cases hi
    · next hc =>
      cases hi
      have hnone : ∀ call ∈ s.calls, call.thread ≠ thread := by simpa using hc
      refine ⟨?_, fun hl => (h.live hl).abort hnone, fun hd => ?_, h.made_append _⟩
      · rw [runningAfter_append, ← h.running]
        rfl
      · exact Nat.le_trans (h.dead hd) hmono
  | setRunning running =>
    cases hi
    refine ⟨?_, fun hl => (h.live hl).setRunning running, fun hd => ?_, h.made_append _⟩
    · rw [runningAfter_append]
      rfl
    · exact Nat.le_trans (h.dead hd) hmono

/-- A step that has no input. -/
theorem thread (h : Counts o r ins s) (hr : t.running = s.running)
    (hc : t.eosCalls = s.eosCalls ∨ o.announces s.running = true)
    (hl : t.handle = true → Live ins t) (hd : t.handle = false → t.due ≤ s.due) :
    Counts o r ins t := by
  have hdead := fun hh => Nat.le_trans (hd hh) h.due_le
  refine ⟨hr.trans h.running, hl, hdead, ?_⟩
  rcases hc with hc | ha
  · exact hc ▸ h.made
  · refine .inr ⟨ins, List.prefix_rfl, h.running ▸ ha, ?_⟩
    have hcalls : t.eosCalls ≤ t.due := by
      unfold due
      omega
    cases hh : t.handle with
    | false => exact Nat.le_trans hcalls (hdead hh)
    | true => exact Nat.le_trans hcalls (hl hh).due_le

theorem pop (h : Counts o r ins s) (hn : next o s .pop = some t) : Counts o r ins t := by
  obtain ⟨ht, type, rest, hq, rfl⟩ := pop_cases hn
  refine h.thread rfl (.inl rfl) (fun hl => (h.live hl).pop ht hq) fun _ => ?_
  have howes := start_owes type rest
  simp only [due, ht, hq, ← howes]
  exact Nat.le_of_eq (by simp [EventTask.owes, Nat.add_assoc])

/-- The event loop goes on with an event. -/
theorem handle (h : Counts o r ins s) (hn : next o s .handle = some t) : Counts o r ins t := by
  obtain ⟨abort, ht, rfl⟩ := handle_cases hn
  refine h.thread (goOn_running o s abort) (goOn_eosCalls o s abort) ?_ ?_
  · intro hl
    cases abort with
    | test =>
      obtain ⟨hfirst, hlength, hcalled, hcalls, hqueued, htask, heos⟩ := h.live hl
      have hs : s.handle = true := hl
      refine ⟨hfirst, hlength, hcalled, hcalls, hqueued, fun _ => htask (.inl ht), ?_⟩
      rw [ht] at heos
      simpa [goOn, hs] using heos
    | drop => cases hl
    | announce =>
      obtain ⟨hfirst, hlength, hcalled, hcalls, hqueued, htask, heos⟩ := h.live hl
      refine ⟨hfirst, hlength, hcalled, hcalls, hqueued, fun he => by simp [goOn] at he, ?_⟩
      rw [ht] at heos
      simp only [goOn, Option.map_some, Option.getD_some, EventTask.handling.injEq, reduceCtorEq,
        if_true, if_false] at heos ⊢
      split <;> omega
    | setGotEos =>
      obtain ⟨hfirst, hlength, hcalled, hcalls, hqueued, htask, heos⟩ := h.live hl
      refine ⟨hfirst, hlength, hcalled, hcalls, hqueued, fun he => by simp [goOn] at he, ?_⟩
      rw [ht] at heos
      simpa [goOn] using heos
  · intro hd
    cases abort with
    | test =>
      have hs : s.handle = false := hd
      simp [due, goOn, hs, ht, EventTask.owes, Abort.owes]
    | drop => simp [due, goOn, ht, EventTask.owes, Abort.owes]
    | announce =>
      simp only [due, goOn, ht, EventTask.owes, Abort.owes, Option.map_some, Option.getD_some,
        if_true, Bool.false_eq_true, if_false]
      split <;> omega
    | setGotEos => simp [due, goOn, ht, EventTask.owes, Abort.owes]

/-- A call from outside the event loop goes on. -/
theorem call (h : Counts o r ins s) {k : Nat} (hn : next o s (.call k) = some t) :
    Counts o r ins t := by
  obtain ⟨l₁, call, l₂, hq, rfl⟩ := call_cases hn
  refine h.thread (goOn_running o s call.abort) (goOn_eosCalls o s call.abort) ?_ ?_
  · intro hl
    cases hab : call.abort with
    | test =>
      rw [hab] at hl
      have hs : s.handle = true := hl
      simpa [goOn, hs] using (h.live hl).tested hq
    | drop =>
      rw [hab] at hl
      cases hl
    | announce =>
      rw [hab] at hl
      rcases (h.live hl).calls call (by simp [hq]) with he | he <;> rw [hab] at he <;> cases he
    | setGotEos =>
      rw [hab] at hl
      rcases (h.live hl).calls call (by simp [hq]) with he | he <;> rw [hab] at he <;> cases he
  · intro hd
    cases hab : call.abort with
    | test =>
      rw [hab] at hd
      have hs : s.handle = false := hd
      simp [due, goOn, hs, hq, hab, Abort.owes]
    | drop => simp [due, goOn, hq, hab, Abort.owes]
    | announce =>
      simp only [due, goOn, hq, hab, List.countP_append, List.countP_cons, Abort.owes,
        Option.map_some, Option.toList_some, List.countP_nil, if_true, Bool.false_eq_true,
        if_false]
      split <;> omega
    | setGotEos => simp [due, goOn, hq, hab, Abort.owes]

theorem exit (h : Counts o r ins s) (hn : next o s .exit = some t) : Counts o r ins t := by
  obtain ⟨ht, rfl⟩ := exit_cases hn
  refine h.thread rfl (.inl rfl) (fun hl => ?_) fun _ => by simp [due, ht, EventTask.owes]
  obtain ⟨hfirst, hlength, hcalled, hcalls, hqueued, htask, heos⟩ := h.live hl
  refine ⟨hfirst, hlength, hcalled, hcalls, hqueued, fun he => by simp at he, ?_⟩
  simpa [ht] using heos

theorem run (h : Counts o r ins s) (hr : System.run (next o) s ls = some t) :
    Counts o r (ins ++ inputs ls) t := by
  induction ls generalizing s ins with
  | nil =>
    cases hr
    rw [show inputs [] = [] from rfl, List.append_nil]
    exact h
  | cons l ls ih =>
    obtain ⟨u, hu, hr⟩ := System.run_cons.mp hr
    rw [show l :: ls = [l] ++ ls from rfl, inputs_append, ← List.append_assoc]
    refine ih ?_ hr
    cases l with
    | input i => exact h.input hu
    | pop => exact (List.append_nil ins).symm ▸ h.pop hu
    | handle => exact (List.append_nil ins).symm ▸ h.handle hu
    | call k => exact (List.append_nil ins).symm ▸ h.call hu
    | exit => exact (List.append_nil ins).symm ▸ h.exit hu

end Counts

/-! ## As much as the inputs allow -/

/-- Before a thread aborts for a second time, every call can find the handle set. -/
theorem exists_run_firstAborts (o : Owner) (ins : List Input) {threads : List Nat} {s : Owned}
    (hh : s.handle = true) (hc : ∀ call ∈ s.calls, call.abort = .drop)
    (ht : s.calls.map (·.thread) = threads) :
    ∃ ls calls, inputs ls = firstAborts threads ins ∧
      System.run (next o) s ls = some { s with
        eventQueue := s.eventQueue ++ events (firstAborts threads ins)
        running := runningAfter s.running (firstAborts threads ins)
        calls } ∧
      (∀ call ∈ calls, call.abort = .drop) ∧
      calls.length = s.calls.length + abortCalls (firstAborts threads ins) := by
  induction ins generalizing threads s with
  | nil => exact ⟨[], s.calls, rfl, by simp [firstAborts, events, runningAfter], hc, rfl⟩
  | cons i ins ih =>
    cases i with
    | event type =>
      obtain ⟨ls, calls, hin, hrun, hdrop, hlen⟩ :=
        ih (s := { s with eventQueue := s.eventQueue ++ [type] }) hh hc ht
      refine ⟨.input (.event type) :: ls, calls, congrArg _ hin, ?_, hdrop, hlen⟩
      refine System.run_cons.mpr ⟨_, rfl, hrun.trans ?_⟩
      simp [firstAborts, events, runningAfter]
    | abort thread =>
      rw [firstAborts]
      split
      · exact ⟨[], s.calls, rfl, by simp [events, runningAfter], hc, rfl⟩
      · next hn =>
        -- the call tests the handle right away
        obtain ⟨ls, calls, hin, hrun, hdrop, hlen⟩ :=
          @ih (thread :: threads) { s with calls := ⟨thread, .drop⟩ :: s.calls } hh
            (by simpa using hc) (congrArg _ ht)
        refine ⟨.input (.abort thread) :: .call 0 :: ls, calls, congrArg _ hin, ?_, hdrop, ?_⟩
        · have hnone : s.calls.any (·.thread = thread) = false := by
            rw [List.any_eq_false]
            intro call hmem he
            exact hn (ht ▸ List.mem_map.mpr ⟨call, hmem, by simpa using he⟩)
          refine System.run_cons.mpr ⟨{ s with calls := ⟨thread, .test⟩ :: s.calls }, ?_, ?_⟩
          · simp [next, take, hnone]
          · refine System.run_cons.mpr ⟨_, ?_, hrun⟩
            simp [next, goOn, hh]
        · simp only [hlen, List.length_cons, abortCalls]
          omega
    | setRunning running =>
      obtain ⟨ls, calls, hin, hrun, hdrop, hlen⟩ := ih (s := { s with running }) hh hc ht
      exact ⟨.input (.setRunning running) :: ls, calls, congrArg _ hin,
        System.run_cons.mpr ⟨_, rfl, hrun⟩, hdrop, hlen⟩

/-- The event loop handles all that is queued. -/
theorem exists_run_drain (o : Owner) (queue : List CbEventType) {s : Owned}
    (ht : s.task = .waiting) (hq : s.eventQueue = queue) (ha : o.announces s.running = true) :
    ∃ ls t, inputs ls = [] ∧ System.run (next o) s ls = some t ∧ t.task = .waiting ∧
      t.eventQueue = [] ∧ t.running = s.running ∧ t.calls = s.calls ∧
      t.eosCalls = s.eosCalls + queue.count .eos +
        if s.handle = true ∧ queue.any CbEventType.aborts = true then 1 else 0 := by
  induction queue generalizing s with
  | nil => exact ⟨[], s, rfl, rfl, ht, hq, rfl, rfl, by simp⟩
  | cons type queue ih =>
    by_cases he : type = .eos
    · -- taken and announced
      subst he
      obtain ⟨ls, t, hin, hrun, htask, hempty, hr, hcalls, hcount⟩ := ih (s := { s with
        eventQueue := queue, gotEos := true, eosCalls := s.eosCalls + 1 }) ht rfl ha
      refine ⟨.pop :: .handle :: .handle :: ls, t, hin, ?_, htask, hempty, hr, hcalls, ?_⟩
      · simp only [System.run, next, ht, hq, start, goOn, ha, if_true, Option.bind_some,
          Option.map_some, Option.map_none, Option.getD_some, Option.getD_none]
        exact ht ▸ hrun
      · rw [hcount, List.count_cons_self]
        simp only [List.any_cons, CbEventType.aborts, Bool.false_or]
        omega
    · cases hab : type.aborts with
      | false =>
        -- nothing to announce
        obtain ⟨ls, t, hin, hrun, htask, hempty, hr, hcalls, hcount⟩ :=
          ih (s := { s with eventQueue := queue }) ht rfl ha
        refine ⟨.pop :: ls, t, hin, ?_, htask, hempty, hr, hcalls, ?_⟩
        · simp only [System.run, next, ht, hq, start, he, hab, Bool.false_eq_true, if_false,
            Option.bind_some]
          exact ht ▸ hrun
        · rw [hcount, List.count_cons_of_ne he, List.any_cons, hab, Bool.false_or]
      | true =>
        cases hh : s.handle with
        | false =>
          -- there is no codec to abort
          obtain ⟨ls, t, hin, hrun, htask, hempty, hr, hcalls, hcount⟩ :=
            ih (s := { s with eventQueue := queue }) ht rfl ha
          refine ⟨.pop :: .handle :: ls, t, hin, ?_, htask, hempty, hr, hcalls, ?_⟩
          · simp only [System.run, next, ht, hq, start, he, hab, hh, goOn, Bool.false_eq_true,
              if_true, if_false, Option.bind_some, Option.map_none, Option.getD_none]
            exact hh ▸ ht ▸ hrun
          · rw [hcount, List.count_cons_of_ne he]
            simp [hh]
        | true =>
          -- the codec is aborted, and that is announced
          obtain ⟨ls, t, hin, hrun, htask, hempty, hr, hcalls, hcount⟩ := ih (s := { s with
            eventQueue := queue, handle := false, gotEos := true
            eosCalls := s.eosCalls + 1 }) ht rfl ha
          refine ⟨.pop :: .handle :: .handle :: .handle :: .handle :: ls, t, hin, ?_, htask, hempty,
            hr, hcalls, ?_⟩
          · simp only [System.run, next, ht, hq, start, he, hab, hh, goOn, ha, if_true, if_false,
              Option.bind_some, Option.map_some, Option.map_none, Option.getD_some,
              Option.getD_none]
            exact ht ▸ hrun
          · rw [hcount, List.count_cons_of_ne he]
            simp [hab]
            omega

/-- Calls that have found the handle set announce an end each. -/
theorem exists_run_finish (o : Owner) (calls : List Call) {s : Owned} (hs : s.calls = calls)
    (hc : ∀ call ∈ calls, call.abort = .drop) (ha : o.announces s.running = true) :
    ∃ ls t, inputs ls = [] ∧ System.run (next o) s ls = some t ∧ t.task = s.task ∧
      t.eventQueue = s.eventQueue ∧ t.running = s.running ∧ t.calls = [] ∧
      t.eosCalls = s.eosCalls + calls.length := by
  induction calls generalizing s with
  | nil => exact ⟨[], s, rfl, rfl, rfl, rfl, rfl, hs, rfl⟩
  | cons call calls ih =>
    obtain ⟨hcall, hc⟩ := List.forall_mem_cons.mp hc
    obtain ⟨ls, t, hin, hrun, htask, hq, hr, hnone, hcalls⟩ := ih (s := { s with
      handle := false, gotEos := true, calls := calls, eosCalls := s.eosCalls + 1 }) rfl hc ha
    refine ⟨.call 0 :: .call 0 :: .call 0 :: ls, t, hin, ?_, htask, hq, hr, hnone, ?_⟩
    · simp only [System.run, next, hs, hcall, goOn, ha, List.getElem?_cons_zero, Option.map_some,
        Option.bind_some, List.set_cons_zero, List.eraseIdx_cons_zero, if_true]
      exact hrun
    · rw [hcalls, List.length_cons]
      exact Nat.add_right_comm _ _ _

/-- Calls that are finished before the next input comes. -/
theorem exists_run_inputs (o : Owner) (ins : List Input) {s : Owned} (hs : s.calls = []) :
    ∃ ls t, inputs ls = ins ∧ System.run (next o) s ls = some t ∧ t.task = s.task ∧
      t.eventQueue = s.eventQueue ++ events ins ∧ t.running = runningAfter s.running ins ∧
      t.calls = [] ∧ s.eosCalls ≤ t.eosCalls := by
  induction ins generalizing s with
  | nil => exact ⟨[], s, rfl, rfl, rfl, (List.append_nil _).symm, rfl, hs, Nat.le_refl _⟩
  | cons i ins ih =>
    cases i with
    | event type =>
      obtain ⟨ls, t, hin, hrun, htask, hq, hrest⟩ :=
        ih (s := { s with eventQueue := s.eventQueue ++ [type] }) hs
      exact ⟨.input (.event type) :: ls, t, congrArg _ hin, System.run_cons.mpr ⟨_, rfl, hrun⟩,
        htask, hq.trans (by simp [events]), hrest⟩
    | abort thread =>
      cases hh : s.handle with
      | false =>
        obtain ⟨ls, t, hin, hrun, hrest⟩ := ih hs
        refine ⟨.input (.abort thread) :: .call 0 :: ls, t, congrArg _ hin, ?_, hrest⟩
        simp only [System.run, next, take, hs, hh, goOn, List.any_nil, Bool.false_eq_true, if_false,
          Option.bind_some, Option.map_some, List.getElem?_cons_zero, List.eraseIdx_cons_zero]
        exact hs ▸ hh ▸ hrun
      | true =>
        obtain ⟨ls, t, hin, hrun, htask, hq, hr, hnone, hcalls⟩ := ih (s := { s with
          handle := false
          gotEos := true
          eosCalls := s.eosCalls + if o.announces s.running then 1 else 0 }) hs
        refine ⟨.input (.abort thread) :: .call 0 :: .call 0 :: .call 0 :: .call 0 :: ls, t,
          congrArg _ hin, ?_, htask, hq, hr, hnone, Nat.le_trans (Nat.le_add_right _ _) hcalls⟩
        simp only [System.run, next, take, hs, hh, goOn, List.any_nil, Bool.false_eq_true, if_false,
          if_true, Option.bind_some, Option.map_some, List.getElem?_cons_zero, List.set_cons_zero,
          List.eraseIdx_cons_zero]
        exact hs ▸ hrun
    | setRunning running =>
      obtain ⟨ls, t, hin, hrun, hrest⟩ := ih (s := { s with running }) hs
      exact ⟨.input (.setRunning running) :: ls, t, congrArg _ hin,
        System.run_cons.mpr ⟨_, rfl, hrun⟩, hrest⟩

/-- The element is aborted by its event loop only. -/
theorem announces_firstAborts {ins : List Input} {r : Bool} (hadm : ∀ i ∈ ins, o.Admits i)
    (ha : o.announces (runningAfter r ins) = true) :
    o.announces (runningAfter r (firstAborts [] ins)) = true := by
  cases o with
  | decodeHandler => rfl
  | encodeHandler => rfl
  | cnvideoDec => rwa [firstAborts_of_not_mem fun thread hin => hadm _ hin]

/-- Every EOS event, and one end for every thread that can find the handle set. -/
theorem exists_run_ends (r : Bool) {pre : List Input} (post : List Input)
    (hadm : ∀ i ∈ pre, o.Admits i) (ha : o.announces (runningAfter r pre) = true) :
    ∃ ls s, System.run (next o) (initial r) ls = some s ∧ inputs ls = pre ++ post ∧
      ends pre ≤ s.eosCalls := by
  have hfirst := announces_firstAborts hadm ha
  obtain ⟨rest, hpre⟩ := firstAborts_prefix [] pre
  -- all calls find the handle set before one drops it
  obtain ⟨ls₁, calls, hin₁, hrun₁, hdrop, hlen⟩ :=
    @exists_run_firstAborts o pre [] (initial r) rfl (fun _ h => absurd h List.not_mem_nil) rfl
  obtain ⟨ls₂, t₂, hin₂, hrun₂, htask₂, hq₂, hr₂, hcalls₂, heos₂⟩ :=
    exists_run_drain o _ (s := { initial r with
      eventQueue := (initial r).eventQueue ++ events (firstAborts [] pre)
      running := runningAfter (initial r).running (firstAborts [] pre)
      calls }) rfl rfl hfirst
  obtain ⟨ls₃, t₃, hin₃, hrun₃, htask₃, hq₃, hr₃, hcalls₃, heos₃⟩ :=
    exists_run_finish o calls hcalls₂ hdrop (by rwa [hr₂])
  -- then the rest comes
  obtain ⟨ls₄, t₄, hin₄, hrun₄, htask₄, hq₄, hr₄, hcalls₄, heos₄⟩ :=
    exists_run_inputs o rest hcalls₃
  have hrunning : t₄.running = runningAfter r pre := by
    rw [hr₄, hr₃, hr₂]
    exact (runningAfter_append r _ rest).symm.trans (congrArg _ hpre)
  obtain ⟨ls₅, t₅, hin₅, hrun₅, -, -, -, hcalls₅, heos₅⟩ :=
    exists_run_drain o (events rest) (htask₄.trans (htask₃.trans htask₂))
      (by rw [hq₄, hq₃, hq₂, List.nil_append]) (by rwa [hrunning])
  obtain ⟨ls₆, t₆, hin₆, hrun₆, -, -, -, -, heos₆⟩ :=
    exists_run_inputs o post (hcalls₅.trans hcalls₄)
  refine ⟨ls₁ ++ (ls₂ ++ (ls₃ ++ (ls₄ ++ (ls₅ ++ ls₆)))), t₆, ?_, ?_, ?_⟩
  · exact System.run_append.mpr ⟨_, hrun₁, System.run_append.mpr ⟨_, hrun₂,
      System.run_append.mpr ⟨_, hrun₃, System.run_append.mpr ⟨_, hrun₄,
        System.run_append.mpr ⟨_, hrun₅, hrun₆⟩⟩⟩⟩⟩
  · simp only [inputs_append, hin₁, hin₂, hin₃, hin₄, hin₅, hin₆, List.nil_append]
    rw [← List.append_assoc, hpre]
  · have heos : eosEvents pre = eosEvents (firstAborts [] pre) + eosEvents rest := by
      rw [← eosEvents_append, hpre]
    simp only [initial, List.nil_append, List.length_nil, Nat.zero_add, count_events, any_events,
      true_and] at hlen heos₂ heos₅
    unfold ends aborters
    omega

/-- **The EOS is announced at most once, whatever the order of the threads' steps, exactly when** at
every moment at which the owner announces, the inputs so far have at most one end: an EOS event, or
a thread that aborts before a thread does so for a second time. -/
theorem eosCalls_le_one_iff (o : Owner) (running : Bool) {ins : List Input}
    (hadm : ∀ i ∈ ins, o.Admits i) :
    (∀ ls s, System.run (next o) (initial running) ls = some s → inputs ls = ins →
      s.eosCalls ≤ 1) ↔
    ∀ pre, pre <+: ins → o.announces (runningAfter running pre) = true → ends pre ≤ 1 := by
  constructor
  · rintro h pre ⟨post, rfl⟩ ha
    have hpre : ∀ i ∈ pre, o.Admits i := fun i hi => hadm i (List.mem_append_left post hi)
    obtain ⟨ls, s, hrun, hin, hle⟩ := exists_run_ends running post hpre ha
    exact Nat.le_trans hle (h ls s hrun hin)
  · rintro h ls s hrun rfl
    have hc := (Counts.initial o running).run hrun
    rw [List.nil_append] at hc
    rcases hc.made with h0 | ⟨pre, hp, ha, hle⟩
    · omega
    · exact Nat.le_trans hle (h pre hp ha)

/--
A decoder that the user aborts after its end of stream, and one that the user aborts while its event
loop does.
-/
theorem eos_then_abort :
    (∃ s, System.run (next .decodeHandler) (initial true)
      [.input (.event .eos), .pop, .handle, .handle, .input (.abort 0), .call 0, .call 0,
        .call 0] = some s ∧ s.eosCalls = 2) ∧
    ∃ s, System.run (next .decodeHandler) (initial true)
      [.input (.event .hwReset), .pop, .input (.abort 0), .handle, .call 0, .handle, .call 0,
        .handle, .call 0] = some s ∧ s.eosCalls = 2 :=
  ⟨⟨_, rfl, rfl⟩, _, rfl, rfl⟩

theorem eosCalls_le_one_sample :
    (∀ ls s, System.run (next .encodeHandler) (initial true) ls = some s →
      inputs ls = [.event .streamCorrupt, .abort 0, .abort 0, .event .hwReset, .abort 1] →
      s.eosCalls ≤ 1) ∧
    ¬∀ ls s, System.run (next .encodeHandler) (initial true) ls = some s →
      inputs ls = [.event .streamCorrupt, .abort 0, .event .hwReset] → s.eosCalls ≤ 1 := by
  constructor
  · refine (eosCalls_le_one_iff .encodeHandler true (by simp [Owner.Admits])).mpr ?_
    intro pre hp _
    exact Nat.le_trans (ends_mono hp) (by decide)
  · refine fun h => ?_
    have hle := (eosCalls_le_one_iff .encodeHandler true (by simp [Owner.Admits])).mp h _
      List.prefix_rfl rfl
    exact absurd hle (by decide)

end Owned

end CambriconGst.Easycodec
