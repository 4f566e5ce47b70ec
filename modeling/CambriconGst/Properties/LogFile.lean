import CambriconGst.Cxxutil.LogFile
import CambriconGst.Lib.Registry

/-!
# Properties of the log file writer

* `Step.sound`: what every step keeps when file operations succeed
* `Step.work`: once the destructor has begun, the write thread has a bounded number of steps left
* `log_written`: what was pushed before the destructor began is in the files when it ends, in order
-/

namespace CambriconGst.Cxxutil.LogFile

open Lib

variable {s t : LogFile} {l : Label}

/-! ## Files -/

/-- The part of the state that is about files. -/
structure Files where
  filepathQueue : List Path
  file : Option Path
  disk : Path → Option (List Msg)
  buffered : List Msg
  created : List Path
  unlinked : List Msg

def files (s : LogFile) : Files where
  filepathQueue := s.filepathQueue
  file := s.file
  disk := s.disk
  buffered := s.buffered
  created := s.history.created
  unlinked := s.history.unlinked

/-- All that was written: to files that are gone, to files that exist, and to the buffer. -/
def Files.text (f : Files) : List Msg :=
  f.unlinked ++ FileSequence.contents f.disk f.filepathQueue ++ f.buffered

/-- The files are those of `filepath_queue_`, the last of which is the one that is open. -/
structure Files.Kept (f : Files) : Prop where
  named : FileSequence.Named f.disk f.filepathQueue
  created : ∀ path ∈ f.filepathQueue, path ∈ f.created
  length_le : f.filepathQueue.length ≤ 10
  last : ∀ path, f.file = some path → f.filepathQueue.getLast? = some path
  buffered : f.file = none → f.buffered = []

/-- The rest, as far as it decides what the threads do. -/
structure Control where
  msgq : List Msg
  stopWriting : Bool
  forceFlush : Bool
  calls : Nat → Option Call
  pc : Pc
  destructor : Destructor
  pushed : List Msg
  before : List Msg

def control (s : LogFile) : Control where
  msgq := s.msgq
  stopWriting := s.stopWriting
  forceFlush := s.forceFlush
  calls := s.calls
  pc := s.pc
  destructor := s.destructor
  pushed := s.history.pushed
  before := s.history.before

theorem fflush_control : s.fflush.control = s.control := by
  unfold fflush
  split <;> rfl

theorem fflush_file : s.fflush.file = s.file := by
  unfold fflush
  split <;> rfl

theorem fflush_files {path : Path} (hf : s.file = some path) : s.fflush.files =
    { s.files with disk := FileSequence.append s.disk path s.buffered, buffered := [] } := by
  unfold fflush
  split
  · next h => exact absurd (hf.symm.trans h) (Option.some_ne_none path)
  · next path' h =>
    obtain rfl := Option.some.inj (hf.symm.trans h)
    rfl

/-- `fflush` moves text, and leaves all of it. -/
theorem fflush_kept (h : s.files.Kept) :
    s.fflush.files.Kept ∧ s.fflush.files.text = s.files.text ∧
      s.fflush.files.buffered = [] := by
  cases hf : s.file with
  | none =>
    have hself : s.fflush = s := by
      unfold fflush
      rw [hf]
    rw [hself]
    exact ⟨h, rfl, h.buffered hf⟩
  | some path =>
    have hlast := h.last path hf
    have hmem : path ∈ s.filepathQueue := List.mem_of_getLast? hlast
    rw [fflush_files hf]
    refine ⟨⟨h.named.append hmem, h.created, h.length_le, h.last, fun _ => rfl⟩, ?_, rfl⟩
    have happ : FileSequence.contents (FileSequence.append s.disk path s.buffered)
        s.filepathQueue = _ := h.named.contents_append hlast
    show s.history.unlinked ++ FileSequence.contents (FileSequence.append s.disk path s.buffered)
      s.filepathQueue ++ [] = _
    rw [happ, List.append_nil]
    exact (List.append_assoc _ _ _).symm

theorem fclose_control : s.fclose.control = s.control :=
  fflush_control

theorem fclose_kept (h : s.files.Kept) :
    s.fclose.files.Kept ∧ s.fclose.files.text = s.files.text := by
  obtain ⟨hk, ht, hb⟩ := fflush_kept h
  exact ⟨⟨hk.named, hk.created, hk.length_le, (fun _ hf => nomatch hf), fun _ => hb⟩, ht⟩

theorem flush_control : s.flush.control = s.control := by
  unfold flush
  split
  · exact fflush_control
  · rfl

theorem flush_file : s.flush.file = s.file := by
  unfold flush
  split
  · exact fflush_file
  · rfl

theorem flush_kept (h : s.files.Kept) :
    s.flush.files.Kept ∧ s.flush.files.text = s.files.text := by
  unfold flush
  split
  · exact ⟨(fflush_kept h).1, (fflush_kept h).2.1⟩
  · exact ⟨h, rfl⟩

theorem unlinkFront_control : s.unlinkFront.control = s.control := by
  unfold unlinkFront
  split <;> rfl

/-- The files without the first one, whose text is now `unlinked`. -/
theorem unlinkFront_files {path : Path} {rest : List Path} (h : s.filepathQueue = path :: rest) :
    s.unlinkFront.files =
      { s.files with
        filepathQueue := rest
        disk := FileSequence.unlink s.disk path
        unlinked := s.history.unlinked ++ (s.disk path).getD [] } := by
  unfold unlinkFront
  rw [h]
  rfl

/-- The files before the path of the new one is pushed: there is room for it. -/
structure CleanedUp (s t : LogFile) (path : Path) : Prop where
  named : FileSequence.Named t.disk (t.filepathQueue ++ [path])
  subset : ∀ old ∈ t.filepathQueue, old ∈ s.filepathQueue
  length_lt : t.filepathQueue.length < 10
  text : t.history.unlinked ++ FileSequence.contents t.disk (t.filepathQueue ++ [path]) =
    s.history.unlinked ++ FileSequence.contents s.disk (s.filepathQueue ++ [path])
  file : t.file = s.file
  buffered : t.buffered = s.buffered
  created : t.history.created = s.history.created
  control : t.control = s.control

theorem cleanUp_cleanedUp {path : Path}
    (hn : FileSequence.Named s.disk (s.filepathQueue ++ [path]))
    (hl : s.filepathQueue.length ≤ 10) : CleanedUp s s.cleanUp path := by
  unfold cleanUp
  split
  · next hfull =>
    cases hq : s.filepathQueue with
    | nil =>
      rw [hq] at hfull
      simp at hfull
    | cons old rest =>
      have hf := unlinkFront_files hq
      have hqueue : s.unlinkFront.filepathQueue = rest := congrArg Files.filepathQueue hf
      have hdisk : s.unlinkFront.disk = FileSequence.unlink s.disk old := congrArg Files.disk hf
      have hunlinked : s.unlinkFront.history.unlinked =
          s.history.unlinked ++ (s.disk old).getD [] := congrArg Files.unlinked hf
      rw [hq] at hn hl
      refine ⟨?_, ?_, ?_, ?_, congrArg Files.file hf, congrArg Files.buffered hf,
        congrArg Files.created hf, unlinkFront_control⟩
      · rw [hqueue, hdisk]
        exact hn.unlink
      · intro name hm
        rw [hqueue] at hm
        rw [hq]
        exact List.mem_cons_of_mem old hm
      · rw [hqueue]
        rw [List.length_cons] at hl
        omega
      · rw [hunlinked, hdisk, hqueue, hq, List.append_assoc]
        exact congrArg _ hn.contents_unlink
  · exact ⟨hn, fun _ hm => hm, by omega, rfl, rfl, rfl, rfl, rfl⟩

/-- What `CreateLogFile` leaves when `fopen` succeeds. -/
structure Opened (s t : LogFile) (path : Path) : Prop where
  kept : t.files.Kept
  text : t.files.text = s.files.text
  file : t.file = some path
  control : t.control = s.control

theorem createLogFile_opened {path : Path} (h : s.files.Kept) (hn : path ∉ s.history.created) :
    Opened s (s.createLogFile path true).2 path := by
  obtain ⟨hk, ht⟩ := fclose_kept h
  have hcreated : s.fclose.history.created = s.history.created := by
    unfold fclose fflush
    split <;> rfl
  have hnew : path ∉ s.fclose.filepathQueue := fun hm => hn (hcreated ▸ hk.created path hm)
  have hcontents : FileSequence.contents (FileSequence.create s.fclose.disk path)
      (s.fclose.filepathQueue ++ [path]) = _ := FileSequence.Named.contents_create hnew
  have hC : CleanedUp (s.fclose.openFile path) (s.fclose.openFile path).cleanUp path :=
    cleanUp_cleanedUp (hk.named.create hnew) hk.length_le
  have hbuffered : (s.fclose.openFile path).buffered = [] := hk.buffered rfl
  refine ⟨⟨hC.named, fun name hm => ?_, ?_, fun name hf => ?_, fun hf => ?_⟩, ?_, hC.file,
    hC.control.trans fclose_control⟩
  · show name ∈ (s.fclose.openFile path).cleanUp.history.created
    rw [hC.created]
    rcases List.mem_append.mp hm with hold | hlast
    · exact List.mem_append_left _ (hk.created name (hC.subset name hold))
    · exact List.mem_append_right _ hlast
  · show ((s.fclose.openFile path).cleanUp.filepathQueue ++ [path]).length ≤ 10
    rw [List.length_append, List.length_singleton]
    exact hC.length_lt
  · obtain rfl := Option.some.inj ((hC.file.symm.trans hf : some path = some name))
    exact List.getLast?_concat
  · exact absurd (hC.file.symm.trans hf) (Option.some_ne_none path)
  · have hclosed : s.fclose.files.text = s.fclose.history.unlinked ++
        FileSequence.contents s.fclose.disk s.fclose.filepathQueue ++ [] :=
      congrArg (_ ++ ·) hbuffered
    rw [← ht, hclosed, ← hcontents]
    show (s.fclose.openFile path).cleanUp.history.unlinked ++
      FileSequence.contents (s.fclose.openFile path).cleanUp.disk
        ((s.fclose.openFile path).cleanUp.filepathQueue ++ [path]) ++
      (s.fclose.openFile path).cleanUp.buffered = _
    rw [hC.text, hC.buffered, hbuffered]
    rfl

/-! ## Steps -/

/-- No force flush, no disk that is full, and files that are created, under names of their own. -/
def Allowed (s : LogFile) : Label → Prop
  | .write _ _ forceFlush => forceFlush = false
  | .createLogFile path opened => opened = true ∧ path ∉ s.history.created
  | .fwrite full => full = false
  | _ => True

/-- What an allowed step can do. -/
inductive Step (s : LogFile) : Label → LogFile → Prop where
  | enter (thread : Nat) (msg : Msg) (hstop : s.stopWriting = false) :
      Step s (.write thread msg false)
        { s with calls := Function.update s.calls thread (some (.pushing msg)) }
  | refuse (thread : Nat) (msg : Msg) : Step s (.write thread msg false) s
  | push (thread : Nat) (msg : Msg) :
      Step s (.resume thread) { s with
        msgq := s.msgq ++ [msg]
        calls := Function.update s.calls thread none
        history := { s.history with pushed := s.history.pushed ++ [msg] } }
  | force (thread : Nat) (t : LogFile) (hc : s.calls thread = some .forcing) :
      Step s (.resume thread) t
  | destroy (h : s.destructor = .alive) :
      Step s .destroy { s with
        stopWriting := true
        destructor := .stopped
        history := { s.history with before := s.history.pushed } }
  | setThreadExit (h : s.destructor = .stopped) :
      Step s .setThreadExit { s with threadExit := true, destructor := .notified }
  | join (h : s.destructor = .notified) (hpc : s.pc = .exited) :
      Step s .join { s with destructor := .joined }
  | createFirst (path : Path) (hn : path ∉ s.history.created) (hpc : s.pc = .start) :
      Step s (.createLogFile path true) { (s.createLogFile path true).2 with pc := .loopTest }
  | rotate (path : Path) (second : Bool) (msg : Msg) (hn : path ∉ s.history.created)
      (hpc : s.pc = .rotating second msg) :
      Step s (.createLogFile path true)
        { (s.createLogFile path true).2 with fileLen := 0, pc := .writing second msg }
  | loopTest (hpc : s.pc = .loopTest) :
      Step s .loopTest { s with pc := if s.stopWriting then .forceTest else .waiting }
  | timeout (hpc : s.pc = .waiting) : Step s .wait { s with pc := .flushTest }
  | drained (hpc : s.pc = .draining) (hq : s.msgq = []) : Step s .wait { s with pc := .closing }
  | pop (second : Bool) (msg : Msg) (rest : List Msg)
      (hpc : s.pc = if second then .draining else .waiting) (hq : s.msgq = msg :: rest) :
      Step s .wait (s.gotten second msg rest)
  | fwrite (second : Bool) (msg : Msg) (fileLen bytesSinceFlush : Nat)
      (hpc : s.pc = .writing second msg) :
      Step s (.fwrite false) { s with
        buffered := s.buffered ++ [msg]
        fileLen
        bytesSinceFlush
        pc := if second then .forceTest else .flushTest }
  | wake (t : LogFile) (hpc : s.pc = .sleeping) : Step s .wake t
  | flushTest (due : Bool) (hpc : s.pc = .flushTest) :
      Step s (.flushTest due)
        { (if s.bytesSinceFlush ≥ 1000000 ∨ due then s.flush else s) with pc := .loopTest }
  | forceTest (hpc : s.pc = .forceTest) :
      Step s .forceTest { s with pc := if s.forceFlush then .closing else .draining }
  | close (hpc : s.pc = .closing) : Step s .close { s.fclose with pc := .exited }
  | stdio : Step s .stdio s.fflush

/-- **Every allowed step is one of these.** -/
theorem next_step (ha : Allowed s l) (h : s.next l = some t) : Step s l t := by
  cases l with
  | write thread msg forceFlush =>
    obtain rfl : forceFlush = false := ha
    simp only [next, nextWrite, Bool.false_eq_true, if_false, Option.ite_none_right_eq_some,
      Option.some.injEq] at h
    obtain ⟨-, rfl⟩ := h
    split
    · next hstop => exact .enter thread msg hstop
    · exact .refuse thread msg
  | resume thread =>
    simp only [next, nextResume, Option.ite_none_right_eq_some] at h
    obtain ⟨-, h⟩ := h
    split at h
    · cases h
    · next msg hc =>
      obtain rfl := Option.some.inj h
      exact .push thread msg
    · next hc => exact .force thread t hc
  | destroy =>
    simp only [next, Option.ite_none_right_eq_some, Option.some.injEq] at h
    obtain ⟨hd, rfl⟩ := h
    exact .destroy hd
  | setThreadExit =>
    simp only [next, Option.ite_none_right_eq_some, Option.some.injEq] at h
    obtain ⟨hd, rfl⟩ := h
    exact .setThreadExit hd
  | join =>
    simp only [next, Option.ite_none_right_eq_some, Option.some.injEq] at h
    obtain ⟨⟨hd, hpc⟩, rfl⟩ := h
    exact .join hd hpc
  | createLogFile path opened =>
    obtain ⟨rfl, hn⟩ := ha
    have hres : s.createLogFile path true = (true, (s.createLogFile path true).2) := rfl
    rw [next, hres] at h
    split at h
    · next hpc =>
      obtain rfl := Option.some.inj h
      exact .createFirst path hn hpc
    · next second msg hpc =>
      obtain rfl := Option.some.inj h
      exact .rotate path second msg hn hpc
    · cases h
  | loopTest =>
    simp only [next, Option.ite_none_right_eq_some, Option.some.injEq] at h
    obtain ⟨hpc, rfl⟩ := h
    exact .loopTest hpc
  | wait =>
    rw [next] at h
    split at h
    · next hpc hq =>
      obtain rfl := Option.some.inj h
      exact .timeout hpc
    · next msg rest hpc hq =>
      obtain rfl := Option.some.inj h
      exact .pop false msg rest hpc hq
    · next hpc hq =>
      obtain rfl := Option.some.inj h
      exact .drained hpc hq
    · next msg rest hpc hq =>
      obtain rfl := Option.some.inj h
      exact .pop true msg rest hpc hq
    · cases h
  | fwrite full =>
    obtain rfl : full = false := ha
    rw [next] at h
    split at h
    · next msg hpc =>
      obtain rfl := Option.some.inj h
      exact .fwrite false msg _ _ hpc
    · next msg hpc =>
      obtain rfl := Option.some.inj h
      exact .fwrite true msg _ _ hpc
    · cases h
  | wake =>
    rw [next] at h
    split at h
    · next hpc => exact .wake t hpc
    · cases h
  | flushTest due =>
    simp only [next, Option.ite_none_right_eq_some, Option.some.injEq] at h
    obtain ⟨hpc, rfl⟩ := h
    exact .flushTest due hpc
  | forceTest =>
    simp only [next, Option.ite_none_right_eq_some, Option.some.injEq] at h
    obtain ⟨hpc, rfl⟩ := h
    exact .forceTest hpc
  | close =>
    simp only [next, Option.ite_none_right_eq_some, Option.some.injEq] at h
    obtain ⟨hpc, rfl⟩ := h
    exact .close hpc
  | stdio =>
    simp only [next, Option.ite_none_right_eq_some, Option.some.injEq] at h
    obtain ⟨-, rfl⟩ := h
    exact .stdio

/-! ## The invariant -/

namespace Pc

/-- The message that is popped and not written. -/
def held : Pc → List Msg
  | .rotating _ msg => [msg]
  | .writing _ msg => [msg]
  | _ => []

/-- `file_` is open. -/
def opened : Pc → Bool
  | .start => false
  | .exited => false
  | _ => true

/-- The first loop is over. -/
def second : Pc → Bool
  | .rotating second _ => second
  | .writing second _ => second
  | .forceTest => true
  | .draining => true
  | .closing => true
  | .exited => true
  | _ => false

/-- The second loop is over. -/
def done : Pc → Bool
  | .closing => true
  | .exited => true
  | _ => false

end Pc

/-- The flags are those the destructor leaves. -/
structure Control.Kept (c : Control) : Prop where
  stop : c.stopWriting = true ↔ c.destructor ≠ .alive
  force : c.forceFlush = false
  calls : ∀ i, c.calls i ≠ some .forcing
  second : c.pc.second = true → c.destructor ≠ .alive
  sleeping : c.pc ≠ .sleeping
  joined : c.destructor = .joined → c.pc = .exited
  before : c.destructor ≠ .alive → c.before <+: c.pushed

/-- The write thread goes on. -/
theorem Control.Kept.goto {c : Control} (h : c.Kept) {pc : Pc} {msgq : List Msg}
    (hne : c.pc ≠ .exited) (hsecond : pc.second = true → c.destructor ≠ .alive)
    (hsleep : pc ≠ .sleeping) : Control.Kept { c with pc, msgq } where
  stop := h.stop
  force := h.force
  calls := h.calls
  second := hsecond
  sleeping := hsleep
  joined hj := absurd (h.joined hj) hne
  before := h.before

theorem Control.Kept.setCalls {c : Control} (h : c.Kept) (thread : Nat) {call : Option Call}
    (hcall : call ≠ some .forcing) :
    Control.Kept { c with calls := Function.update c.calls thread call } where
  stop := h.stop
  force := h.force
  calls i := by
    show Function.update c.calls thread call i ≠ _
    by_cases hi : i = thread
    · subst hi
      rw [Function.update_self]
      exact hcall
    · rw [Function.update_of_ne hi]
      exact h.calls i
  second := h.second
  sleeping := h.sleeping
  joined := h.joined
  before := h.before

structure Sound (s : LogFile) : Prop where
  files : s.files.Kept
  control : s.control.Kept
  /-- What was pushed is what was written, what is held and what waits. -/
  accounts : s.files.text ++ s.pc.held ++ s.msgq = s.history.pushed
  opened : s.pc.opened = true → s.file.isSome = true
  closed : s.pc = .exited → s.file = none
  done : s.pc.done = true → s.history.before <+: s.files.text

theorem create_sound (maxFileLen : Nat) : Sound (create maxFileLen) where
  files :=
    { named := ⟨List.nodup_nil, fun _ => ⟨(fun h => nomatch h), fun h => nomatch h⟩⟩
      created := fun _ h => nomatch h
      length_le := Nat.zero_le 10
      last := fun _ h => nomatch h
      buffered := fun _ => rfl }
  control :=
    { stop := ⟨(fun h => nomatch h), fun h => absurd rfl h⟩
      force := rfl
      calls := fun _ h => nomatch h
      second := fun h => nomatch h
      sleeping := fun h => nomatch h
      joined := fun h => nomatch h
      before := fun h => absurd rfl h }
  accounts := rfl
  opened := fun h => nomatch h
  closed := fun h => nomatch h
  done := fun h => nomatch h

theorem Files.Kept.write {f : Files} (h : f.Kept) (ho : f.file.isSome = true) (msg : Msg) :
    Files.Kept { f with buffered := f.buffered ++ [msg] } where
  named := h.named
  created := h.created
  length_le := h.length_le
  last := h.last
  buffered hf := by
    rw [show f.file = none from hf] at ho
    exact nomatch ho

/-- A step of the write thread: what it must show. -/
theorem Sound.move (hs : Sound s) (pc : Pc) (msgq : List Msg) (hne : s.pc ≠ .exited)
    (hc : t.control = { s.control with pc, msgq }) (hk : t.files.Kept)
    (htext : t.files.text ++ pc.held ++ msgq = s.files.text ++ s.pc.held ++ s.msgq)
    (hsecond : pc.second = true → s.destructor ≠ .alive) (hsleep : pc ≠ .sleeping)
    (hopened : pc.opened = true → t.file.isSome = true) (hclosed : pc = .exited → t.file = none)
    (hdone : pc.done = true → s.history.before <+: t.files.text) : Sound t := by
  have hpc : t.pc = pc := congrArg Control.pc hc
  have hmsgq : t.msgq = msgq := congrArg Control.msgq hc
  have hpushed : t.history.pushed = s.history.pushed := congrArg Control.pushed hc
  have hbefore : t.history.before = s.history.before := congrArg Control.before hc
  refine ⟨hk, ?_, ?_, ?_, ?_, ?_⟩
  · rw [hc]
    exact hs.control.goto hne hsecond hsleep
  · rw [hpc, hmsgq, hpushed, htext]
    exact hs.accounts
  · rw [hpc]
    exact hopened
  · rw [hpc]
    exact hclosed
  · rw [hpc, hbefore]
    exact hdone

namespace Sound

/-! ### The other threads -/

theorem enter (hs : Sound s) (thread : Nat) (msg : Msg) :
    Sound { s with calls := Function.update s.calls thread (some (.pushing msg)) } :=
  ⟨hs.files, hs.control.setCalls thread (fun h => nomatch h), hs.accounts, hs.opened, hs.closed,
    hs.done⟩

theorem push (hs : Sound s) (thread : Nat) (msg : Msg) :
    Sound { s with
      msgq := s.msgq ++ [msg]
      calls := Function.update s.calls thread none
      history := { s.history with pushed := s.history.pushed ++ [msg] } } := by
  have hc : Control.Kept { s.control with calls := Function.update s.calls thread none } :=
    hs.control.setCalls thread fun h => nomatch h
  refine ⟨hs.files, ⟨hc.stop, hc.force, hc.calls, hc.second, hc.sleeping, hc.joined, fun hd => ?_⟩,
    ?_, hs.opened, hs.closed, hs.done⟩
  · exact (hs.control.before hd).trans (List.prefix_append _ _)
  · show s.files.text ++ s.pc.held ++ (s.msgq ++ [msg]) = s.history.pushed ++ [msg]
    rw [← hs.accounts, List.append_assoc _ s.msgq]

/-- The write thread is not done before the destructor begins. -/
theorem not_done (hs : Sound s) (hd : s.destructor = .alive) : ¬s.pc.done = true := by
  intro hdone
  refine hs.control.second ?_ hd
  show s.pc.second = true
  cases hp : s.pc <;> simp_all [Pc.done, Pc.second]

theorem destroy (hs : Sound s) (hd : s.destructor = .alive) :
    Sound { s with
      stopWriting := true
      destructor := .stopped
      history := { s.history with before := s.history.pushed } } :=
  ⟨hs.files, ⟨⟨(fun _ h => nomatch h), fun _ => rfl⟩, hs.control.force, hs.control.calls,
    (fun _ h => nomatch h), hs.control.sleeping, (fun h => nomatch h), fun _ => List.prefix_rfl⟩,
    hs.accounts, hs.opened, hs.closed, fun hdone => absurd hdone (hs.not_done hd)⟩

/-- The destructor goes on. -/
theorem destructing (hs : Sound s) {destructor : Destructor} {threadExit : Bool}
    (halive : s.destructor ≠ .alive) (hne : destructor ≠ .alive)
    (hjoined : destructor = .joined → s.pc = .exited) :
    Sound { s with threadExit, destructor } :=
  ⟨hs.files, ⟨⟨(fun _ => hne), fun _ => hs.control.stop.mpr halive⟩, hs.control.force,
    hs.control.calls, (fun _ => hne), hs.control.sleeping, hjoined,
    fun _ => hs.control.before halive⟩, hs.accounts, hs.opened, hs.closed, hs.done⟩

/-! ### The write thread -/

theorem createFirst (hs : Sound s) {path : Path} (hn : path ∉ s.history.created)
    (hp : s.pc = .start) : Sound { (s.createLogFile path true).2 with pc := .loopTest } := by
  have hO := createLogFile_opened hs.files hn
  refine hs.move .loopTest s.msgq (by rw [hp]; exact nofun)
    (congrArg (fun c : Control => { c with pc := .loopTest }) hO.control) hO.kept ?_ nofun nofun
    (fun _ => Option.isSome_of_eq_some hO.file) nofun nofun
  rw [hp]
  exact congrArg (· ++ [] ++ s.msgq) hO.text

theorem rotate (hs : Sound s) {path : Path} {second : Bool} {msg : Msg}
    (hn : path ∉ s.history.created) (hp : s.pc = .rotating second msg) :
    Sound { (s.createLogFile path true).2 with fileLen := 0, pc := .writing second msg } := by
  have hO := createLogFile_opened hs.files hn
  have hsecond : s.pc.second = true → s.destructor ≠ .alive := hs.control.second
  rw [hp] at hsecond
  refine hs.move (.writing second msg) s.msgq (by rw [hp]; exact nofun)
    (congrArg (fun c : Control => { c with pc := .writing second msg }) hO.control) hO.kept ?_
    hsecond nofun (fun _ => Option.isSome_of_eq_some hO.file) nofun nofun
  rw [hp]
  exact congrArg (· ++ [msg] ++ s.msgq) hO.text

theorem loopTest (hs : Sound s) (hp : s.pc = .loopTest) :
    Sound { s with pc := if s.stopWriting then .forceTest else .waiting } := by
  have hopened := hs.opened
  rw [hp] at hopened
  refine hs.move (if s.stopWriting then .forceTest else .waiting) s.msgq (by rw [hp]; exact nofun)
    rfl hs.files ?_ ?_ ?_ (fun _ => hopened rfl) ?_ ?_
  · rw [hp]
    split <;> rfl
  · intro h
    split at h
    · next hstop => exact hs.control.stop.mp hstop
    · cases h
  · split <;> exact nofun
  · split <;> exact nofun
  · split <;> exact nofun

theorem timeout (hs : Sound s) (hp : s.pc = .waiting) : Sound { s with pc := .flushTest } := by
  have hopened := hs.opened
  rw [hp] at hopened
  exact hs.move .flushTest s.msgq (by rw [hp]; exact nofun) rfl hs.files (by rw [hp]; rfl) nofun
    nofun (fun _ => hopened rfl) nofun nofun

theorem drained (hs : Sound s) (hp : s.pc = .draining) (hq : s.msgq = []) :
    Sound { s with pc := .closing } := by
  have hopened := hs.opened
  have hsecond : s.pc.second = true → s.destructor ≠ .alive := hs.control.second
  rw [hp] at hopened hsecond
  refine hs.move .closing s.msgq (by rw [hp]; exact nofun) rfl hs.files (by rw [hp]; rfl) hsecond
    nofun (fun _ => hopened rfl) nofun fun _ => ?_
  -- nothing is held and nothing waits: all that was pushed has been written
  have hall := hs.accounts
  rw [hp, hq, show Pc.held .draining = [] from rfl, List.append_nil, List.append_nil] at hall
  show s.history.before <+: s.files.text
  rw [hall]
  exact hs.control.before (hsecond rfl)

theorem gotten (hs : Sound s) {second : Bool} {msg : Msg} {rest : List Msg}
    (hp : s.pc = if second then .draining else .waiting) (hq : s.msgq = msg :: rest) :
    Sound (s.gotten second msg rest) := by
  have hheld : s.pc.held = [] := by
    rw [hp]
    split <;> rfl
  have hopen : s.pc.opened = true := by
    rw [hp]
    split <;> rfl
  refine hs.move (if s.fileLen > s.maxFileLen then .rotating second msg else .writing second msg)
    rest ?_ rfl hs.files ?_ ?_ ?_ (fun _ => hs.opened hopen) ?_ ?_
  · rw [hp]
    split <;> exact nofun
  · have hmsg : (if s.fileLen > s.maxFileLen then Pc.rotating second msg
        else Pc.writing second msg).held = [msg] := by
      split <;> rfl
    rw [hmsg, hheld, hq, List.append_nil, List.append_assoc]
    rfl
  · intro h
    have hsec : second = true := by
      split at h <;> exact h
    have hsecond : s.pc.second = true → s.destructor ≠ .alive := hs.control.second
    refine hsecond ?_
    rw [hp, if_pos hsec]
    rfl
  · split <;> exact nofun
  · split <;> exact nofun
  · split <;> exact nofun

theorem fwrite (hs : Sound s) {second : Bool} {msg : Msg} (fileLen bytesSinceFlush : Nat)
    (hp : s.pc = .writing second msg) :
    Sound { s with
      buffered := s.buffered ++ [msg]
      fileLen
      bytesSinceFlush
      pc := if second then .forceTest else .flushTest } := by
  have hopened := hs.opened
  have hsecond : s.pc.second = true → s.destructor ≠ .alive := hs.control.second
  rw [hp] at hopened hsecond
  refine hs.move (if second then .forceTest else .flushTest) s.msgq (by rw [hp]; exact nofun) rfl
    (hs.files.write (hopened rfl) msg) ?_ ?_ ?_ (fun _ => hopened rfl) ?_ ?_
  · have hheld : (if second = true then Pc.forceTest else Pc.flushTest).held = [] := by
      split <;> rfl
    rw [hp, hheld, List.append_nil]
    exact congrArg (· ++ s.msgq) (List.append_assoc _ s.buffered [msg]).symm
  · intro h
    split at h
    · next hsec => exact hsecond hsec
    · cases h
  · split <;> exact nofun
  · split <;> exact nofun
  · split <;> exact nofun

theorem flushTest (hs : Sound s) (due : Bool) (hp : s.pc = .flushTest) :
    Sound { (if s.bytesSinceFlush ≥ 1000000 ∨ due then s.flush else s) with pc := .loopTest } := by
  have hopened := hs.opened
  rw [hp] at hopened
  generalize hu : (if s.bytesSinceFlush ≥ 1000000 ∨ due then s.flush else s) = u
  have hflush : u.control = s.control ∧ u.file = s.file ∧ u.files.Kept ∧
      u.files.text = s.files.text := by
    rw [← hu]
    split
    · exact ⟨flush_control, flush_file, flush_kept hs.files⟩
    · exact ⟨rfl, rfl, hs.files, rfl⟩
  obtain ⟨hc, hfile, hk, htext⟩ := hflush
  refine hs.move .loopTest s.msgq (by rw [hp]; exact nofun)
    (congrArg (fun c : Control => { c with pc := .loopTest }) hc) hk ?_ nofun nofun
    (fun _ => hfile ▸ hopened rfl) nofun nofun
  rw [hp]
  exact congrArg (· ++ [] ++ s.msgq) htext

theorem forceTest (hs : Sound s) (hp : s.pc = .forceTest) :
    Sound { s with pc := if s.forceFlush then .closing else .draining } := by
  have hforce : ¬s.forceFlush = true := by
    rw [show s.forceFlush = false from hs.control.force]
    exact Bool.false_ne_true
  have hopened := hs.opened
  have hsecond : s.pc.second = true → s.destructor ≠ .alive := hs.control.second
  rw [hp] at hopened hsecond
  refine hs.move (if s.forceFlush then .closing else .draining) s.msgq (by rw [hp]; exact nofun) rfl
    hs.files ?_ (fun _ => hsecond rfl) ?_ (fun _ => hopened rfl) ?_ ?_
  · rw [hp]
    split <;> rfl
  · split <;> exact nofun
  · split <;> exact nofun
  · intro h
    split at h
    · next hf => exact absurd hf hforce
    · cases h

theorem close (hs : Sound s) (hp : s.pc = .closing) : Sound { s.fclose with pc := .exited } := by
  have hdone := hs.done
  have hsecond : s.pc.second = true → s.destructor ≠ .alive := hs.control.second
  rw [hp] at hsecond hdone
  obtain ⟨hk, htext⟩ := fclose_kept hs.files
  refine hs.move .exited s.msgq (by rw [hp]; exact nofun)
    (congrArg (fun c : Control => { c with pc := .exited }) fclose_control) hk ?_
    (fun _ => hsecond rfl) nofun nofun (fun _ => rfl) fun _ => ?_
  · rw [hp]
    exact congrArg (· ++ [] ++ s.msgq) htext
  · exact htext ▸ hdone rfl

theorem fflush (hs : Sound s) : Sound s.fflush := by
  obtain ⟨hk, htext, -⟩ := fflush_kept hs.files
  have hc := fflush_control (s := s)
  have hpc : s.fflush.pc = s.pc := congrArg Control.pc hc
  refine ⟨hk, hc ▸ hs.control, ?_, ?_, ?_, ?_⟩
  · rw [htext, hpc, show s.fflush.msgq = s.msgq from congrArg Control.msgq hc,
      show s.fflush.history.pushed = _ from congrArg Control.pushed hc]
    exact hs.accounts
  · rw [hpc, fflush_file]
    exact hs.opened
  · rw [hpc, fflush_file]
    exact hs.closed
  · rw [hpc, htext, show s.fflush.history.before = _ from congrArg Control.before hc]
    exact hs.done

end Sound

/-- **Every allowed step keeps the invariant.** -/
theorem Step.sound (h : Step s l t) (hs : Sound s) : Sound t := by
  cases h with
  | enter thread msg hstop => exact hs.enter thread msg
  | refuse thread msg => exact hs
  | push thread msg => exact hs.push thread msg
  | force thread t hc => exact absurd hc (hs.control.calls thread)
  | destroy hd => exact hs.destroy hd
  | setThreadExit hd => exact hs.destructing (by rw [hd]; exact nofun) nofun nofun
  | join hd hpc => exact hs.destructing (by rw [hd]; exact nofun) nofun fun _ => hpc
  | createFirst path hn hp => exact hs.createFirst hn hp
  | rotate path second msg hn hp => exact hs.rotate hn hp
  | loopTest hp => exact hs.loopTest hp
  | timeout hp => exact hs.timeout hp
  | drained hp hq => exact hs.drained hp hq
  | pop second msg rest hp hq => exact hs.gotten hp hq
  | fwrite second msg fileLen bytesSinceFlush hp => exact hs.fwrite fileLen bytesSinceFlush hp
  | wake t hp => exact absurd hp hs.control.sleeping
  | flushTest due hp => exact hs.flushTest due hp
  | forceTest hp => exact hs.forceTest hp
  | close hp => exact hs.close hp
  | stdio => exact hs.fflush

/-! ## The end of the write thread -/

/-- The steps that the write thread takes before it ends, with no messages in the queue. -/
def Pc.cost : Pc → Nat
  | .start => 5
  | .loopTest => 4
  | .waiting => 6
  | .rotating second _ => if second then 5 else 7
  | .writing second _ => if second then 4 else 6
  | .sleeping => 0
  | .flushTest => 5
  | .forceTest => 3
  | .draining => 2
  | .closing => 1
  | .exited => 0

/-- A bound on the steps of the write thread, once the destructor has begun. -/
def work (s : LogFile) : Nat :=
  4 * s.msgq.length + s.pc.cost

namespace Label

/-- Steps of the write thread. -/
def writer : Label → Bool
  | .createLogFile .. => true
  | .loopTest => true
  | .wait => true
  | .fwrite _ => true
  | .wake => true
  | .flushTest _ => true
  | .forceTest => true
  | .close => true
  | _ => false

/-- Steps that may push a message. -/
def pushes : Label → Bool
  | .resume _ => true
  | _ => false

end Label

theorem work_of_control (h : t.control = s.control) : t.work = s.work := by
  rw [work, show t.msgq = s.msgq from congrArg Control.msgq h,
    show t.pc = s.pc from congrArg Control.pc h]
  rfl

/-- **A step of the write thread takes from its work, and a push adds to it.** -/
theorem Step.work (h : Step s l t) (hs : Sound s) (hd : s.destructor ≠ .alive) :
    t.work + l.writer.toNat ≤ s.work + 4 * l.pushes.toNat := by
  have hstop : s.stopWriting = true := hs.control.stop.mpr hd
  -- a step of the loop that takes no message is paid by the cost of its place
  have hmove : ∀ pc pc' : Pc, s.pc = pc → t.control = { s.control with pc := pc' } →
      pc'.cost < pc.cost → t.work + true.toNat ≤ s.work + 4 * false.toNat := by
    intro pc pc' hp hc hlt
    rw [LogFile.work, LogFile.work, hp, show t.msgq = s.msgq from congrArg Control.msgq hc,
      show t.pc = pc' from congrArg Control.pc hc, Bool.toNat_true, Bool.toNat_false]
    omega
  cases h with
  | enter thread msg hn => exact Nat.le_refl _
  | refuse thread msg => exact Nat.le_refl _
  | push thread msg =>
    -- a message brings the four steps that it will take
    show 4 * (s.msgq ++ [msg]).length + s.pc.cost + 0 ≤ 4 * s.msgq.length + s.pc.cost + 4 * 1
    rw [List.length_append, List.length_singleton]
    omega
  | force thread t hc => exact absurd hc (hs.control.calls thread)
  | destroy ha => exact absurd ha hd
  | setThreadExit ha => exact Nat.le_refl _
  | join ha hp => exact Nat.le_refl _
  | createFirst path hn hp =>
    have hc := (createLogFile_opened hs.files hn).control
    exact hmove .start .loopTest hp (congrArg (fun c : Control => { c with pc := .loopTest }) hc)
      (by decide)
  | rotate path second msg hn hp =>
    have hc := (createLogFile_opened hs.files hn).control
    refine hmove _ (.writing second msg) hp
      (congrArg (fun c : Control => { c with pc := .writing second msg }) hc) ?_
    cases second <;> simp [Pc.cost]
  | loopTest hp =>
    exact hmove .loopTest .forceTest hp
      (congrArg (fun pc => { s.control with pc }) (if_pos hstop)) (by decide)
  | timeout hp => exact hmove .waiting .flushTest hp rfl (by decide)
  | drained hp hq => exact hmove .draining .closing hp rfl (by decide)
  | pop second msg rest hp hq =>
    show 4 * rest.length + (ite _ _ _ : Pc).cost + 1 ≤ 4 * s.msgq.length + s.pc.cost + 4 * 0
    rw [hq, hp, List.length_cons]
    -- the message that is taken pays for its own way back to `waiting`
    cases second <;> split <;> simp only [Pc.cost, if_true, if_false, Bool.false_eq_true] <;> omega
  | fwrite second msg fileLen bytesSinceFlush hp =>
    refine hmove _ (if second then .forceTest else .flushTest) hp rfl ?_
    cases second <;> simp [Pc.cost]
  | wake t hp => exact absurd hp hs.control.sleeping
  | flushTest due hp =>
    refine hmove .flushTest .loopTest hp ?_ (by decide)
    split
    · exact congrArg (fun c : Control => { c with pc := .loopTest }) flush_control
    · rfl
  | forceTest hp =>
    refine hmove .forceTest (if s.forceFlush then .closing else .draining) hp rfl ?_
    split <;> decide
  | close hp =>
    exact hmove .closing .exited hp
      (congrArg (fun c : Control => { c with pc := .exited }) fclose_control) (by decide)
  | stdio => exact Nat.le_of_eq (work_of_control fflush_control)

/-- The destructor does not go back. -/
theorem Step.begun (h : Step s l t) (hs : Sound s) (hd : s.destructor ≠ .alive) :
    t.destructor ≠ .alive := by
  have hkept : t.destructor = s.destructor → t.destructor ≠ .alive := fun h => h ▸ hd
  cases h with
  | enter thread msg hn => exact hd
  | refuse thread msg => exact hd
  | push thread msg => exact hd
  | force thread t hc => exact absurd hc (hs.control.calls thread)
  | destroy ha => exact nofun
  | setThreadExit ha => exact nofun
  | join ha hp => exact nofun
  | createFirst path hn hp =>
    exact hkept (congrArg Control.destructor (createLogFile_opened hs.files hn).control)
  | rotate path second msg hn hp =>
    exact hkept (congrArg Control.destructor (createLogFile_opened hs.files hn).control)
  | loopTest hp => exact hd
  | timeout hp => exact hd
  | drained hp hq => exact hd
  | pop second msg rest hp hq => exact hd
  | fwrite second msg fileLen bytesSinceFlush hp => exact hd
  | wake t hp => exact absurd hp hs.control.sleeping
  | flushTest due hp =>
    refine hkept ?_
    split
    · exact congrArg Control.destructor flush_control
    · rfl
  | forceTest hp => exact hd
  | close hp => exact hkept (congrArg Control.destructor fclose_control)
  | stdio => exact hkept (congrArg Control.destructor fflush_control)

theorem exists_fresh (paths : List Path) : ∃ path, path ∉ paths := by
  have hinj : ∀ a < paths.toFinset.card + 1, ∀ b < paths.toFinset.card + 1,
      String.ofList (List.replicate a 'a') = String.ofList (List.replicate b 'a') → a = b := by
    intro a _ b _ h
    have := congrArg List.length (String.ofList_injective h)
    rwa [List.length_replicate, List.length_replicate] at this
  obtain ⟨k, -, hk⟩ := Registry.exists_not_mem_of_injective hinj (Nat.lt_succ_self _)
  exact ⟨_, fun hm => hk (List.mem_toFinset.mpr hm)⟩

/-- The write thread waits for nobody: it has a step until it ends. -/
theorem writer_enabled (hs : Sound s) (hne : s.pc ≠ .exited) :
    ∃ l t, l.writer = true ∧ Allowed s l ∧ s.next l = some t := by
  obtain ⟨path, hpath⟩ := exists_fresh s.history.created
  cases hp : s.pc with
  | start =>
    exact ⟨.createLogFile path true, _, rfl, ⟨rfl, hpath⟩, by rw [next, hp]; rfl⟩
  | loopTest => exact ⟨.loopTest, _, rfl, trivial, if_pos hp⟩
  | waiting =>
    cases hq : s.msgq with
    | nil => exact ⟨.wait, _, rfl, trivial, by rw [next, hp, hq]⟩
    | cons msg rest => exact ⟨.wait, _, rfl, trivial, by rw [next, hp, hq]⟩
  | rotating second msg =>
    exact ⟨.createLogFile path true, _, rfl, ⟨rfl, hpath⟩, by rw [next, hp]; rfl⟩
  | writing second msg =>
    cases second with
    | false => exact ⟨.fwrite false, _, rfl, rfl, by rw [next, hp]; rfl⟩
    | true => exact ⟨.fwrite false, _, rfl, rfl, by rw [next, hp]; rfl⟩
  | sleeping => exact absurd hp hs.control.sleeping
  | flushTest => exact ⟨.flushTest false, _, rfl, trivial, if_pos hp⟩
  | forceTest => exact ⟨.forceTest, _, rfl, trivial, if_pos hp⟩
  | draining =>
    cases hq : s.msgq with
    | nil => exact ⟨.wait, _, rfl, trivial, by rw [next, hp, hq]⟩
    | cons msg rest => exact ⟨.wait, _, rfl, trivial, by rw [next, hp, hq]⟩
  | closing => exact ⟨.close, _, rfl, trivial, if_pos hp⟩
  | exited => exact absurd hp hne

/-! ## Runs -/

/-- States of runs without a force flush, in which file operations succeed. -/
abbrev Reached (s : LogFile) : Prop :=
  Reachable (fun s => ∃ maxFileLen, s = create maxFileLen) (System.StepWhere next Allowed) s

theorem reached_sound (h : Reached s) : Sound s := by
  refine h.invariant ?_ ?_
  · rintro s ⟨maxFileLen, rfl⟩
    exact create_sound maxFileLen
  · rintro s t hs ⟨l, ha, hl⟩
    exact (next_step ha hl).sound hs

/-- **After the destructor has begun, the write thread takes a bounded number of steps.** -/
theorem run_writer_le (hs : Sound s) (hd : s.destructor ≠ .alive) {ls : List Label}
    (hm : System.Meets next Allowed s ls) (h : System.run next s ls = some t) :
    (ls.map fun l => l.writer.toNat).sum ≤
      s.work + (ls.map fun l => 4 * l.pushes.toNat).sum := by
  have hI : ∀ s l t, Sound s ∧ s.destructor ≠ .alive → Allowed s l → next s l = some t →
      Sound t ∧ t.destructor ≠ .alive := fun s l t hI ha hl =>
    ⟨(next_step ha hl).sound hI.1, (next_step ha hl).begun hI.1 hI.2⟩
  have hrun := System.run_work work (fun l => l.writer.toNat) (fun l => 4 * l.pushes.toNat) hI
    (fun s l t hI ha hl => (next_step ha hl).work hI.1 hI.2) ⟨hs, hd⟩ hm h
  omega

/--
**The log writer.**

At most ten log files exist, and what was written to them, and to those unlinked before them, is a
first part of what was pushed, in order. When the destructor has ended, all that was pushed before
it began is in files. And it comes to its end: once it has begun, the write thread has a step as
long as it has not ended, and can take no more steps than its work and what is pushed later allow.
-/
theorem log_written (h : Reached s) :
    s.filepathQueue.length ≤ 10 ∧
    (∀ path, (s.disk path).isSome = true ↔ path ∈ s.filepathQueue) ∧
    s.history.unlinked ++ FileSequence.contents s.disk s.filepathQueue ++ s.buffered <+:
      s.history.pushed ∧
    (s.destructor = .joined → s.buffered = [] ∧ s.history.before <+:
      s.history.unlinked ++ FileSequence.contents s.disk s.filepathQueue) ∧
    (s.destructor ≠ .alive →
      (s.pc ≠ .exited → ∃ l t, l.writer = true ∧ Allowed s l ∧ s.next l = some t) ∧
      ∀ ls t, System.Meets next Allowed s ls → System.run next s ls = some t →
        (ls.map fun l => l.writer.toNat).sum ≤
          s.work + (ls.map fun l => 4 * l.pushes.toNat).sum) := by
  have hs := reached_sound h
  refine ⟨hs.files.length_le, hs.files.named.isSome_iff, ?_, fun hj => ?_, fun hd =>
    ⟨writer_enabled hs, fun ls t => run_writer_le hs hd⟩⟩
  · rw [← hs.accounts, List.append_assoc s.files.text]
    exact List.prefix_append _ _
  · have hexit : s.pc = .exited := hs.control.joined hj
    have hempty : s.buffered = [] := hs.files.buffered (hs.closed hexit)
    have hdone := hs.done (by rw [hexit]; rfl)
    refine ⟨hempty, ?_⟩
    rwa [Files.text, show s.files.buffered = [] from hempty, List.append_nil] at hdone

/-- Two messages are pushed, and the destructor begins before the write thread does. -/
def sampleLabels : List Label :=
  [.write 0 [1] false, .resume 0, .write 1 [2] false, .resume 1, .destroy, .setThreadExit,
    .createLogFile "a" true, .loopTest, .forceTest, .wait, .fwrite false, .forceTest, .wait,
    .createLogFile "b" true, .fwrite false, .forceTest, .wait, .close, .join]

theorem log_written_sample : ∃ s, System.run next (create 0) sampleLabels = some s ∧
    s.destructor = .joined ∧ s.history.before = [[1], [2]] ∧
    s.history.before <+: s.history.unlinked ++
      FileSequence.contents s.disk s.filepathQueue := by
  obtain ⟨s, hrun, hj, hb⟩ : ∃ s, System.run next (create 0) sampleLabels = some s ∧
      s.destructor = .joined ∧ s.history.before = [[1], [2]] := ⟨_, rfl, rfl, rfl⟩
  have hm : System.Meets next Allowed (create 0) sampleLabels :=
    ⟨rfl, trivial, rfl, trivial, trivial, trivial, ⟨rfl, List.not_mem_nil⟩, trivial, trivial,
      trivial, rfl, trivial, trivial, ⟨rfl, by decide⟩, rfl, trivial, trivial, trivial, trivial,
      trivial⟩
  have hreached : Reached s := System.reachable_of_meets (.of_init ⟨0, rfl⟩) hrun hm
  exact ⟨s, hrun, hj, hb, ((log_written hreached).2.2.2.1 hj).2⟩

end CambriconGst.Cxxutil.LogFile
