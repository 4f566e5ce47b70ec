import CambriconGst.Lib.FileSequence
import CambriconGst.Lib.System

/-!
# The log file writer

`LogFile` of `cxxutil/log.cpp`: threads push messages to a queue, and the thread of `WriteFileLoop`
writes them to files that it rotates. What the C library and the file system do is a label of the
step.
-/

namespace CambriconGst.Cxxutil

open Lib

/-- The bytes of a `std::string`. -/
abbrev Msg := List UInt8

abbrev Path := String

namespace LogFile

/-- Where the write thread is. The flag says that it is in the second loop, which flushes `msgq_`. -/
inductive Pc where
  | start
  | loopTest
  /-- In `WaitAndTryPop` of the first loop. -/
  | waiting
  /-- In `CreateLogFile`, with a message popped. -/
  | rotating (second : Bool) (msg : Msg)
  /-- Before `fwrite`. -/
  | writing (second : Bool) (msg : Msg)
  /-- The disk is full. -/
  | sleeping
  | flushTest
  | forceTest
  /-- In `WaitAndTryPop` of the second loop. -/
  | draining
  | closing
  | exited
deriving DecidableEq, Repr

/-- Where the destructor is. -/
inductive Destructor where
  | alive
  | stopped
  | notified
  | joined
deriving DecidableEq, Repr

/-- A call of `Write` between its two operations. -/
inductive Call where
  | pushing (msg : Msg)
  | forcing
deriving DecidableEq, Repr

/-- What has happened, for statements only. -/
structure History where
  /-- The messages, in the order in which they were pushed. -/
  pushed : List Msg
  /-- Those that had been pushed when the destructor began. -/
  before : List Msg
  created : List Path
  /-- The text of the files that were unlinked. -/
  unlinked : List Msg
deriving DecidableEq, Repr

end LogFile

open LogFile in
/-- A `LogFile`, with its files and threads. -/
structure LogFile where
  filepathQueue : List Path
  file : Option Path
  fileLen : Nat
  maxFileLen : Nat
  msgq : List Msg
  stopWriting : Bool
  forceFlush : Bool
  bytesSinceFlush : Nat
  threadExit : Bool
  /-- The log files. -/
  disk : Path → Option (List Msg)
  /-- What was written to `file_` and is not in the file yet. -/
  buffered : List Msg
  /-- The threads that are in `Write`. -/
  calls : Nat → Option Call
  pc : Pc
  destructor : Destructor
  history : History

namespace LogFile

/-- The state after the constructor. -/
def create (maxFileLen : Nat) : LogFile where
  filepathQueue := []
  file := none
  fileLen := 0
  maxFileLen := maxFileLen
  msgq := []
  stopWriting := false
  forceFlush := false
  bytesSinceFlush := 0
  threadExit := false
  disk _ := none
  buffered := []
  calls _ := none
  pc := .start
  destructor := .alive
  history := { pushed := [], before := [], created := [], unlinked := [] }

/-- The buffer of `file_` goes to the file. -/
def fflush (s : LogFile) : LogFile :=
  match s.file with
  | none => s
  | some path => { s with disk := FileSequence.append s.disk path s.buffered, buffered := [] }

def fclose (s : LogFile) : LogFile :=
  { s.fflush with file := none }

/-- `Flush`. The time of the next flush is not kept: whether it has come is a label. -/
def flush (s : LogFile) : LogFile :=
  if s.file.isSome then { s.fflush with bytesSinceFlush := 0 } else s

/-- Clean up for old logs. -/
def unlinkFront (s : LogFile) : LogFile :=
  match s.filepathQueue with
  | [] => s
  | path :: rest =>
    { s with
      filepathQueue := rest
      disk := FileSequence.unlink s.disk path
      history :=
        { s.history with unlinked := s.history.unlinked ++ (s.disk path).getD [] } }

def cleanUp (s : LogFile) : LogFile :=
  if s.filepathQueue.length ≥ 10 then s.unlinkFront else s

/-- `fopen` with mode `w`, and the update of the flush log bytes. -/
def openFile (s : LogFile) (path : Path) : LogFile :=
  { s with
    file := some path
    disk := FileSequence.create s.disk path
    bytesSinceFlush := 0
    history := { s.history with created := s.history.created ++ [path] } }

/-- `CreateLogFile`, with the path made of the time, and whether `fopen` succeeds. -/
def createLogFile (s : LogFile) (path : Path) (opened : Bool) : Bool × LogFile :=
  let s := s.fclose
  if opened = false then (false, s)
  else
    let s := (s.openFile path).cleanUp
    (true, { s with filepathQueue := s.filepathQueue ++ [path] })

/-- A message was popped. -/
def gotten (s : LogFile) (second : Bool) (msg : Msg) (rest : List Msg) : LogFile :=
  { s with
    msgq := rest
    pc := if s.fileLen > s.maxFileLen then .rotating second msg else .writing second msg }

inductive Label where
  /-- A thread enters `Write`. -/
  | write (thread : Nat) (msg : Msg) (forceFlush : Bool)
  /-- The thread goes on to its second operation. -/
  | resume (thread : Nat)
  /-- The destructor begins. -/
  | destroy
  | setThreadExit
  | join
  | createLogFile (path : Path) (opened : Bool)
  | loopTest
  /-- `WaitAndTryPop`, which pops a message, or finds none when its time is over. -/
  | wait
  /-- `fwrite`, and whether `errno` is `ENOSPC` then. -/
  | fwrite (full : Bool)
  /-- The end of `wait_for`. -/
  | wake
  /-- The test before `Flush`, and whether the time of the next flush has come. -/
  | flushTest (due : Bool)
  | forceTest
  | close
  /-- The C library writes its buffer out. -/
  | stdio
deriving DecidableEq, Repr

/-- The steps of the threads that call `Write`. -/
def nextWrite (s : LogFile) (thread : Nat) (msg : Msg) (forceFlush : Bool) : LogFile :=
  if forceFlush then
    { s with
      stopWriting := true
      calls := Function.update s.calls thread (some .forcing) }
  else if s.stopWriting = false then
    { s with calls := Function.update s.calls thread (some (.pushing msg)) }
  else s

def nextResume (s : LogFile) (thread : Nat) : Option LogFile :=
  match s.calls thread with
  | none => none
  | some (.pushing msg) => some
    { s with
      msgq := s.msgq ++ [msg]
      calls := Function.update s.calls thread none
      history := { s.history with pushed := s.history.pushed ++ [msg] } }
  | some .forcing => some
    { s with
      forceFlush := true
      calls := Function.update s.calls thread none }

/-- A step of some thread; none when it is not possible. -/
def next (s : LogFile) : Label → Option LogFile
  | .write thread msg forceFlush =>
    if (s.calls thread).isNone ∧ s.destructor ≠ .joined then
      some (s.nextWrite thread msg forceFlush)
    else none
  | .resume thread => if s.destructor ≠ .joined then s.nextResume thread else none
  | .destroy =>
    if s.destructor = .alive then some
      { s with
        stopWriting := true
        destructor := .stopped
        history := { s.history with before := s.history.pushed } }
    else none
  | .setThreadExit =>
    if s.destructor = .stopped then some { s with threadExit := true, destructor := .notified }
    else none
  | .join =>
    if s.destructor = .notified ∧ s.pc = .exited then some { s with destructor := .joined }
    else none
  | .createLogFile path opened =>
    match s.pc with
    | .start =>
      match s.createLogFile path opened with
      | (false, s) => some { s with stopWriting := true, pc := .exited }
      | (true, s) => some { s with pc := .loopTest }
    | .rotating second msg =>
      match s.createLogFile path opened with
      | (false, s) =>
        some { s with stopWriting := if second then s.stopWriting else true, pc := .exited }
      | (true, s) => some { s with fileLen := 0, pc := .writing second msg }
    | _ => none
  | .loopTest =>
    if s.pc = .loopTest then
      some { s with pc := if s.stopWriting then .forceTest else .waiting }
    else none
  | .wait =>
    match s.pc, s.msgq with
    | .waiting, [] => some { s with pc := .flushTest }
    | .waiting, msg :: rest => some (s.gotten false msg rest)
    | .draining, [] => some { s with pc := .closing }
    | .draining, msg :: rest => some (s.gotten true msg rest)
    | _, _ => none
  | .fwrite full =>
    match s.pc with
    | .writing false msg =>
      -- what of a message reached a full disk is not looked at
      if full then some { s with stopWriting := true, pc := .sleeping }
      else some
        { s with
          buffered := s.buffered ++ [msg]
          fileLen := s.fileLen + msg.length
          bytesSinceFlush := s.bytesSinceFlush + msg.length
          pc := .flushTest }
    | .writing true msg =>
      if full then some { s.fclose with pc := .exited }
      else some
        { s with
          buffered := s.buffered ++ [msg]
          fileLen := s.fileLen + msg.length
          pc := .forceTest }
    | _ => none
  | .wake =>
    if s.pc = .sleeping then
      if s.threadExit then some { s with pc := .flushTest }
      else some { s with stopWriting := false, pc := .loopTest }
    else none
  | .flushTest due =>
    if s.pc = .flushTest then
      some { (if s.bytesSinceFlush ≥ 1000000 ∨ due then s.flush else s) with pc := .loopTest }
    else none
  | .forceTest =>
    if s.pc = .forceTest then
      some { s with pc := if s.forceFlush then .closing else .draining }
    else none
  | .close => if s.pc = .closing then some { s.fclose with pc := .exited } else none
  | .stdio => if s.file.isSome then some s.fflush else none

end LogFile

end CambriconGst.Cxxutil
