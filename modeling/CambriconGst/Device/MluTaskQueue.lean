import Mathlib.Data.List.Basic

/-!
# Marks of a task queue

`MluTaskQueue::PlaceMark` of `device/mlu_context.cpp`, and the `Mark` objects that it hands out, which
give their slot back when they are destroyed.
-/

namespace CambriconGst.Device

namespace MluTaskQueue

/-- `MluTaskQueue::Mark`. -/
structure Mark where
  /-- `release_` is set. -/
  release : Bool
  idx : Nat
deriving DecidableEq, Repr

end MluTaskQueue

open MluTaskQueue in
/-- `MluTaskQueuePrivate`, and the `Mark` objects there are. -/
structure MluTaskQueue where
  /-- The size of `marks`. -/
  marks : Nat
  marksValid : List Bool
  objects : List Mark
deriving DecidableEq, Repr

namespace MluTaskQueue

def marksMaxNum : Nat := 40

/-- `MluTaskQueuePrivate`. -/
def initial : MluTaskQueue where
  marks := 2
  marksValid := [true, true]
  objects := []

/-- The first slot that is valid, or the number of slots. -/
def findSlot (s : MluTaskQueue) : Nat :=
  s.marksValid.findIdx id

/-- The end of `PlaceMark`; `placed` says that the notifier was placed. -/
def mark (s : MluTaskQueue) (idx : Nat) (placed : Bool) : Bool × MluTaskQueue :=
  if placed then
    (true,
      { s with
        marksValid := s.marksValid.set idx false
        objects := { release := true, idx } :: s.objects })
  else (false, s)

/--
`PlaceMark`; `created` says that a notifier was created for another slot. The result is false when it
throws.
-/
def placeMark (s : MluTaskQueue) (created placed : Bool) : Bool × MluTaskQueue :=
  let idx := s.findSlot
  if idx = s.marksValid.length then
    if s.marks > marksMaxNum then (false, s)
    else if created = false then (false, s)
    else
      { s with marks := s.marks + 1, marksValid := s.marksValid ++ [true] }.mark idx placed
  else s.mark idx placed

/-- The move constructor, from the object `i`. -/
def moveConstruct (s : MluTaskQueue) (i : Nat) (other : Mark) : MluTaskQueue :=
  { s with objects := other :: s.objects.set i { other with release := false } }

/-- The move assignment, to the object `i` from the object `j`. -/
def moveAssign (s : MluTaskQueue) (i j : Nat) (other : Mark) : MluTaskQueue :=
  { s with objects := (s.objects.set i other).set j { other with release := false } }

/-- The destructor. -/
def destroy (s : MluTaskQueue) (i : Nat) (m : Mark) : MluTaskQueue :=
  { s with
    marksValid := if m.release then s.marksValid.set m.idx true else s.marksValid
    objects := s.objects.eraseIdx i }

inductive Label where
  | placeMark (created placed : Bool)
  | moveConstruct (i : Nat)
  | moveAssign (i j : Nat)
  | destroy (i : Nat)
deriving DecidableEq, Repr

def next (s : MluTaskQueue) : Label → Option MluTaskQueue
  | .placeMark created placed => some (s.placeMark created placed).2
  | .moveConstruct i => s.objects[i]?.map (s.moveConstruct i)
  | .moveAssign i j => if i < s.objects.length then s.objects[j]?.map (s.moveAssign i j) else none
  | .destroy i => s.objects[i]?.map (s.destroy i)

end MluTaskQueue

end CambriconGst.Device
