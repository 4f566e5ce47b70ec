/-!
# Waiting on a condition variable

`wait(lock, pred)` as a sequence of atomic steps: the predicate is tested with the lock held; when it
is false the thread releases the lock and blocks; a notify wakes only a thread that is blocked, which
then takes the lock and tests again.
-/

namespace CambriconGst.Lib

/-- Where a thread is in `wait(lock, pred)`. -/
inductive Waiter where
  | testing
  /-- The predicate was false, and the lock is not released yet. -/
  | blocking
  | blocked
  /-- Notified, and about to take the lock. -/
  | woken
deriving DecidableEq, Repr

namespace Waiter

def holdsLock : Waiter → Bool
  | .testing => true
  | .blocking => true
  | .blocked => false
  | .woken => false

def notify : Waiter → Waiter
  | .blocked => .woken
  | w => w

@[simp]
theorem notify_ne_blocked (w : Waiter) : w.notify ≠ .blocked := by
  cases w <;> exact nofun

@[simp]
theorem notify_eq_blocking {w : Waiter} : w.notify = .blocking ↔ w = .blocking := by
  cases w <;> simp [notify]

@[simp]
theorem holdsLock_notify (w : Waiter) : w.notify.holdsLock = w.holdsLock := by
  cases w <;> rfl

end Waiter

end CambriconGst.Lib
