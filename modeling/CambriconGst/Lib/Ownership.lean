import Mathlib.Data.List.Nodup
import Mathlib.Data.List.Perm.Basic

/-!
# Cells with one owner each

Cells are allocated, handed from owner to owner, and freed.

* `Arena`: the cells that are live
* `Arena.Owns`: the cells of a list are live, each listed once, and no dead cell was ever freed
-/

namespace CambriconGst.Lib

structure Arena where
  /-- The number of cells allocated so far, and the name of the next one. -/
  created : Nat
  live : List Nat
  freedDead : Bool
deriving DecidableEq, Repr

namespace Arena

variable {a : Arena} {owned : List Nat} {m : Nat}

def empty : Arena where
  created := 0
  live := []
  freedDead := false

def alloc (a : Arena) : Arena :=
  { a with created := a.created + 1, live := a.created :: a.live }

def free (a : Arena) (m : Nat) : Arena :=
  { a with live := a.live.erase m, freedDead := a.freedDead || !a.live.contains m }

def freeAll (a : Arena) (ms : List Nat) : Arena :=
  ms.foldl free a

structure Owns (a : Arena) (owned : List Nat) : Prop where
  freed : a.freedDead = false
  nodup : owned.Nodup
  live : ∀ m ∈ owned, m ∈ a.live
  fresh : ∀ m ∈ a.live, m < a.created

namespace Owns

theorem empty : Owns Arena.empty [] where
  freed := rfl
  nodup := List.nodup_nil
  live := fun _ hm => absurd hm List.not_mem_nil
  fresh := fun _ hm => absurd hm List.not_mem_nil

theorem alloc (h : Owns a owned) : Owns a.alloc (a.created :: owned) where
  freed := h.freed
  nodup := List.nodup_cons.mpr
    ⟨fun hm => Nat.lt_irrefl _ (h.fresh _ (h.live _ hm)), h.nodup⟩
  live := fun m hm => by
    rcases List.mem_cons.mp hm with rfl | hm
    · exact List.mem_cons_self
    · exact List.mem_cons_of_mem _ (h.live m hm)
  fresh := fun m hm => by
    rcases List.mem_cons.mp hm with rfl | hm
    · exact Nat.lt_succ_self _
    · exact Nat.lt_succ_of_lt (h.fresh m hm)

/-- An owner that frees its cell leaves the others theirs. -/
theorem free (h : Owns a (m :: owned)) : Owns (a.free m) owned where
  freed := by simp [Arena.free, h.freed, h.live m List.mem_cons_self]
  nodup := (List.nodup_cons.mp h.nodup).2
  live := fun n hn => by
    refine (List.mem_erase_of_ne ?_).mpr (h.live n (List.mem_cons_of_mem _ hn))
    rintro rfl
    exact (List.nodup_cons.mp h.nodup).1 hn
  fresh := fun n hn => h.fresh n (List.mem_of_mem_erase hn)

theorem freeAll {ms : List Nat} (h : Owns a (ms ++ owned)) : Owns (a.freeAll ms) owned := by
  induction ms generalizing a with
  | nil => exact h
  | cons m ms ih => exact ih h.free

theorem perm (h : Owns a owned) {owned' : List Nat} (hp : owned.Perm owned') : Owns a owned' where
  freed := h.freed
  nodup := hp.nodup_iff.mp h.nodup
  live := fun m hm => h.live m (hp.mem_iff.mpr hm)
  fresh := h.fresh

end Owns

end Arena

end CambriconGst.Lib
