import Mathlib.Logic.Function.Basic

/-!
# A heap of blocks

One address space: live blocks of cells, an allocator that hands out addresses never used
before, and accesses that fail on a dead or too short block. A freed address is never handed
out again, so every access through a stale pointer fails.

* `malloc`, `free`, `load`, `store`, `copy`: the operations
* `load_*`: what a load sees after each of them
-/

namespace CambriconGst.Lib

/-- Live blocks below the allocation frontier `brk`. Fresh blocks hold `garbage`. -/
structure BlockHeap (β : Type) where
  block : Nat → Option (List β)
  brk : Nat
  garbage : Nat → Nat → β
  fresh : ∀ p, brk ≤ p → block p = none

namespace BlockHeap

variable {β : Type}

/-- The heap in which no block is live. -/
def empty (garbage : Nat → Nat → β) : BlockHeap β where
  block := fun _ => none
  brk := 1
  garbage := garbage
  fresh := fun _ _ => rfl

/-- Overwrite the block at an address below the frontier. -/
def setBlock (h : BlockHeap β) (p : Nat) (hp : p < h.brk) (b : Option (List β)) : BlockHeap β where
  block := Function.update h.block p b
  brk := h.brk
  garbage := h.garbage
  fresh := fun q hq => by
    rw [Function.update_of_ne (by omega)]
    exact h.fresh q hq

theorem lt_brk {h : BlockHeap β} {p : Nat} {b : List β} (hb : h.block p = some b) :
    p < h.brk := by
  by_contra hge
  rw [h.fresh p (by omega)] at hb
  simp at hb

/-- A block of `n` uninitialised cells. -/
def garbageBlock (h : BlockHeap β) (n : Nat) : List β := (List.range n).map (h.garbage h.brk)

@[simp] theorem length_garbageBlock (h : BlockHeap β) (n : Nat) :
    (h.garbageBlock n).length = n := by
  simp [garbageBlock]

/-- Add a live block with the given contents. -/
def push (h : BlockHeap β) (b : List β) : Nat × BlockHeap β :=
  (h.brk,
    { block := Function.update h.block h.brk (some b)
      brk := h.brk + 1
      garbage := h.garbage
      fresh := fun q hq => by
        rw [Function.update_of_ne (by omega)]
        exact h.fresh q (by omega) })

def malloc (h : BlockHeap β) (n : Nat) : Nat × BlockHeap β := h.push (h.garbageBlock n)

def free (h : BlockHeap β) (p : Nat) : Option (BlockHeap β) :=
  match hb : h.block p with
  | some _ => some (h.setBlock p (lt_brk hb) none)
  | none => none

/-- The first `n` cells of the block at `p`. -/
def load (h : BlockHeap β) (p n : Nat) : Option (List β) :=
  match h.block p with
  | some b => if n ≤ b.length then some (b.take n) else none
  | none => none

/-- Overwrite the first cells of the block at `p`. -/
def store (h : BlockHeap β) (p : Nat) (bs : List β) : Option (BlockHeap β) :=
  match hb : h.block p with
  | some b =>
    if bs.length ≤ b.length then some (h.setBlock p (lt_brk hb) (some (bs ++ b.drop bs.length)))
    else none
  | none => none

/-- `memcpy` of `n` cells from one space to another. -/
def copy (dst src : BlockHeap β) (p q n : Nat) : Option (BlockHeap β) :=
  match src.load q n with
  | some bs => dst.store p bs
  | none => none

/-! ## What a load sees -/

theorem length_of_load {h : BlockHeap β} {p n : Nat} {bs : List β} (hl : h.load p n = some bs) :
    bs.length = n := by
  unfold load at hl
  split at hl
  · next b _ =>
    split at hl
    · next hle =>
      rw [← Option.some.inj hl, List.length_take]
      omega
    · simp at hl
  · simp at hl

theorem load_congr {h h' : BlockHeap β} {p : Nat} (he : h'.block p = h.block p) (n : Nat) :
    h'.load p n = h.load p n := by
  unfold load
  rw [he]

theorem load_push_self (h : BlockHeap β) (b : List β) :
    (h.push b).2.load h.brk b.length = some b := by
  unfold load push
  simp

theorem load_malloc_self (h : BlockHeap β) (n : Nat) :
    (h.malloc n).2.load (h.malloc n).1 n = some (h.garbageBlock n) := by
  have := load_push_self h (h.garbageBlock n)
  rwa [length_garbageBlock] at this

theorem free_of_load {h : BlockHeap β} {p n : Nat} {bs : List β} (hl : h.load p n = some bs) :
    ∃ h', h.free p = some h' ∧ ∀ q, q ≠ p → h'.block q = h.block q := by
  unfold free
  split
  · exact ⟨_, rfl, fun q hq => by simp [setBlock, hq]⟩
  · next hb =>
    unfold load at hl
    rw [hb] at hl
    simp at hl

theorem load_free_self {h h' : BlockHeap β} {p : Nat} (hf : h.free p = some h') (n : Nat) :
    h'.load p n = none := by
  unfold free at hf
  split at hf
  · obtain rfl := Option.some.inj hf
    simp [load, setBlock]
  · cases hf

/-- A store of at most the loadable length succeeds; it changes one block only. -/
theorem store_of_load {h : BlockHeap β} {p n : Nat} {bs : List β} (hl : h.load p n = some bs)
    {cs : List β} (hc : cs.length = n) :
    ∃ h', h.store p cs = some h' ∧ h'.load p n = some cs ∧
      ∀ q, q ≠ p → h'.block q = h.block q := by
  unfold load at hl
  split at hl
  · next b hb =>
    split at hl
    · next hle =>
      have hs : h.store p cs
          = some (h.setBlock p (lt_brk hb) (some (cs ++ b.drop cs.length))) := by
        unfold store
        split
        · next b' hb' =>
          rw [hb] at hb'
          obtain rfl := Option.some.inj hb'
          rw [if_pos (by omega)]
        · next hb' => rw [hb] at hb'; simp at hb'
      refine ⟨_, hs, ?_, fun q hq => by simp [setBlock, hq]⟩
      unfold load setBlock
      simp only [Function.update_self, List.length_append, List.length_drop]
      rw [if_pos (by omega), ← hc, List.take_left]
    · simp at hl
  · simp at hl

theorem copy_of_load {dst src : BlockHeap β} {p q n : Nat} {bs cs : List β}
    (hd : dst.load p n = some bs) (hs : src.load q n = some cs) :
    ∃ h', dst.copy src p q n = some h' ∧ h'.load p n = some cs ∧
      ∀ r, r ≠ p → h'.block r = dst.block r := by
  unfold copy
  rw [hs]
  exact store_of_load hd (length_of_load hs)

end BlockHeap

end CambriconGst.Lib
