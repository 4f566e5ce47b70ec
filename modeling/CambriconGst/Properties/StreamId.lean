import CambriconGst.Gst.StreamId
import Mathlib.Algebra.Ring.Nat

/-!
# Properties of the stream ids

* `takeStreamId_isSome`: the loop that looks for an id ends while there is one that is not taken
* `next_mirrors`: every step keeps the set and the elements' fields in agreement
* `stream_ids`: the ids of the live elements are pairwise distinct, the set is the set of them, and
  a refused setting changes nothing
-/

namespace CambriconGst.Gst.StreamIds

open Lib Lib.Registry

variable {s t : StreamIds} {i : Nat} {id value : BitVec 32}

/-! ## The loop -/

theorem takeStreamId_succ {set : Finset (BitVec 32)} {tries : Nat} {g : BitVec 32} :
    takeStreamId set (tries + 1) g =
      if g ∉ set then some (g, g + 1) else takeStreamId set tries (g + 1) :=
  rfl

theorem not_mem_of_takeStreamId {set : Finset (BitVec 32)} {tries : Nat} {g : BitVec 32}
    {r : BitVec 32 × BitVec 32} (h : takeStreamId set tries g = some r) : r.1 ∉ set := by
  induction tries generalizing g with
  | zero => cases h
  | succ tries ih =>
    rw [takeStreamId_succ] at h
    by_cases hg : g ∈ set
    · rw [if_neg (not_not_intro hg)] at h
      exact ih h
    · rw [if_pos hg, Option.some.injEq] at h
      rw [← h]
      exact hg

/-- The loop finds an id among those that it tries. -/
theorem takeStreamId_isSome_of_not_mem {set : Finset (BitVec 32)} {tries k : Nat} {g : BitVec 32}
    (hk : k < tries) (h : g + BitVec.ofNat 32 k ∉ set) :
    (takeStreamId set tries g).isSome := by
  induction tries generalizing k g with
  | zero => exact absurd hk (Nat.not_lt_zero k)
  | succ tries ih =>
    rw [takeStreamId_succ]
    by_cases hg : g ∈ set
    · rw [if_neg (not_not_intro hg)]
      cases k with
      | zero => exact absurd hg (by simpa using h)
      | succ k =>
        refine ih (k := k) (Nat.lt_of_succ_lt_succ hk) ?_
        have hshift : g + 1 + BitVec.ofNat 32 k = g + BitVec.ofNat 32 (k + 1) := by
          rw [BitVec.ofNat_add, BitVec.add_assoc, BitVec.add_comm 1]
          rfl
        rwa [hshift]
    · rw [if_pos hg]
      rfl

/-- Ids that the counter gives before it wraps are distinct. -/
theorem add_ofNat_injective {g : BitVec 32} {a b : Nat} (ha : a < 2 ^ 32) (hb : b < 2 ^ 32)
    (h : g + BitVec.ofNat 32 a = g + BitVec.ofNat 32 b) : a = b := by
  have hab : BitVec.ofNat 32 a = BitVec.ofNat 32 b := (BitVec.add_right_inj g).mp h
  have hnat := congrArg BitVec.toNat hab
  rwa [BitVec.toNat_ofNat, BitVec.toNat_ofNat, Nat.mod_eq_of_lt ha, Nat.mod_eq_of_lt hb] at hnat

/-- **The loop ends** while there are ids that are not taken. -/
theorem takeStreamId_isSome {set : Finset (BitVec 32)} {g : BitVec 32}
    (h : set.card < 2 ^ 32) : (takeStreamId set (set.card + 1) g).isSome := by
  obtain ⟨k, hk, hfree⟩ := exists_not_mem_of_injective (n := set.card + 1)
    (f := fun k => g + BitVec.ofNat 32 k)
    (fun a ha b hb hab => add_ofNat_injective (by omega) (by omega) hab) (Nat.lt_succ_self _)
  exact takeStreamId_isSome_of_not_mem hk hfree

/-! ## Steps -/

theorem next_init (h : next s (.init i) = some t) :
    s.streamId i = none ∧ ∃ id, id ∉ s.gStreamIdSet ∧
      t.gStreamIdSet = insert id s.gStreamIdSet ∧
      t.streamId = Function.update s.streamId i (some id) := by
  by_cases hi : s.streamId i = none
  · refine ⟨hi, ?_⟩
    rw [next, if_pos hi, init] at h
    obtain ⟨r, hr, rfl⟩ := Option.map_eq_some_iff.mp h
    exact ⟨r.1, not_mem_of_takeStreamId hr, rfl, rfl⟩
  · rw [next, if_neg hi] at h
    cases h

theorem next_finalize (h : next s (.finalize i) = some t) :
    ∃ id, s.streamId i = some id ∧ t = s.finalize i id := by
  obtain ⟨id, hid, rfl⟩ := Option.map_eq_some_iff.mp h
  exact ⟨id, hid, rfl⟩

theorem next_setProperty (h : next s (.setProperty i value) = some t) :
    ∃ id, s.streamId i = some id ∧ t = s.setStreamId i id value := by
  obtain ⟨id, hid, rfl⟩ := Option.map_eq_some_iff.mp h
  exact ⟨id, hid, rfl⟩

/-- A value that no other element has is set. -/
theorem setStreamId_of_not_mem (h : value ∉ s.gStreamIdSet.erase id) :
    (s.setStreamId i id value).gStreamIdSet = insert value (s.gStreamIdSet.erase id) ∧
      (s.setStreamId i id value).streamId = Function.update s.streamId i (some value) := by
  rw [setStreamId, if_pos h]
  exact ⟨rfl, rfl⟩

/-- A value that another element has changes nothing. -/
theorem setStreamId_of_mem (hm : Mirrors s.gStreamIdSet s.streamId)
    (hi : s.streamId i = some id) (h : value ∈ s.gStreamIdSet.erase id) :
    s.setStreamId i id value = s := by
  have hid : id ∈ s.gStreamIdSet := (hm.mem_iff id).mpr ⟨i, hi⟩
  rw [setStreamId, if_neg (not_not_intro h), Finset.insert_erase hid, ← hi,
    Function.update_eq_self]

theorem setStreamId_mirrors (hm : Mirrors s.gStreamIdSet s.streamId)
    (hi : s.streamId i = some id) :
    Mirrors (s.setStreamId i id value).gStreamIdSet (s.setStreamId i id value).streamId := by
  by_cases hv : value ∈ s.gStreamIdSet.erase id
  · rw [setStreamId_of_mem hm hi hv]
    exact hm
  · obtain ⟨hset, hids⟩ := setStreamId_of_not_mem (i := i) hv
    have hclaim := (hm.release hi).claim (i := i) (Function.update_self i _ _) hv
    rw [Function.update_idem] at hclaim
    rw [hset, hids]
    exact hclaim

/-- **Every step keeps the set and the fields in agreement.** -/
theorem next_mirrors {l : Label} (hm : Mirrors s.gStreamIdSet s.streamId)
    (h : next s l = some t) : Mirrors t.gStreamIdSet t.streamId := by
  cases l with
  | init i =>
    obtain ⟨hi, id, hfree, hset, hids⟩ := next_init h
    rw [hset, hids]
    exact hm.claim hi hfree
  | setProperty i value =>
    obtain ⟨id, hi, rfl⟩ := next_setProperty h
    exact setStreamId_mirrors hm hi
  | finalize i =>
    obtain ⟨id, hi, rfl⟩ := next_finalize h
    exact hm.release hi

theorem reachable_mirrors (h : Reachable (· = initial) (System.Step next) s) :
    Mirrors s.gStreamIdSet s.streamId := by
  refine h.invariant (I := fun s => Mirrors s.gStreamIdSet s.streamId) ?_ ?_
  · rintro s rfl
    exact Mirrors.empty
  · rintro s t hm ⟨l, -, hl⟩
    exact next_mirrors hm hl

/-! ## The elements -/

/-- A new element gets an id while there is one that is not taken. -/
theorem next_init_isSome (hi : s.streamId i = none) (hfree : s.gStreamIdSet.card < 2 ^ 32) :
    (next s (.init i)).isSome := by
  rw [next, if_pos hi, init, Option.isSome_map]
  exact takeStreamId_isSome hfree

/--
**The stream ids of the live elements.**

They are pairwise distinct, and the set has nothing else in it. A setting is refused when another
element has the value; then nothing changes, and otherwise the element has the value and the others
are as before.
-/
theorem stream_ids (h : Reachable (· = initial) (System.Step next) s) :
    (∀ i j id, s.streamId i = some id → s.streamId j = some id → i = j) ∧
      (∀ id, id ∈ s.gStreamIdSet ↔ ∃ i, s.streamId i = some id) ∧
      ∀ i id value, s.streamId i = some id → ∃ t, next s (.setProperty i value) = some t ∧
        ((∃ j, j ≠ i ∧ s.streamId j = some value) → t = s) ∧
        ((∀ j, j ≠ i → s.streamId j ≠ some value) →
          t.streamId = Function.update s.streamId i (some value)) := by
  have hm := reachable_mirrors h
  refine ⟨hm.eq_of_eq, hm.mem_iff, fun i id value hi => ⟨s.setStreamId i id value, ?_, ?_, ?_⟩⟩
  · rw [next, hi]
    rfl
  · intro hother
    exact setStreamId_of_mem hm hi ((hm.mem_erase_iff hi).mpr hother)
  · intro hnone
    refine (setStreamId_of_not_mem fun hv => ?_).2
    obtain ⟨j, hji, hj⟩ := (hm.mem_erase_iff hi).mp hv
    exact hnone j hji hj

/-- Two elements, of which the second may not have the id of the first. -/
theorem stream_ids_two : ∃ s : StreamIds, s.streamId 1 = some 1 ∧
    ∃ t, next s (.setProperty 1 0) = some t ∧ t.streamId 1 = some 1 := by
  have hone : Reachable (· = initial) (System.Step next)
      { gStreamId := 1
        gStreamIdSet := {0}
        streamId := Function.update (fun _ => none) 0 (some 0) } :=
    Reachable.tail (Reachable.of_init (s := initial) rfl) ⟨.init 0, trivial, rfl⟩
  have htwo : Reachable (· = initial) (System.Step next)
      { gStreamId := 2
        gStreamIdSet := insert 1 {0}
        streamId := Function.update (Function.update (fun _ => none) 0 (some 0)) 1 (some 1) } :=
    hone.tail ⟨.init 1, trivial, rfl⟩
  obtain ⟨t, ht, hrefused, -⟩ := (stream_ids htwo).2.2 1 1 0 rfl
  refine ⟨_, rfl, t, ht, ?_⟩
  have heq := hrefused ⟨0, by decide, rfl⟩
  rw [heq]
  rfl

end CambriconGst.Gst.StreamIds
