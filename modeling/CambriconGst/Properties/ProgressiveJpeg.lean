import CambriconGst.Easycodec.ProgressiveJpeg
import CambriconGst.Lib.System
import Mathlib.Data.List.Perm.Subperm
import Mathlib.Data.List.Nodup

/-!
# The buffers of progressive JPEG pictures

`Decode` takes a buffer without a look at whether there was one.

* `ProgressiveJpeg.pool_kept`: each frame has a buffer of its own, while no picture is decoded with
  all buffers taken
* `ProgressiveJpeg.pool_exhausted`: what a frame gets otherwise
-/

namespace CambriconGst.Easycodec.ProgressiveJpeg

open Lib

variable {n : Nat} {s t : ProgressiveJpeg} {l : Label}

/-- The frames that are out have buffers of the pool, each its own, and the pool has no other. -/
structure PoolKept (n : Nat) (s : ProgressiveJpeg) : Prop where
  preallocated : ∀ f ∈ s.outstanding, ∃ i < n, f.ptr = some i
  distinct : (s.outstanding.map CnFrame.ptr).Nodup
  poolMap : s.memoryPoolMap = (create n).memoryPoolMap
  bounded : s.outstanding.length ≤ n

/-- The condition on a step: a picture is decoded when a buffer is there. -/
def FindsBuffer (s : ProgressiveJpeg) : Label → Prop
  | .decode _ _ => s.memoryIds ≠ []
  | .releaseBuffer _ => True

/-- The ids that are in the queue or out with a frame. -/
def ids (s : ProgressiveJpeg) : List Nat :=
  s.memoryIds ++ s.outstanding.map CnFrame.bufId

/-- What is known between steps that meet the condition. -/
structure Kept (n : Nat) (s : ProgressiveJpeg) : Prop where
  poolMap : s.memoryPoolMap = (create n).memoryPoolMap
  nodup : s.ids.Nodup
  inRange : ∀ id ∈ s.ids, n ≤ id ∧ id < n + n
  ptr : ∀ f ∈ s.outstanding, f.ptr = some (f.bufId - n)

theorem lookup_numbered {is : List Nat} {i : Nat} (hi : i ∈ is) :
    (is.map fun i => (n + i, some i)).lookup (n + i) = some (some i) := by
  induction is with
  | nil => cases hi
  | cons j is ih =>
    rw [List.map_cons, List.lookup_cons]
    by_cases hj : i = j
    · rw [hj, beq_self_eq_true]
    · rw [beq_eq_false_iff_ne.mpr (by omega)]
      exact ih ((List.mem_cons.mp hi).resolve_left hj)

/-- The buffer with an id of the pool. -/
theorem lookup_create {id : Nat} (h : n ≤ id ∧ id < n + n) :
    (create n).memoryPoolMap.lookup id = some (some (id - n)) := by
  obtain ⟨i, rfl⟩ := Nat.exists_eq_add_of_le h.1
  rw [Nat.add_sub_cancel_left]
  exact lookup_numbered (List.mem_range.mpr (by omega))

theorem lookup_create_eq_none {id : Nat} (h : n + n ≤ id) :
    (create n).memoryPoolMap.lookup id = none := by
  refine List.lookup_eq_none_iff.mpr fun p hp => ?_
  obtain ⟨i, hi, rfl⟩ := List.mem_map.mp hp
  have hlt := List.mem_range.mp hi
  exact bne_iff_ne.mpr (by simp only; omega)

namespace Kept

theorem create : Kept n (create n) where
  poolMap := rfl
  nodup := by
    simp only [ids, ProgressiveJpeg.create, List.map_nil, List.append_nil]
    exact List.nodup_range.map fun i j h => Nat.add_left_cancel h
  inRange := fun id hid => by
    simp only [ids, ProgressiveJpeg.create, List.map_nil, List.append_nil] at hid
    obtain ⟨i, hi, rfl⟩ := List.mem_map.mp hid
    have hlt := List.mem_range.mp hi
    omega
  ptr := nofun

theorem decode (h : Kept n s) {garbage : Nat} {copied : Bool} (hne : s.memoryIds ≠ []) :
    Kept n (s.decode garbage copied) := by
  obtain ⟨id, rest, hids⟩ := List.exists_cons_of_ne_nil hne
  have hmem : id ∈ s.ids := List.mem_append_left _ (hids ▸ List.mem_cons_self)
  have hlookup : s.memoryPoolMap.lookup id = some (some (id - n)) := by
    rw [h.poolMap]
    exact lookup_create (h.inRange id hmem)
  have hperm : s.ids.Perm (rest ++ id :: s.outstanding.map CnFrame.bufId) := by
    unfold ids
    rw [hids]
    exact List.perm_middle.symm
  unfold ProgressiveJpeg.decode tryPop
  rw [hids]
  simp only [poolEntry, hlookup]
  cases copied with
  | true =>
    exact
      { poolMap := h.poolMap
        nodup := hperm.nodup_iff.mp h.nodup
        inRange := fun i hi => h.inRange i (hperm.mem_iff.mpr hi)
        ptr := fun f hf => by
          rcases List.mem_cons.mp hf with rfl | hf
          · rfl
          · exact h.ptr f hf }
  | false =>
    -- the buffer is lost
    have hsub : (rest ++ s.outstanding.map CnFrame.bufId).Sublist
        (rest ++ id :: s.outstanding.map CnFrame.bufId) :=
      (List.Sublist.refl rest).append (List.sublist_cons_self id _)
    exact
      { poolMap := h.poolMap
        nodup := (hperm.nodup_iff.mp h.nodup).sublist hsub
        inRange := fun i hi => h.inRange i (hperm.mem_iff.mpr (hsub.mem hi))
        ptr := h.ptr }

theorem releaseBuffer (h : Kept n s) {bufId : Nat}
    (hb : (∃ f ∈ s.outstanding, f.bufId = bufId) ∨ s.memoryPoolMap.lookup bufId = none) :
    Kept n (s.releaseBuffer bufId) := by
  unfold ProgressiveJpeg.releaseBuffer
  have hptr : ∀ f ∈ s.outstanding.eraseP (·.bufId = bufId), f.ptr = some (f.bufId - n) :=
    fun f hf => h.ptr f (List.mem_of_mem_eraseP hf)
  rcases hb with ⟨f, hf, hfb⟩ | hnone
  · have hmem : bufId ∈ s.ids :=
      List.mem_append_right _ (List.mem_map.mpr ⟨f, hf, hfb⟩)
    have hlookup := h.poolMap ▸ lookup_create (h.inRange bufId hmem)
    obtain ⟨g, fs, gs, -, hg, hsplit, herase⟩ :=
      List.exists_of_eraseP (p := (·.bufId = bufId)) hf (decide_eq_true hfb)
    have hperm : s.ids.Perm (s.memoryIds ++ [bufId] ++
        (s.outstanding.eraseP (·.bufId = bufId)).map CnFrame.bufId) := by
      unfold ids
      rw [herase, hsplit, List.map_append, List.map_cons, of_decide_eq_true hg, List.map_append,
        List.append_assoc]
      exact List.perm_middle.append_left s.memoryIds
    simp only [hlookup, Option.isSome_some, if_true]
    exact
      { poolMap := h.poolMap
        nodup := hperm.nodup_iff.mp h.nodup
        inRange := fun i hi => h.inRange i (hperm.mem_iff.mpr hi)
        ptr := hptr }
  · have hsub : (s.memoryIds ++ (s.outstanding.eraseP (·.bufId = bufId)).map CnFrame.bufId).Sublist
        s.ids := (List.Sublist.refl _).append (List.eraseP_sublist.map _)
    simp only [hnone, Option.isSome_none, Bool.false_eq_true, if_false]
    exact
      { poolMap := h.poolMap
        nodup := h.nodup.sublist hsub
        inRange := fun i hi => h.inRange i (hsub.mem hi)
        ptr := hptr }

/-- What a step that meets the condition keeps. -/
theorem next (h : Kept n s) (hn : s.next l = some t) (hc : s.FindsBuffer l) : Kept n t := by
  cases l with
  | decode garbage copied =>
    cases hn
    exact h.decode hc
  | releaseBuffer bufId =>
    obtain ⟨hb, ht⟩ := Option.ite_none_right_eq_some.mp hn
    cases ht
    exact h.releaseBuffer hb

theorem poolKept (h : Kept n s) : PoolKept n s := by
  have hids : (s.outstanding.map CnFrame.bufId).Nodup := (List.nodup_append.mp h.nodup).2.1
  have hrange : ∀ id ∈ s.outstanding.map CnFrame.bufId, n ≤ id ∧ id < n + n := fun id hid =>
    h.inRange id (List.mem_append_right _ hid)
  have hsub : s.outstanding.map CnFrame.bufId ⊆ (List.range n).map (n + ·) := by
    intro id hid
    have hr := hrange id hid
    exact List.mem_map.mpr ⟨id - n, List.mem_range.mpr (by omega), by omega⟩
  exact
    { preallocated := fun f hf => by
        have hr := hrange f.bufId (List.mem_map_of_mem hf)
        exact ⟨f.bufId - n, by omega, h.ptr f hf⟩
      distinct := by
        have hmap : s.outstanding.map CnFrame.ptr
            = (s.outstanding.map CnFrame.bufId).map fun id => some (id - n) := by
          rw [List.map_map]
          exact List.map_congr_left h.ptr
        rw [hmap]
        refine hids.map_on fun i hi j hj hij => ?_
        have hi := hrange i hi
        have hj := hrange j hj
        have hij := Option.some.inj hij
        omega
      poolMap := h.poolMap
      bounded := by
        have hle := (hids.subperm hsub).length_le
        rwa [List.length_map, List.length_map, List.length_range] at hle }

end Kept

theorem reachable_kept (h : Reachable (· = create n) (System.StepWhere next FindsBuffer) s) :
    Kept n s := by
  refine Reachable.invariant (I := Kept n) ?_ ?_ h
  · rintro s rfl
    exact .create
  · rintro s t hs ⟨l, hc, hn⟩
    exact hs.next hn hc

/-- With nothing to pop, the pool may gain an entry. -/
theorem decode_grows (h : s.memoryPoolMap = (create n).memoryPoolMap) (hids : s.memoryIds = [])
    (copied : Bool) : (s.decode (n + n) copied).memoryPoolMap ≠ (create n).memoryPoolMap := by
  have hlookup := h ▸ lookup_create_eq_none (n := n) (Nat.le_refl (n + n))
  have hmap : (s.decode (n + n) copied).memoryPoolMap = (n + n, none) :: s.memoryPoolMap := by
    unfold decode tryPop
    rw [hids]
    simp only [poolEntry, hlookup]
    cases copied <;> rfl
  rw [hmap, h]
  exact List.cons_ne_self _ _

/--
**In a run in which every picture finds a buffer, each frame has one of the pool to itself, and the
pool stays as it is; the next picture keeps this, whatever the memory holds, exactly when there is a
buffer for it, and a release always does.**
-/
theorem pool_kept (h : Reachable (· = create n) (System.StepWhere next FindsBuffer) s) :
    PoolKept n s ∧
      ((∀ garbage copied, PoolKept n (s.decode garbage copied)) ↔ s.memoryIds ≠ []) ∧
      ∀ bufId t, s.next (.releaseBuffer bufId) = some t → PoolKept n t := by
  have hs := reachable_kept h
  refine ⟨hs.poolKept, ⟨fun hd hids => ?_, fun hne _ _ => (hs.decode hne).poolKept⟩,
    fun _ _ hn => (hs.next hn trivial).poolKept⟩
  exact decode_grows hs.poolMap hids true (hd (n + n) true).poolMap

theorem pool_kept_sample :
    ∃ s, System.run next (create 2)
      [.decode 0 true, .decode 0 true, .releaseBuffer 2, .decode 0 true] = some s ∧
      s.outstanding = [⟨2, some 0⟩, ⟨3, some 1⟩] ∧ PoolKept 2 s ∧
      ((∀ garbage copied, PoolKept 2 (s.decode garbage copied)) ↔ s.memoryIds ≠ []) ∧
      ∀ bufId t, s.next (.releaseBuffer bufId) = some t → PoolKept 2 t := by
  have hm : System.Meets next FindsBuffer (create 2)
      [.decode 0 true, .decode 0 true, .releaseBuffer 2, .decode 0 true] :=
    ⟨List.cons_ne_nil _ _, List.cons_ne_nil _ _, trivial, List.cons_ne_nil _ _, trivial⟩
  exact ⟨_, rfl, rfl, pool_kept (System.reachable_of_meets (Reachable.of_init rfl) rfl hm)⟩

/--
With one buffer, which is out, the next picture takes the same one, or a null one that the pool gains,
as the memory has it.
-/
theorem pool_exhausted :
    (∃ s, System.run next (create 1) [.decode 0 true, .decode 1 true] = some s ∧
      s.outstanding = [⟨1, some 0⟩, ⟨1, some 0⟩]) ∧
    ∃ s, System.run next (create 1) [.decode 0 true, .decode 7 true] = some s ∧
      s.outstanding = [⟨7, none⟩, ⟨1, some 0⟩] ∧ s.memoryPoolMap = [(7, none), (1, some 0)] :=
  ⟨⟨_, rfl, rfl⟩, _, rfl, rfl, rfl⟩

end CambriconGst.Easycodec.ProgressiveJpeg
