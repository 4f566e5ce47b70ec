import CambriconGst.Device.MluTaskQueue
import CambriconGst.Lib.System
import Mathlib.Data.List.Perm.Basic
import Mathlib.Data.List.Nodup

/-!
# Marks of a task queue

Assigning to a `Mark` that holds a slot forgets the slot.

* `MluTaskQueue.marks_kept`: which slots are taken, in runs that do not assign to such a `Mark`
* `MluTaskQueue.slot_forgotten`: what becomes of the slot otherwise
-/

namespace CambriconGst.Device.MluTaskQueue

open Lib

variable {s t : MluTaskQueue} {l : Label}

/-- The index of the slot that an object holds, if it does. -/
def Mark.held (m : Mark) : List Nat :=
  if m.release then [m.idx] else []

/-- The slots that objects hold. -/
def heldIdx (objects : List Mark) : List Nat :=
  objects.flatMap Mark.held

/-- A slot is taken exactly when one object holds it, and no two objects hold the same. -/
structure MarksKept (s : MluTaskQueue) : Prop where
  taken : ∀ i valid, s.marksValid[i]? = some valid →
    (valid = false ↔ (heldIdx s.objects).count i = 1)
  distinct : (heldIdx s.objects).Nodup

def AllHeld (s : MluTaskQueue) : Prop :=
  ∀ i < s.marksValid.length, i ∈ heldIdx s.objects

/-- `PlaceMark` throws. -/
def Throws (s : MluTaskQueue) : Label → Prop
  | .placeMark created placed => (s.placeMark created placed).1 = false
  | _ => False

/-- `PlaceMark` gets as far as placing a notifier. -/
def Places (s : MluTaskQueue) (created : Bool) : Prop :=
  s.findSlot = s.marksValid.length → s.marks ≤ marksMaxNum ∧ created = true

/--
The condition on a step: a notifier that is to be placed is, and no object that holds a slot is
assigned to.
-/
def KeepsMarks (s : MluTaskQueue) : Label → Prop
  | .placeMark created placed => s.Places created → placed = true
  | .moveAssign i _ => ∀ m, s.objects[i]? = some m → m.release = false
  | _ => True

/-! ## The slots that objects hold -/

theorem heldIdx_cons (m : Mark) (objects : List Mark) :
    heldIdx (m :: objects) = m.held ++ heldIdx objects :=
  List.flatMap_cons

/-- What is held when one object is taken out. -/
theorem heldIdx_eraseIdx {objects : List Mark} {i : Nat} (hi : i < objects.length) :
    (objects[i].held ++ heldIdx (objects.eraseIdx i)).Perm (heldIdx objects) := by
  rw [← heldIdx_cons]
  exact (List.getElem_cons_eraseIdx_perm hi).flatMap_right Mark.held

/-- What is held when one object is replaced. -/
theorem heldIdx_set {objects : List Mark} {i : Nat} (hi : i < objects.length) (m : Mark) :
    (heldIdx (objects.set i m) ++ objects[i].held).Perm (m.held ++ heldIdx objects) := by
  have hset : (heldIdx (objects.set i m)).Perm (m.held ++ heldIdx (objects.eraseIdx i)) := by
    rw [← heldIdx_cons]
    exact (List.set_perm_cons_eraseIdx hi m).flatMap_right Mark.held
  refine List.perm_iff_count.mpr fun k => ?_
  have hset := hset.count_eq k
  have herase := (heldIdx_eraseIdx hi).count_eq k
  simp only [List.count_append] at hset herase ⊢
  omega

theorem held_moved (m : Mark) : Mark.held { m with release := false } = [] :=
  rfl

theorem heldIdx_moveConstruct {i : Nat} (hi : i < s.objects.length) :
    (heldIdx (s.moveConstruct i s.objects[i]).objects).Perm (heldIdx s.objects) := by
  have h := heldIdx_set hi { s.objects[i] with release := false }
  rw [held_moved, List.nil_append] at h
  unfold moveConstruct
  rw [heldIdx_cons]
  exact List.perm_append_comm.trans h

/-- What the object held that is assigned to is forgotten. -/
theorem heldIdx_moveAssign {i j : Nat} (hi : i < s.objects.length) (hj : j < s.objects.length) :
    (heldIdx (s.moveAssign i j s.objects[j]).objects ++ s.objects[i].held).Perm
      (heldIdx s.objects) := by
  have hj' : j < (s.objects.set i s.objects[j]).length := by rwa [List.length_set]
  have hset := heldIdx_set hi s.objects[j]
  have hmove := heldIdx_set hj' { s.objects[j] with release := false }
  have hsame : (s.objects.set i s.objects[j])[j] = s.objects[j] := by
    by_cases h : i = j
    · subst h
      exact List.getElem_set_self _
    · exact List.getElem_set_ne h _
  rw [hsame, held_moved, List.nil_append] at hmove
  refine List.perm_iff_count.mpr fun k => ?_
  have hset := hset.count_eq k
  have hmove := hmove.count_eq k
  unfold moveAssign
  simp only [List.count_append] at hset hmove ⊢
  omega

/-! ## Runs -/

/-- What is known between steps that meet the condition. -/
structure Kept (s : MluTaskQueue) : Prop where
  marks : s.marks = s.marksValid.length
  distinct : (heldIdx s.objects).Nodup
  taken : ∀ i, s.marksValid[i]? = some false ↔ i ∈ heldIdx s.objects

namespace Kept

theorem initial : Kept initial where
  marks := rfl
  distinct := List.nodup_nil
  taken := fun i => by
    constructor
    · intro h
      match i, h with
      | 0, h | 1, h => cases h
    · exact nofun

theorem marksKept (h : Kept s) : MarksKept s where
  taken := fun i valid hv => by
    constructor
    · rintro rfl
      exact List.count_eq_one_of_mem h.distinct ((h.taken i).mp hv)
    · intro hc
      have hmem : i ∈ heldIdx s.objects := List.count_pos_iff.mp (by omega)
      have hf := (h.taken i).mpr hmem
      rw [hv] at hf
      exact Option.some.inj hf
  distinct := h.distinct

/-- Objects that hold the same slots in another order. -/
theorem perm (h : Kept s) {objects : List Mark}
    (hp : (heldIdx objects).Perm (heldIdx s.objects)) : Kept { s with objects } where
  marks := h.marks
  distinct := hp.nodup_iff.mpr h.distinct
  taken := fun i => (h.taken i).trans hp.mem_iff.symm

theorem mark (h : Kept s) {idx : Nat} (hidx : s.marksValid[idx]? = some true) :
    Kept (s.mark idx true).2 where
  marks := by
    rw [MluTaskQueue.mark, if_pos rfl, List.length_set]
    exact h.marks
  distinct := by
    rw [MluTaskQueue.mark, if_pos rfl, heldIdx_cons]
    refine List.nodup_cons.mpr ⟨fun hm => ?_, h.distinct⟩
    have hf := (h.taken idx).mpr hm
    rw [hidx] at hf
    cases hf
  taken := fun i => by
    rw [MluTaskQueue.mark, if_pos rfl, heldIdx_cons]
    obtain ⟨hlt, -⟩ := List.getElem?_eq_some_iff.mp hidx
    by_cases hi : idx = i
    · subst hi
      simp [Mark.held, hlt]
    · rw [List.getElem?_set_ne hi, h.taken i]
      simp [Mark.held, Ne.symm hi]

/-- A slot is added, valid. -/
theorem append (h : Kept s) :
    Kept { s with marks := s.marks + 1, marksValid := s.marksValid ++ [true] } where
  marks := by simp [h.marks]
  distinct := h.distinct
  taken := fun i => by
    rw [← h.taken i, List.getElem?_append]
    by_cases hi : i < s.marksValid.length
    · rw [if_pos hi]
    · rw [if_neg hi, List.getElem?_eq_none (Nat.not_lt.mp hi)]
      refine iff_of_false (fun hf => ?_) nofun
      cases List.mem_singleton.mp (List.mem_of_getElem? hf)

theorem destroy (h : Kept s) {i : Nat} (hi : i < s.objects.length) :
    Kept (s.destroy i s.objects[i]) := by
  have hheld := heldIdx_eraseIdx hi
  have hnodup := hheld.nodup_iff.mpr h.distinct
  by_cases hr : s.objects[i].release = true
  · have hone : s.objects[i].held = [s.objects[i].idx] := if_pos hr
    rw [hone, List.singleton_append] at hheld hnodup
    obtain ⟨hnot, hrest⟩ := List.nodup_cons.mp hnodup
    have htaken := (h.taken s.objects[i].idx).mpr (hheld.mem_iff.mp List.mem_cons_self)
    obtain ⟨hlt, -⟩ := List.getElem?_eq_some_iff.mp htaken
    unfold MluTaskQueue.destroy
    rw [if_pos hr]
    refine ⟨by rw [List.length_set]; exact h.marks, hrest, fun k => ?_⟩
    by_cases hk : s.objects[i].idx = k
    · subst hk
      refine iff_of_false (fun hf => ?_) hnot
      rw [List.getElem?_set_self hlt] at hf
      cases hf
    · rw [List.getElem?_set_ne hk, h.taken k, ← hheld.mem_iff, List.mem_cons]
      exact or_iff_right (Ne.symm hk)
  · have hnone : s.objects[i].held = [] := if_neg hr
    rw [hnone, List.nil_append] at hheld
    unfold MluTaskQueue.destroy
    rw [if_neg hr]
    exact h.perm hheld

/-! ### Placing a mark -/

/-- Without a valid slot, all of them are held. -/
theorem allHeld (h : Kept s) (hslot : s.findSlot = s.marksValid.length) : s.AllHeld := by
  intro i hi
  have hfalse := List.findIdx_eq_length.mp hslot _ (List.getElem_mem hi)
  exact (h.taken i).mp ((List.getElem?_eq_getElem hi).trans (congrArg some hfalse))

theorem not_allHeld (h : Kept s) {idx : Nat} (hidx : s.marksValid[idx]? = some true) :
    ¬s.AllHeld := by
  obtain ⟨hlt, -⟩ := List.getElem?_eq_some_iff.mp hidx
  intro hall
  have hf := (h.taken idx).mpr (hall idx hlt)
  rw [hidx] at hf
  cases hf

theorem placeMark_of_not_places {created placed : Bool} (h : Kept s) (hp : ¬s.Places created) :
    s.placeMark created placed = (false, s) ∧ s.AllHeld := by
  obtain ⟨hslot, hn⟩ := Classical.not_imp.mp hp
  refine ⟨?_, h.allHeld hslot⟩
  unfold placeMark
  rw [if_pos hslot]
  by_cases hm : s.marks > marksMaxNum
  · rw [if_pos hm]
  · rw [if_neg hm, if_pos (Bool.of_not_eq_true fun hc => hn ⟨Nat.not_lt.mp hm, hc⟩)]

/-- The notifier is placed in a valid slot, found or added. -/
theorem placeMark_of_places {created : Bool} (h : Kept s) (hp : s.Places created) :
    ∃ u, Kept u ∧ u.marksValid[s.findSlot]? = some true ∧
      ∀ placed, s.placeMark created placed = u.mark s.findSlot placed := by
  by_cases hslot : s.findSlot = s.marksValid.length
  · obtain ⟨hm, hc⟩ := hp hslot
    refine ⟨_, h.append, ?_, fun placed => ?_⟩
    · rw [hslot, List.getElem?_append_right (Nat.le_refl _), Nat.sub_self]
      rfl
    · unfold placeMark
      rw [if_pos hslot, if_neg (Nat.not_lt.mpr hm), hc, if_neg nofun]
  · have hlt : s.findSlot < s.marksValid.length :=
      Nat.lt_of_le_of_ne List.findIdx_le_length hslot
    refine ⟨s, h, ?_, fun placed => if_neg hslot⟩
    rw [List.getElem?_eq_getElem hlt]
    exact congrArg some (List.findIdx_getElem (w := hlt))

/-! ### Steps -/

/-- What a step that meets the condition keeps. -/
theorem next (h : Kept s) (hn : s.next l = some t) (hc : s.KeepsMarks l) : Kept t := by
  cases l with
  | placeMark created placed =>
    cases hn
    by_cases hp : s.Places created
    · obtain ⟨u, hu, hslot, hplace⟩ := h.placeMark_of_places hp
      rw [hplace, hc hp]
      exact hu.mark hslot
    · rw [(h.placeMark_of_not_places hp).1]
      exact h
  | moveConstruct i =>
    obtain ⟨m, hm, rfl⟩ := Option.map_eq_some_iff.mp hn
    obtain ⟨hi, rfl⟩ := List.getElem?_eq_some_iff.mp hm
    exact h.perm (heldIdx_moveConstruct hi)
  | moveAssign i j =>
    obtain ⟨hi, hn⟩ := Option.ite_none_right_eq_some.mp hn
    obtain ⟨m, hm, rfl⟩ := Option.map_eq_some_iff.mp hn
    obtain ⟨hj, rfl⟩ := List.getElem?_eq_some_iff.mp hm
    have hnone : s.objects[i].held = [] :=
      if_neg (Bool.not_eq_true _ ▸ hc _ (List.getElem?_eq_getElem hi))
    have hheld := heldIdx_moveAssign hi hj
    rw [hnone, List.append_nil] at hheld
    exact h.perm hheld
  | destroy i =>
    obtain ⟨m, hm, rfl⟩ := Option.map_eq_some_iff.mp hn
    obtain ⟨hi, rfl⟩ := List.getElem?_eq_some_iff.mp hm
    exact h.destroy hi

/-- `PlaceMark` throws only when all slots are held, if it places its notifier. -/
theorem throws (h : Kept s) (hn : s.next l = some t) (hc : s.KeepsMarks l) (ht : s.Throws l) :
    t.AllHeld := by
  cases l with
  | placeMark created placed =>
    cases hn
    by_cases hp : s.Places created
    · obtain ⟨u, hu, hslot, hplace⟩ := h.placeMark_of_places hp
      have hthrow : (s.placeMark created placed).1 = false := ht
      rw [hplace, hc hp] at hthrow
      cases hthrow
    · obtain ⟨hplace, hall⟩ := h.placeMark_of_not_places hp
      rw [hplace]
      exact hall
  | _ => exact ht.elim

/-- An object that holds a slot is assigned to: the slot stays taken, and nobody holds it. -/
theorem not_marksKept_moveAssign (h : Kept s) {i j : Nat} (hi : i < s.objects.length)
    (hj : j < s.objects.length) (hr : s.objects[i].release = true) :
    ¬MarksKept (s.moveAssign i j s.objects[j]) := by
  have hone : s.objects[i].held = [s.objects[i].idx] := if_pos hr
  have hheld := heldIdx_moveAssign hi hj
  rw [hone] at hheld
  have hmem : s.objects[i].idx ∈ heldIdx s.objects :=
    hheld.mem_iff.mp (List.mem_append_right _ List.mem_cons_self)
  intro hk
  have hcount := (hk.taken _ false ((h.taken _).mpr hmem)).mp rfl
  have htotal := hheld.count_eq s.objects[i].idx
  rw [List.count_eq_one_of_mem h.distinct hmem, List.count_append, hcount,
    List.count_singleton_self] at htotal
  omega

/-- What is kept by a step shows that the step met the condition. -/
theorem keepsMarks (h : Kept s) (hn : s.next l = some t) (hk : MarksKept t)
    (ht : s.Throws l → t.AllHeld) : s.KeepsMarks l := by
  cases l with
  | placeMark created placed =>
    cases hn
    intro hp
    obtain ⟨u, hu, hslot, hplace⟩ := h.placeMark_of_places hp
    rw [hplace] at ht
    cases placed with
    | true => rfl
    | false =>
      refine absurd (ht ?_) (hu.not_allHeld hslot)
      exact congrArg Prod.fst (hplace false)
  | moveAssign i j =>
    obtain ⟨hi, hn⟩ := Option.ite_none_right_eq_some.mp hn
    obtain ⟨m, hm, rfl⟩ := Option.map_eq_some_iff.mp hn
    obtain ⟨hj, rfl⟩ := List.getElem?_eq_some_iff.mp hm
    intro m hm
    obtain ⟨-, rfl⟩ := List.getElem?_eq_some_iff.mp hm
    exact Bool.of_not_eq_true fun hr => h.not_marksKept_moveAssign hi hj hr hk
  | _ => trivial

end Kept

theorem reachable_kept (h : Reachable (· = initial) (System.StepWhere next KeepsMarks) s) :
    Kept s := by
  refine Reachable.invariant (I := Kept) ?_ ?_ h
  · rintro s rfl
    exact .initial
  · rintro s t hs ⟨l, hc, hn⟩
    exact hs.next hn hc

/--
**In a run that assigns to no object with a slot, and places every notifier it should, a slot is
taken exactly when one object holds it; the next step keeps this, and throws only when all slots are
held, exactly when it is such a step.**
-/
theorem marks_kept (h : Reachable (· = initial) (System.StepWhere next KeepsMarks) s) :
    MarksKept s ∧ ∀ l t, s.next l = some t →
      (MarksKept t ∧ (s.Throws l → t.AllHeld) ↔ s.KeepsMarks l) := by
  have hs := reachable_kept h
  refine ⟨hs.marksKept, fun l t hn => ⟨fun ht => hs.keepsMarks hn ht.1 ht.2, fun hc => ?_⟩⟩
  exact ⟨(hs.next hn hc).marksKept, hs.throws hn hc⟩

theorem marks_kept_sample :
    ∃ s, System.run next initial
      [.placeMark true true, .placeMark true true, .moveConstruct 0, .moveAssign 1 0,
        .destroy 2] = some s ∧
      s.marksValid = [true, false] ∧ MarksKept s ∧ ∀ l t, s.next l = some t →
        (MarksKept t ∧ (s.Throws l → t.AllHeld) ↔ s.KeepsMarks l) := by
  have hm : System.Meets next KeepsMarks initial
      [.placeMark true true, .placeMark true true, .moveConstruct 0, .moveAssign 1 0,
        .destroy 2] := by
    refine ⟨fun _ => rfl, fun _ => rfl, trivial, ?_, trivial, trivial⟩
    rintro m hm
    cases hm
    rfl
  exact ⟨_, rfl, rfl, marks_kept (System.reachable_of_meets (Reachable.of_init rfl) rfl hm)⟩

/--
Marks are placed and kept in the same variable again and again. In the end there is one object with a
slot, all slots are taken, and no mark can be placed.
-/
theorem slot_forgotten :
    ∃ s, System.run next initial
      (.placeMark true true :: (List.replicate 40 [.placeMark true true, .moveAssign 1 0,
        .destroy 0]).flatten) = some s ∧
      heldIdx s.objects = [40] ∧ s.Throws (.placeMark true true) ∧ ¬MarksKept s := by
  refine ⟨_, rfl, rfl, rfl, fun h => ?_⟩
  exact absurd ((h.taken 0 false rfl).mp rfl) (by decide)

end CambriconGst.Device.MluTaskQueue
