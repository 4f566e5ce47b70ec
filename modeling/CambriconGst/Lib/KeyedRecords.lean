import Mathlib.Algebra.Group.Nat.Defs
import Mathlib.Data.List.Induction
import Mathlib.Logic.Function.Basic

/-!
# Records under keys of a wrapping counter

A record is put under the next key of a counter of `w` bits, and taken by its key. What a map of
such records holds is a matter of the operations made on it.

* `records_of_first_take`: the record of a key is the last one issued, while it is not taken and
  fewer than `2 ^ w` keys are issued after it
* `Timely.fresh`: when no record waits for `2 ^ w` keys, no key is issued while it holds a record
* `Timely.issue_take`: a record issued and taken again leaves the map to the other operations
-/

namespace CambriconGst.Lib.KeyedRecords

variable {w : Nat} {α : Type*}

inductive Op (w : Nat) (α : Type*) where
  | issue (key : BitVec w) (a : α)
  | take (key : BitVec w)

def Op.key : Op w α → BitVec w
  | .issue key _ => key
  | .take key => key

/-- What an operation does to the map. -/
def Op.apply (m : BitVec w → Option α) : Op w α → BitVec w → Option α
  | .issue key a => Function.update m key (some a)
  | .take key => Function.update m key none

/-- The map after operations, from `m`. -/
def after (m : BitVec w → Option α) (ops : List (Op w α)) : BitVec w → Option α :=
  ops.foldl Op.apply m

/-- How many keys are issued. -/
def issues : List (Op w α) → Nat
  | [] => 0
  | .issue _ _ :: ops => issues ops + 1
  | .take _ :: ops => issues ops

/-- The keys are those of a counter that has issued `n` of them before. -/
def NumberedFrom : Nat → List (Op w α) → Prop
  | _, [] => True
  | n, .issue key _ :: ops => key = BitVec.ofNat w n ∧ NumberedFrom (n + 1) ops
  | n, .take _ :: ops => NumberedFrom n ops

/-- Fewer than `2 ^ w` keys are issued between a record and the first taking of its key. -/
def Timely (ops : List (Op w α)) : Prop :=
  ∀ pre key a mid post, ops = pre ++ .issue key a :: (mid ++ .take key :: post) →
    (∀ op ∈ mid, op ≠ .take key) → issues mid < 2 ^ w

variable {m : BitVec w → Option α} {ops mid : List (Op w α)} {key : BitVec w} {a : α}

@[simp]
theorem after_nil : after m ([] : List (Op w α)) = m :=
  rfl

@[simp]
theorem after_cons {op : Op w α} : after m (op :: ops) = after (op.apply m) ops :=
  rfl

theorem after_append {xs ys : List (Op w α)} : after m (xs ++ ys) = after (after m xs) ys :=
  List.foldl_append

theorem issues_append {xs ys : List (Op w α)} : issues (xs ++ ys) = issues xs + issues ys := by
  induction xs with
  | nil => simp [issues]
  | cons op xs ih =>
    cases op with
    | issue key a =>
      simp only [List.cons_append, issues, ih]
      omega
    | take key => exact ih

theorem numberedFrom_append {n : Nat} {xs ys : List (Op w α)} :
    NumberedFrom n (xs ++ ys) ↔ NumberedFrom n xs ∧ NumberedFrom (n + issues xs) ys := by
  induction xs generalizing n with
  | nil => simp [NumberedFrom, issues]
  | cons op xs ih =>
    cases op with
    | issue key a =>
      simp only [List.cons_append, NumberedFrom, issues, ih, and_assoc]
      rw [Nat.add_right_comm n 1, Nat.add_assoc n]
    | take key => simpa only [List.cons_append, NumberedFrom, issues] using ih

/-! ## One key -/

theorem apply_of_ne {op : Op w α} (h : op.key ≠ key) : op.apply m key = m key := by
  cases op with
  | issue k b => exact Function.update_of_ne (Ne.symm h) _ _
  | take k => exact Function.update_of_ne (Ne.symm h) _ _

/-- Operations on other keys leave a key alone. -/
theorem after_of_forall_ne (h : ∀ op ∈ ops, op.key ≠ key) : after m ops key = m key := by
  induction ops generalizing m with
  | nil => rfl
  | cons op ops ih =>
    rw [after_cons, ih fun o ho => h o (List.mem_cons_of_mem _ ho),
      apply_of_ne (h op List.mem_cons_self)]

/-- A key without a record gets one only when it is issued. -/
theorem after_eq_none (hm : m key = none) (h : ∀ b, .issue key b ∉ ops) :
    after m ops key = none := by
  induction ops generalizing m with
  | nil => exact hm
  | cons op ops ih =>
    refine ih ?_ fun b hb => h b (List.mem_cons_of_mem _ hb)
    by_cases hk : op.key = key
    · cases op with
      | issue k b =>
        obtain rfl : k = key := hk
        exact absurd List.mem_cons_self (h b)
      | take k =>
        obtain rfl : k = key := hk
        exact Function.update_self k none m
    · rw [apply_of_ne hk, hm]

/-- A key agrees after operations on maps that agree at it. -/
theorem after_congr {m' : BitVec w → Option α} (h : m key = m' key) :
    after m ops key = after m' ops key := by
  induction ops generalizing m m' with
  | nil => exact h
  | cons op ops ih =>
    refine ih ?_
    by_cases hk : op.key = key
    · cases op with
      | issue k b =>
        obtain rfl : k = key := hk
        simp [Op.apply]
      | take k =>
        obtain rfl : k = key := hk
        simp [Op.apply]
    · rw [apply_of_ne hk, apply_of_ne hk, h]

/-- Issuing a key and taking it matters to no other key. -/
theorem after_issue_take_of_ne {k : BitVec w} (hk : k ≠ key) :
    after m (.issue key a :: (ops ++ [.take key])) k = after m ops k := by
  have hissue : (Op.issue key a).apply m k = m k := Function.update_of_ne hk _ _
  have htake : ∀ m' : BitVec w → Option α, after m' [.take key] k = m' k := fun m' =>
    Function.update_of_ne hk _ _
  rw [after_cons, after_append, htake]
  exact after_congr hissue

/-- A record is the last one issued under its key, and no operation on the key came after it. -/
theorem exists_issue (h : after (fun _ => none) ops key = some a) :
    ∃ pre post, ops = pre ++ .issue key a :: post ∧ ∀ op ∈ post, op.key ≠ key := by
  induction ops using List.reverseRecOn with
  | nil => cases h
  | append_singleton ops op ih =>
    have happ : op.apply (after (fun _ => none) ops) key = some a := by
      rw [after_append] at h
      exact h
    by_cases hk : op.key = key
    · cases op with
      | issue k b =>
        obtain rfl : k = key := hk
        obtain rfl : b = a := by simpa [Op.apply] using happ
        exact ⟨ops, [], rfl, fun o ho => absurd ho List.not_mem_nil⟩
      | take k =>
        obtain rfl : k = key := hk
        simp [Op.apply] at happ
    · rw [apply_of_ne hk] at happ
      obtain ⟨pre, post, rfl, hpost⟩ := ih happ
      refine ⟨pre, post ++ [op], by simp, fun o ho => ?_⟩
      rcases List.mem_append.mp ho with ho | ho
      · exact hpost o ho
      · exact List.mem_singleton.mp ho ▸ hk

/-- The key has a record: it was issued with it, and no operation on the key came after that. -/
def Live (ops : List (Op w α)) (key : BitVec w) (a : α) : Prop :=
  ∃ pre post, ops = pre ++ .issue key a :: post ∧ ∀ op ∈ post, op.key ≠ key

theorem after_eq_some_iff : after (fun _ => none) ops key = some a ↔ Live ops key a := by
  constructor
  · exact exists_issue
  · rintro ⟨pre, post, rfl, hpost⟩
    rw [after_append, after_cons, after_of_forall_ne hpost]
    exact Function.update_self _ _ _

/-! ## The counter -/

/-- A key comes back only when the counter has wrapped. -/
theorem not_reissued {n : Nat} (h : NumberedFrom n (.issue key a :: mid))
    (hlt : issues mid < 2 ^ w) : ∀ b, .issue key b ∉ mid := by
  intro b hb
  obtain ⟨xs, ys, rfl⟩ := List.append_of_mem hb
  obtain ⟨hkey, hmid⟩ := h
  obtain ⟨hagain, -⟩ := (numberedFrom_append.mp hmid).2
  have hcount : issues xs + 1 < 2 ^ w := by
    simp only [issues_append, issues] at hlt
    omega
  have hmod : n % 2 ^ w = (n + 1 + issues xs) % 2 ^ w := by
    have hnat := congrArg BitVec.toNat (hkey.symm.trans hagain)
    simpa only [BitVec.toNat_ofNat] using hnat
  have hdvd : 2 ^ w ∣ issues xs + 1 := by
    have hd := Nat.dvd_of_mod_eq_zero (Nat.sub_mod_eq_zero_of_mod_eq hmod.symm)
    rwa [show n + 1 + issues xs - n = issues xs + 1 by omega] at hd
  exact absurd (Nat.le_of_dvd (Nat.succ_pos _) hdvd) (by omega)

/-- **The record of a key until it is taken.** -/
theorem records_of_first_take {n : Nat} (h : NumberedFrom n (.issue key a :: mid))
    (hlt : issues mid < 2 ^ w) (htake : ∀ op ∈ mid, op ≠ .take key) :
    after m (.issue key a :: mid) key = some a := by
  rw [after_cons, after_of_forall_ne fun op hop hk => ?_]
  · exact Function.update_self _ _ _
  · cases op with
    | issue k b =>
      obtain rfl : k = key := hk
      exact not_reissued h hlt b hop
    | take k =>
      obtain rfl : k = key := hk
      exact htake _ hop rfl

/-- The first taking of a key in operations that take it. -/
theorem exists_first_take (h : .take key ∈ ops) :
    ∃ pre post, ops = pre ++ .take key :: post ∧ ∀ op ∈ pre, op ≠ .take key := by
  induction ops with
  | nil => exact absurd h List.not_mem_nil
  | cons op ops ih =>
    by_cases hop : op = .take key
    · exact ⟨[], ops, by rw [hop]; rfl, fun o ho => absurd ho List.not_mem_nil⟩
    · obtain ⟨pre, post, rfl, hpre⟩ := ih ((List.mem_cons.mp h).resolve_left (Ne.symm hop))
      refine ⟨op :: pre, post, rfl, fun o ho => ?_⟩
      rcases List.mem_cons.mp ho with rfl | ho
      · exact hop
      · exact hpre o ho

theorem timely_of_issues_lt (h : issues ops < 2 ^ w) : Timely ops := by
  rintro pre key a mid post rfl -
  simp only [issues_append, issues] at h
  omega

namespace Timely

variable {pre : List (Op w α)}

/-- A key that is issued, and taken later, holds no record when it is issued. -/
theorem fresh (ht : Timely (pre ++ .issue key a :: (mid ++ [.take key])))
    (hn : NumberedFrom 0 (pre ++ .issue key a :: (mid ++ [.take key]))) :
    after (fun _ => none) pre key = none := by
  cases hb : after (fun _ => none) pre key with
  | none => rfl
  | some b =>
    -- the record has waited since `xs`, for as many keys as it takes to come back to its own
    obtain ⟨xs, ys, rfl, hys⟩ := exists_issue hb
    have htaken : .take key ∈ mid ++ [.take key] := List.mem_append_right _ List.mem_cons_self
    obtain ⟨us, vs, hsplit, hus⟩ := exists_first_take htaken
    have hwait : issues (ys ++ .issue key a :: us) < 2 ^ w := by
      refine ht xs key b (ys ++ .issue key a :: us) vs ?_ fun op hop => ?_
      · rw [hsplit]
        simp
      · rcases List.mem_append.mp hop with hop | hop
        · exact fun he => hys op hop (by rw [he]; rfl)
        · rcases List.mem_cons.mp hop with rfl | hop
          · exact fun he => nomatch he
          · exact hus op hop
    have hagain : NumberedFrom (0 + issues xs) (.issue key b :: (ys ++ .issue key a :: us)) := by
      rw [hsplit] at hn
      have hn' : NumberedFrom 0
          (xs ++ (.issue key b :: (ys ++ .issue key a :: us) ++ .take key :: vs)) := by
        simpa using hn
      exact (numberedFrom_append.mp (numberedFrom_append.mp hn').2).1
    exact absurd (List.mem_append_right _ List.mem_cons_self) (not_reissued hagain hwait a)

/-- **A record issued and taken again leaves the other operations' map.** -/
theorem issue_take (ht : Timely (pre ++ .issue key a :: (mid ++ [.take key])))
    (hn : NumberedFrom 0 (pre ++ .issue key a :: (mid ++ [.take key])))
    (hlt : issues mid < 2 ^ w) :
    after (fun _ => none) (pre ++ .issue key a :: (mid ++ [.take key])) =
      after (after (fun _ => none) pre) mid := by
  funext k
  rw [after_append]
  by_cases hk : k = key
  · subst hk
    have hmid : NumberedFrom (0 + issues pre) (.issue k a :: mid) := by
      have hn' := (numberedFrom_append.mp hn).2
      rw [← List.cons_append] at hn'
      exact (numberedFrom_append.mp hn').1
    rw [after_cons, after_append, after_eq_none (fresh ht hn) (not_reissued hmid hlt)]
    exact Function.update_self _ _ _
  · exact after_issue_take_of_ne hk

end Timely

end CambriconGst.Lib.KeyedRecords
