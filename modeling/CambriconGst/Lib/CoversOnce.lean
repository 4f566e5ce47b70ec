import Mathlib.Data.List.Count
import Mathlib.Data.Nat.Count
import Mathlib.Order.Monotone.Basic
import Mathlib.Tactic.Ring

/-!
# Work that is divided

* `CoversOnce`: a list of pieces that covers the members of a predicate, each by one piece
* `CoversOnce.flatMap`: pieces that are divided again
* `share`: `n` items divided among `k` workers, the first ones of which get one more
* `exists_segment_iff`, `segment_unique`: the segments between the values of a monotone function
* `flatMap_segments_eq_iff`: a list that is put together from segments
* `lt_count_iff`: the numbers from zero on that a predicate holds of
-/

namespace CambriconGst.Lib

variable {α β ι : Type*} {covers : α → β → Prop} [∀ a b, Decidable (covers a b)]
  {l l' : List α} {S S' : β → Prop}

/-- Each member of `S` is covered by one entry of the list, and nothing else is covered. -/
def CoversOnce (covers : α → β → Prop) [∀ a b, Decidable (covers a b)] (l : List α)
    (S : β → Prop) : Prop :=
  ∀ b, (S b → l.countP (fun a => covers a b) = 1) ∧ (¬S b → l.countP (fun a => covers a b) = 0)

namespace CoversOnce

theorem nil : CoversOnce covers [] fun _ => False :=
  fun _ => ⟨False.elim, fun _ => rfl⟩

theorem congr (h : CoversOnce covers l S) (hS : ∀ b, S' b ↔ S b) : CoversOnce covers l S' :=
  fun b => ⟨fun hb => (h b).1 ((hS b).mp hb), fun hb => (h b).2 fun hs => hb ((hS b).mpr hs)⟩

theorem singleton (a : α) : CoversOnce covers [a] (covers a) := by
  intro b
  constructor <;> intro hb <;> simp [hb]

theorem append (h : CoversOnce covers l S) (h' : CoversOnce covers l' S')
    (hdis : ∀ b, S b → ¬S' b) : CoversOnce covers (l ++ l') fun b => S b ∨ S' b := by
  intro b
  rw [List.countP_append]
  constructor
  · rintro (hb | hb)
    · rw [(h b).1 hb, (h' b).2 (hdis b hb)]
    · rw [(h b).2 fun hs => hdis b hs hb, (h' b).1 hb]
  · intro hb
    rw [(h b).2 fun hs => hb (.inl hs), (h' b).2 fun hs => hb (.inr hs)]

/-- Each piece of a list is divided again. -/
theorem flatMap {f : ι → List α} {S : ι → β → Prop} :
    ∀ {xs : List ι}, (∀ x ∈ xs, CoversOnce covers (f x) (S x)) →
      xs.Pairwise (fun x y => ∀ b, S x b → ¬S y b) →
      CoversOnce covers (xs.flatMap f) fun b => ∃ x ∈ xs, S x b
  | [], _, _ => nil.congr fun b => by simp
  | x :: xs, h, hdis => by
    obtain ⟨hx, hxs⟩ := List.pairwise_cons.mp hdis
    have hrest := flatMap (fun y hy => h y (List.mem_cons_of_mem _ hy)) hxs
    rw [List.flatMap_cons]
    refine ((h x List.mem_cons_self).append hrest fun b hb ⟨y, hy, hyb⟩ => hx y hy b hb hyb).congr
      fun b => ?_
    simp only [List.mem_cons, exists_eq_or_imp]

/-- Pieces by number. -/
theorem range_flatMap {f : Nat → List α} {S : Nat → β → Prop} {n : Nat}
    (h : ∀ i < n, CoversOnce covers (f i) (S i))
    (hdis : ∀ i j b, i < n → j < n → S i b → S j b → i = j) :
    CoversOnce covers ((List.range n).flatMap f) fun b => ∃ i < n, S i b := by
  have hpair : (List.range n).Pairwise fun i j => ∀ b, S i b → ¬S j b := by
    refine List.pairwise_lt_range.imp_of_mem fun hi hj hlt b hb hb' => ?_
    exact hlt.ne (hdis _ _ b (List.mem_range.mp hi) (List.mem_range.mp hj) hb hb')
  refine (flatMap (fun i hi => h i (List.mem_range.mp hi)) hpair).congr fun b => ?_
  simp only [List.mem_range]

end CoversOnce

/-! ## Segments -/

theorem exists_segment {s : Nat → Nat} {x : Nat} :
    ∀ {k : Nat}, s 0 ≤ x → x < s k → ∃ i < k, s i ≤ x ∧ x < s (i + 1)
  | 0, hle, hlt => absurd hle (not_le.mpr hlt)
  | k + 1, hle, hlt => by
    rcases Nat.lt_or_ge x (s k) with hx | hx
    · obtain ⟨i, hi, hseg⟩ := exists_segment hle hx
      exact ⟨i, hi.trans (Nat.lt_succ_self k), hseg⟩
    · exact ⟨k, Nat.lt_succ_self k, hx, hlt⟩

theorem segment_unique {s : Nat → Nat} (hs : Monotone s) {i j x : Nat}
    (hi : s i ≤ x ∧ x < s (i + 1)) (hj : s j ≤ x ∧ x < s (j + 1)) : i = j := by
  have hnot {i j : Nat} (hi : x < s (i + 1)) (hj : s j ≤ x) : ¬i < j := fun hlt =>
    absurd (hi.trans_le (hs hlt)) (not_lt.mpr hj)
  have hij := hnot hi.2 hj.1
  have hji := hnot hj.2 hi.1
  omega

/-- The segments of a monotone function from `s 0` up to `s k` hold each number between once. -/
theorem exists_segment_iff {s : Nat → Nat} (hs : Monotone s) {k x : Nat} :
    (∃ i < k, s i ≤ x ∧ x < s (i + 1)) ↔ s 0 ≤ x ∧ x < s k := by
  constructor
  · rintro ⟨i, hi, hle, hlt⟩
    exact ⟨(hs (Nat.zero_le i)).trans hle, hlt.trans_le (hs hi)⟩
  · exact fun ⟨hle, hlt⟩ => exists_segment hle hlt

/-- Stretches one after the other are the whole exactly when each of them is its part. -/
theorem flatMap_segments_eq_iff {s : Nat → Nat} (hs : Monotone s) (hzero : s 0 = 0)
    {f : Nat → Nat → α} {g : Nat → α} {n : Nat} :
    ((List.range n).flatMap fun t => (List.range (s (t + 1) - s t)).map (f t))
        = (List.range (s n)).map g ↔
      ∀ t < n, ∀ j < s (t + 1) - s t, f t j = g (s t + j) := by
  induction n with
  | zero => simp [hzero]
  | succ n ih =>
    have hsplit : s (n + 1) = s n + (s (n + 1) - s n) := (Nat.add_sub_of_le (hs (Nat.le_succ n))).symm
    have hlast : ((List.range (s (n + 1) - s n)).map (f n)
          = (List.range (s (n + 1) - s n)).map fun j => g (s n + j)) ↔
        ∀ j < s (n + 1) - s n, f n j = g (s n + j) := by
      rw [List.map_inj_left]
      simp only [List.mem_range]
    have hrange : (List.range (s (n + 1))).map g = (List.range (s n)).map g ++
        (List.range (s (n + 1) - s n)).map fun j => g (s n + j) := by
      rw [hsplit, List.range_add, List.map_append, List.map_map, Nat.add_sub_cancel_left]
      rfl
    rw [List.range_succ, List.flatMap_append, List.flatMap_singleton, hrange, Nat.forall_lt_succ_right,
      ← ih, ← hlast]
    constructor
    · intro h
      exact List.append_inj' h (by simp)
    · rintro ⟨h, h'⟩
      rw [h, h']

theorem length_flatMap_segments {s : Nat → Nat} (hs : Monotone s) (hzero : s 0 = 0)
    (f : Nat → Nat → α) (n : Nat) :
    ((List.range n).flatMap fun t => (List.range (s (t + 1) - s t)).map (f t)).length = s n := by
  induction n with
  | zero => simp [hzero]
  | succ n ih =>
    rw [List.range_succ, List.flatMap_append, List.flatMap_singleton, List.length_append, ih,
      List.length_map, List.length_range]
    exact Nat.add_sub_of_le (hs (Nat.le_succ n))

/-- A predicate that holds of no number behind one that it fails for. -/
theorem lt_count_iff {p : Nat → Prop} [DecidablePred p] {n x : Nat}
    (h : ∀ i j, i < j → j < n → p j → p i) : x < Nat.count p n ↔ x < n ∧ p x := by
  induction n with
  | zero => simp
  | succ n ih =>
    have ih := ih fun i j hij hj => h i j hij (Nat.lt_succ_of_lt hj)
    rw [Nat.count_succ]
    by_cases hn : p n
    · have hall : Nat.count p n = n :=
        Nat.count_iff_forall.mpr fun i hi => h i n hi (Nat.lt_succ_self n) hn
      rw [if_pos hn, hall]
      refine ⟨fun hx => ⟨hx, ?_⟩, And.left⟩
      rcases Nat.lt_succ_iff_lt_or_eq.mp hx with hx | rfl
      · exact h x n hx (Nat.lt_succ_self n) hn
      · exact hn
    · rw [if_neg hn, Nat.add_zero, ih]
      refine ⟨fun hx => ⟨Nat.lt_succ_of_lt hx.1, hx.2⟩, fun ⟨hx, hp⟩ => ⟨?_, hp⟩⟩
      refine lt_of_le_of_ne (Nat.lt_succ_iff.mp hx) ?_
      rintro rfl
      exact hn hp

/-! ## Shares -/

/-- Where the share of worker `i` starts. -/
def share (n k i : Nat) : Nat :=
  i * (n / k) + min i (n % k)

theorem share_zero (n k : Nat) : share n k 0 = 0 := by
  simp [share]

theorem share_self (n : Nat) {k : Nat} (hk : 0 < k) : share n k k = n := by
  unfold share
  rw [Nat.min_eq_right (Nat.mod_lt n hk).le]
  exact Nat.div_add_mod n k

theorem share_succ (n k i : Nat) :
    share n k (i + 1) = share n k i + (n / k + if i < n % k then 1 else 0) := by
  unfold share
  rw [Nat.succ_mul]
  split <;> omega

theorem share_mono (n k : Nat) : Monotone (share n k) :=
  monotone_nat_of_le_succ fun i => by
    rw [share_succ]
    exact Nat.le_add_right _ _

end CambriconGst.Lib
