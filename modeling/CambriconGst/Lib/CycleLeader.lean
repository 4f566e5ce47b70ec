import Mathlib.Dynamics.PeriodicPts.Lemmas
import Mathlib.GroupTheory.Perm.Cycle.Basic

/-!
# Permuting an array in place by its cycles

Each cycle is moved once, when the loop meets its least index: `seek` walks the cycle from an
index until it is back or below it, `rotate` moves the cycle of an index along. `permute_spec`: the
array is the old one read through the inverse permutation.

`next` and `prev` are the permutation and its inverse; walks carry fuel.
-/

namespace CambriconGst.Lib.CycleLeader

variable {ι α : Type*} [LinearOrder ι]

/-- Walk on while above `i`. -/
def seek (next : ι → ι) (i : ι) : Nat → ι → Option ι
  | 0, _ => none
  | fuel + 1, x => if i < x then seek next i fuel (next x) else some x

/-- Pull each element of the cycle from its predecessor, ending with the one saved from `i`. -/
def rotate (prev : ι → ι) (i : ι) (temp : α) : Nat → ι → (ι → α) → Option (ι → α)
  | 0, _, _ => none
  | fuel + 1, cur, a =>
    if prev cur = i then some (Function.update a cur temp)
    else rotate prev i temp fuel (prev cur) (Function.update a cur (a (prev cur)))

/-- One index of the loop. -/
def visit (next prev : ι → ι) (fuel : Nat) (a : ι → α) (i : ι) : Option (ι → α) :=
  (seek next i fuel (next i)).bind fun x =>
    if x = i then rotate prev i (a i) fuel i a else some a

def permute (next prev : ι → ι) (fuel : Nat) (is : List ι) (a : ι → α) : Option (ι → α) :=
  is.foldlM (visit next prev fuel) a

/-- One index of the loop, with the indices whose cycles have been moved. -/
def visitLogged (next prev : ι → ι) (fuel : Nat) (s : (ι → α) × List ι) (i : ι) :
    Option ((ι → α) × List ι) :=
  (seek next i fuel (next i)).bind fun x =>
    if x = i then (rotate prev i (s.1 i) fuel i s.1).map fun a => (a, s.2 ++ [i]) else some s

/-- The loop, with the indices at which it moves a cycle. -/
def permuteLogged (next prev : ι → ι) (fuel : Nat) (is : List ι) (a : ι → α) :
    Option ((ι → α) × List ι) :=
  is.foldlM (visitLogged next prev fuel) (a, [])

/-! ## Walks -/

section Walks

variable {κ : Type*} {σ : Equiv.Perm κ}

theorem apply_iterate (σ : Equiv.Perm κ) (k : Nat) (i : κ) : σ (σ^[k] i) = σ^[k + 1] i :=
  (Function.iterate_succ_apply' σ k i).symm

theorem sameCycle_iterate (σ : Equiv.Perm κ) (i : κ) (k : Nat) : σ.SameCycle i (σ^[k] i) :=
  ⟨k, by rw [zpow_natCast, Equiv.Perm.iterate_eq_pow]⟩

theorem minimalPeriod_pos [Finite κ] (σ : Equiv.Perm κ) (i : κ) :
    0 < Function.minimalPeriod σ i :=
  Function.minimalPeriod_pos_of_mem_periodicPts (σ.injective.mem_periodicPts i)

/-- A cycle is walked through within its period. -/
theorem exists_iterate_of_sameCycle [Finite κ] {i x : κ} (h : σ.SameCycle i x) :
    ∃ k, k < Function.minimalPeriod σ i ∧ σ^[k] i = x := by
  obtain ⟨k, hk⟩ := h.exists_nat_pow_eq
  refine ⟨k % Function.minimalPeriod σ i, Nat.mod_lt _ (minimalPeriod_pos σ i), ?_⟩
  rw [Function.iterate_mod_minimalPeriod_eq, Equiv.Perm.iterate_eq_pow, hk]

end Walks

/-! ## Leaders -/

/-- `i` is the least index of its cycle. -/
def Leader (σ : Equiv.Perm ι) (i : ι) : Prop := ∀ x, σ.SameCycle i x → i ≤ x

theorem Leader.unique {σ : Equiv.Perm ι} {i j : ι} (hi : Leader σ i) (hj : Leader σ j)
    (h : σ.SameCycle i j) : i = j :=
  le_antisymm (hi j h) (hj i h.symm)

variable [Fintype ι] {σ : Equiv.Perm ι}

/-- Every cycle has a leader. -/
theorem exists_leader (σ : Equiv.Perm ι) (x : ι) : ∃ i, Leader σ i ∧ σ.SameCycle i x := by
  classical
  obtain ⟨i, hi, hmin⟩ := (Finset.univ.filter fun y => σ.SameCycle x y).exists_minimal
    ⟨x, Finset.mem_filter.mpr ⟨Finset.mem_univ x, Equiv.Perm.SameCycle.refl σ x⟩⟩
  have hx : σ.SameCycle x i := (Finset.mem_filter.mp hi).2
  refine ⟨i, fun y hy => ?_, hx.symm⟩
  by_contra hlt
  have := hmin (Finset.mem_filter.mpr ⟨Finset.mem_univ y, hx.trans hy⟩) (not_le.mp hlt).le
  exact hlt this

/-! ## Finding the leader -/

/-- The walk from the `k`-th element, all before it being above `i`. -/
theorem seek_iterate {i : ι} : ∀ (d k fuel : Nat), k + d = Function.minimalPeriod σ i → 0 < k →
    d < fuel → (∀ j, 0 < j → j < k → i < σ^[j] i) →
    ∃ x, seek σ i fuel (σ^[k] i) = some x ∧ (x = i ↔ Leader σ i) := by
  intro d
  induction d with
  | zero =>
    intro k fuel hk _ hf hbefore
    obtain ⟨fuel, rfl⟩ := Nat.exists_eq_succ_of_ne_zero (Nat.ne_of_gt hf)
    have hback : σ^[k] i = i := by
      rw [show k = Function.minimalPeriod σ i by omega, Function.iterate_minimalPeriod]
    refine ⟨i, by rw [seek, hback, if_neg (lt_irrefl i)], iff_of_true rfl fun x hx => ?_⟩
    obtain ⟨j, hj, rfl⟩ := exists_iterate_of_sameCycle hx
    cases j with
    | zero => exact le_refl i
    | succ j => exact (hbefore (j + 1) (Nat.succ_pos j) (by omega)).le
  | succ d ih =>
    intro k fuel hk hpos hf hbefore
    obtain ⟨fuel, rfl⟩ := Nat.exists_eq_succ_of_ne_zero (Nat.ne_of_gt (Nat.zero_lt_of_lt hf))
    rw [seek]
    split
    · next hlt =>
      rw [apply_iterate]
      refine ih (k + 1) fuel (by omega) (Nat.succ_pos k) (by omega) fun j hj hjk => ?_
      rcases Nat.lt_succ_iff_lt_or_eq.mp hjk with h | rfl
      · exact hbefore j hj h
      · exact hlt
    · next hnot =>
      refine ⟨_, rfl, fun he => ?_, fun hl => ?_⟩
      · exact absurd he (Function.not_isPeriodicPt_of_pos_of_lt_minimalPeriod (Nat.ne_of_gt hpos)
          (by omega))
      · exact le_antisymm (not_lt.mp hnot) (hl _ (sameCycle_iterate σ i k))

/-- The walk comes back to `i` exactly when `i` is the leader. -/
theorem seek_spec (i : ι) {fuel : Nat} (hf : Fintype.card ι ≤ fuel) :
    ∃ x, seek σ i fuel (σ i) = some x ∧ (x = i ↔ Leader σ i) := by
  have hp := minimalPeriod_pos σ i
  have hc : Function.minimalPeriod σ i ≤ Fintype.card ι := Function.minimalPeriod_le_card
  exact seek_iterate (Function.minimalPeriod σ i - 1) 1 fuel (by omega) Nat.one_pos (by omega)
    fun j hj hj1 => by omega

/-! ## Moving a cycle -/

/-- The walk after `k` elements have been moved. -/
theorem rotate_iterate {i : ι} {a : ι → α} : ∀ (d k fuel : Nat) (b : ι → α),
    k + d + 1 = Function.minimalPeriod σ.symm i → d < fuel →
    (∀ j, j < k → b (σ.symm^[j] i) = a (σ.symm (σ.symm^[j] i))) →
    (∀ x, (∀ j, j < k → x ≠ σ.symm^[j] i) → b x = a x) →
    ∃ b', rotate σ.symm i (a i) fuel (σ.symm^[k] i) b = some b' ∧
      ∀ x, (σ.SameCycle i x → b' x = a (σ.symm x)) ∧ (¬σ.SameCycle i x → b' x = a x) := by
  have hinj : ∀ {j k : Nat}, j < Function.minimalPeriod σ.symm i →
      k < Function.minimalPeriod σ.symm i → σ.symm^[j] i = σ.symm^[k] i → j = k :=
    fun hj hk he => (Function.iterate_eq_iterate_iff_of_lt_minimalPeriod hj hk).mp he
  intro d
  induction d with
  | zero =>
    intro k fuel b hk hf hdone hrest
    obtain ⟨fuel, rfl⟩ := Nat.exists_eq_succ_of_ne_zero (Nat.ne_of_gt hf)
    have hlast : σ.symm (σ.symm^[k] i) = i := by
      rw [apply_iterate, show k + 1 = Function.minimalPeriod σ.symm i by omega,
        Function.iterate_minimalPeriod]
    refine ⟨_, by rw [rotate, if_pos hlast], fun x => ⟨fun hx => ?_, fun hx => ?_⟩⟩
    · obtain ⟨j, hj, rfl⟩ :=
        exists_iterate_of_sameCycle (σ := σ.symm) (Equiv.Perm.sameCycle_inv.mpr hx)
      by_cases hjk : j = k
      · subst hjk
        rw [Function.update_self, hlast]
      · rw [Function.update_of_ne fun he => hjk (hinj hj (by omega) he)]
        exact hdone j (by omega)
    · have hne : ∀ j, x ≠ σ.symm^[j] i := fun j he =>
        hx (Equiv.Perm.sameCycle_inv.mp (he ▸ sameCycle_iterate σ.symm i j))
      rw [Function.update_of_ne (hne k)]
      exact hrest x fun j _ => hne j
  | succ d ih =>
    intro k fuel b hk hf hdone hrest
    obtain ⟨fuel, rfl⟩ := Nat.exists_eq_succ_of_ne_zero (Nat.ne_of_gt (Nat.zero_lt_of_lt hf))
    have hmore : σ.symm (σ.symm^[k] i) ≠ i := by
      rw [apply_iterate]
      intro he
      have := hinj (j := k + 1) (k := 0) (by omega) (by omega) he
      omega
    rw [rotate, if_neg hmore, apply_iterate]
    refine ih (k + 1) fuel _ (by omega) (by omega) (fun j hj => ?_) (fun x hx => ?_)
    · by_cases hjk : j = k
      · subst hjk
        rw [Function.update_self, ← apply_iterate]
        -- the predecessor has not been written yet
        refine hrest _ fun l hl he => ?_
        rw [apply_iterate] at he
        have := hinj (by omega) (by omega) he
        omega
      · rw [Function.update_of_ne fun he => hjk (hinj (by omega) (by omega) he)]
        exact hdone j (by omega)
    · rw [Function.update_of_ne (hx k (Nat.lt_succ_self k))]
      exact hrest x fun j hj => hx j (Nat.lt_succ_of_lt hj)

theorem rotate_spec (i : ι) (a : ι → α) {fuel : Nat} (hf : Fintype.card ι ≤ fuel) :
    ∃ b, rotate σ.symm i (a i) fuel i a = some b ∧
      ∀ x, (σ.SameCycle i x → b x = a (σ.symm x)) ∧ (¬σ.SameCycle i x → b x = a x) := by
  have hp := minimalPeriod_pos σ.symm i
  have hc : Function.minimalPeriod σ.symm i ≤ Fintype.card ι := Function.minimalPeriod_le_card
  exact rotate_iterate (Function.minimalPeriod σ.symm i - 1) 0 fuel a (by omega) (by omega)
    (fun j hj => absurd hj (Nat.not_lt_zero j)) (fun _ _ => rfl)

/-! ## The whole loop -/

/-- After the indices `is`: the cycles of their leaders are moved, the others untouched. -/
def Moved (σ : Equiv.Perm ι) (is : List ι) (a b : ι → α) : Prop :=
  ∀ x, ((∃ i ∈ is, Leader σ i ∧ σ.SameCycle i x) → b x = a (σ.symm x)) ∧
    ((∀ i ∈ is, Leader σ i → ¬σ.SameCycle i x) → b x = a x)

theorem visit_moved {is : List ι} {i : ι} (hi : i ∉ is) {a b : ι → α} (hm : Moved σ is a b)
    {fuel : Nat} (hf : Fintype.card ι ≤ fuel) :
    ∃ b', visit σ σ.symm fuel b i = some b' ∧ Moved σ (is ++ [i]) a b' := by
  obtain ⟨x, hseek, hlead⟩ := seek_spec (σ := σ) i hf
  by_cases hl : Leader σ i
  · obtain ⟨b', hrot, hb'⟩ := rotate_spec (σ := σ) i b hf
    -- no earlier leader has moved this cycle
    have hfresh : ∀ x, σ.SameCycle i x → ∀ i' ∈ is, Leader σ i' → ¬σ.SameCycle i' x :=
      fun x hx i' hi' hl' hs => hi (hl.unique hl' (hx.trans hs.symm) ▸ hi')
    refine ⟨b', by simp only [visit, hseek, Option.bind_some,
      if_pos (hlead.mpr hl), hrot], fun y => ⟨?_, fun hno => ?_⟩⟩
    · rintro ⟨i', hi', hl', hs⟩
      by_cases hy : σ.SameCycle i y
      · rw [(hb' y).1 hy]
        have hprev : σ.SameCycle i (σ.symm y) := Equiv.Perm.sameCycle_symm_apply_right.mpr hy
        exact (hm _).2 (hfresh _ hprev)
      · rw [(hb' y).2 hy]
        rcases List.mem_append.mp hi' with h | h
        · exact (hm y).1 ⟨i', h, hl', hs⟩
        · obtain rfl := List.mem_singleton.mp h
          exact absurd hs hy
    · rw [(hb' y).2 (hno i (by simp) hl)]
      exact (hm y).2 fun i' hi' => hno i' (List.mem_append_left _ hi')
  · refine ⟨b, by simp only [visit, hseek, Option.bind_some,
      if_neg fun he => hl (hlead.mp he)], fun y => ⟨?_, fun hno => ?_⟩⟩
    · rintro ⟨i', hi', hl', hs⟩
      rcases List.mem_append.mp hi' with h | h
      · exact (hm y).1 ⟨i', h, hl', hs⟩
      · obtain rfl := List.mem_singleton.mp h
        exact absurd hl' hl
    · exact (hm y).2 fun i' hi' => hno i' (List.mem_append_left _ hi')

theorem permute_moved {a : ι → α} {fuel : Nat} (hf : Fintype.card ι ≤ fuel) :
    ∀ (is done : List ι) (b : ι → α), (done ++ is).Nodup → Moved σ done a b →
      ∃ b', permute σ σ.symm fuel is b = some b' ∧ Moved σ (done ++ is) a b' := by
  intro is
  induction is with
  | nil => intro done b _ hm; exact ⟨b, rfl, by rwa [List.append_nil]⟩
  | cons i is ih =>
    intro done b hn hm
    have hi : i ∉ done := fun h =>
      (List.nodup_append.mp hn).2.2 i h i List.mem_cons_self rfl
    obtain ⟨b₁, h₁, hm₁⟩ := visit_moved hi hm hf
    obtain ⟨b₂, h₂, hm₂⟩ := ih (done ++ [i]) b₁ (by rwa [List.append_assoc]) hm₁
    refine ⟨b₂, ?_, by rwa [List.append_assoc] at hm₂⟩
    unfold permute at h₂ ⊢
    rw [List.foldlM_cons, h₁]
    exact h₂

/-- **The loop permutes the array.** -/
theorem permute_spec (σ : Equiv.Perm ι) (a : ι → α) {is : List ι} (hn : is.Nodup)
    (hall : ∀ i, i ∈ is) {fuel : Nat} (hf : Fintype.card ι ≤ fuel) :
    permute σ σ.symm fuel is a = some fun x => a (σ.symm x) := by
  obtain ⟨b, hb, hm⟩ := permute_moved (σ := σ) (a := a) hf is [] a hn
    fun x => ⟨fun ⟨_, h, _⟩ => absurd h List.not_mem_nil, fun _ => rfl⟩
  rw [hb]
  congr 1
  funext x
  obtain ⟨i, hl, hs⟩ := exists_leader σ x
  exact (hm x).1 ⟨i, hall i, hl, hs⟩

/-! ## Where cycles are moved -/

section Logged

variable {next prev : ι → ι} {fuel : Nat}

omit [Fintype ι] in
theorem visitLogged_eq (s : (ι → α) × List ι) (i : ι) :
    visitLogged next prev fuel s i = (visit next prev fuel s.1 i).map fun b =>
      (b, s.2 ++ [i].filter fun i => seek next i fuel (next i) = some i) := by
  unfold visitLogged visit
  cases hseek : seek next i fuel (next i) with
  | none => rfl
  | some x =>
    by_cases hx : x = i
    · subst hx
      simp [hseek]
    · simp [hseek, hx]

omit [Fintype ι] in
theorem foldlM_visitLogged (is : List ι) (s : (ι → α) × List ι) :
    is.foldlM (visitLogged next prev fuel) s = (is.foldlM (visit next prev fuel) s.1).map fun b =>
      (b, s.2 ++ is.filter fun i => seek next i fuel (next i) = some i) := by
  induction is generalizing s with
  | nil => simp
  | cons i is ih =>
    rw [List.foldlM_cons, List.foldlM_cons, visitLogged_eq]
    cases visit next prev fuel s.1 i with
    | none => rfl
    | some b =>
      refine (ih _).trans ?_
      rw [List.append_assoc, ← List.filter_append, List.singleton_append]
      rfl

/-- **The loop moves a cycle at its least index, and nowhere else.** -/
theorem permuteLogged_spec (σ : Equiv.Perm ι) (a : ι → α) {is : List ι} (hn : is.Nodup)
    (hall : ∀ i, i ∈ is) (hf : Fintype.card ι ≤ fuel) :
    ∃ log, permuteLogged σ σ.symm fuel is a = some (fun x => a (σ.symm x), log) ∧ log.Nodup ∧
      ∀ i, i ∈ log ↔ Leader σ i := by
  refine ⟨is.filter fun i => seek σ i fuel (σ i) = some i, ?_, hn.filter _, fun i => ?_⟩
  · have hpermute := permute_spec σ a hn hall hf
    unfold permute at hpermute
    rw [permuteLogged, foldlM_visitLogged, hpermute]
    rfl
  · obtain ⟨x, hseek, hlead⟩ := seek_spec (σ := σ) i hf
    rw [List.mem_filter, hseek]
    simp only [hall i, true_and, decide_eq_true_eq, Option.some.injEq, hlead]

end Logged

end CambriconGst.Lib.CycleLeader
