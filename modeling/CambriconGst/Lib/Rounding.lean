import Mathlib.Data.Int.ConditionallyCompleteOrder
import Mathlib.Data.Int.Log
import Mathlib.Data.Nat.Factorization.Basic
import Mathlib.Data.Rat.Floor
import Mathlib.Tactic.Linarith
import Mathlib.Tactic.NormNum
import Mathlib.Tactic.Positivity

/-!
# Rounding to binary digits

Without a bound on the exponent.

* `roundEven`: to the nearest integer, half way to the even one
* `roundTo`: to the nearest number of `p` significant digits
* `HasDigits`: the numbers that are not rounded; no product has fewer digits than its factors
* `Rounding`: any rounding that keeps the order; `Rounding.nearest` is one
* `SignedRounding`: the same for numbers of either sign
-/

namespace CambriconGst.Lib

/-! ## To an integer -/

def roundEven (q : ℚ) : ℤ :=
  if q - ⌊q⌋ < 1 / 2 then ⌊q⌋
  else if q - ⌊q⌋ > 1 / 2 then ⌊q⌋ + 1
  else ⌊q⌋ + ⌊q⌋ % 2

theorem floor_le_roundEven (q : ℚ) : ⌊q⌋ ≤ roundEven q := by
  unfold roundEven
  split_ifs <;> omega

theorem roundEven_le (q : ℚ) : roundEven q ≤ ⌊q⌋ + 1 := by
  unfold roundEven
  split_ifs <;> omega

@[simp]
theorem roundEven_intCast (k : ℤ) : roundEven k = k := by
  unfold roundEven
  rw [if_pos (by norm_num), Int.floor_intCast]

theorem roundEven_mono : Monotone roundEven := by
  intro x y hle
  rcases (Int.floor_mono hle).lt_or_eq with hlt | heq
  · exact (roundEven_le x).trans ((Int.add_one_le_of_lt hlt).trans (floor_le_roundEven y))
  -- between the same integers, the larger number has the larger fraction
  · have hx := Int.emod_two_eq_zero_or_one ⌊y⌋
    unfold roundEven
    rw [heq]
    split_ifs <;> first | omega | (exfalso; linarith)

/-! ## To a number of digits -/

/-- The distance of the numbers with `p` digits, near `q`. -/
def ulp (p : Nat) (q : ℚ) : ℚ :=
  2 ^ (Int.log 2 q + 1 - p)

def roundTo (p : Nat) (q : ℚ) : ℚ :=
  roundEven (q / ulp p q) * ulp p q

section RoundTo

variable {p : Nat} {q x y : ℚ}

theorem ulp_pos (p : Nat) (q : ℚ) : 0 < ulp p q :=
  zpow_pos (by norm_num) _

@[simp]
theorem roundTo_zero (p : Nat) : roundTo p 0 = 0 := by
  have hzero : roundEven 0 = 0 := roundEven_intCast 0
  rw [roundTo, zero_div, hzero, Int.cast_zero, zero_mul]

theorem ulp_mul (p : Nat) (q : ℚ) : ulp p q * 2 ^ p = 2 ^ (Int.log 2 q + 1) := by
  rw [ulp, ← zpow_natCast, ← zpow_add₀ (by norm_num), sub_add_cancel]

theorem lt_ulp_mul (p : Nat) (q : ℚ) : q < ulp p q * 2 ^ p := by
  rw [ulp_mul]
  exact Int.lt_zpow_succ_log_self (by norm_num) q

theorem ulp_mul_le (hq : 0 < q) : ulp p q * 2 ^ p ≤ 2 * q := by
  have hle := Int.zpow_log_le_self (b := 2) (by norm_num) hq
  rw [ulp_mul, zpow_add_one₀ (by norm_num), mul_comm]
  exact mul_le_mul_of_nonneg_left hle (by norm_num)

theorem roundEven_div_ulp_le (p : Nat) (q : ℚ) : roundEven (q / ulp p q) ≤ 2 ^ p := by
  have hdiv : q / ulp p q ≤ ((2 ^ p : ℤ) : ℚ) := by
    rw [div_le_iff₀ (ulp_pos p q), mul_comm]
    exact_mod_cast (lt_ulp_mul p q).le
  have hle := roundEven_mono hdiv
  rwa [roundEven_intCast] at hle

/-- No number is rounded beyond the next power of two. -/
theorem roundTo_le_ulp_mul (p : Nat) (q : ℚ) : roundTo p q ≤ ulp p q * 2 ^ p := by
  have hle := roundEven_div_ulp_le p q
  unfold roundTo
  rw [mul_comm]
  exact mul_le_mul_of_nonneg_left (by exact_mod_cast hle) (ulp_pos p q).le

/-- Nor beyond the one before. -/
theorem ulp_mul_le_roundTo (hp : 1 ≤ p) (hq : 0 < q) : ulp p q * 2 ^ p ≤ 2 * roundTo p q := by
  obtain ⟨n, rfl⟩ := Nat.exists_eq_add_of_le' hp
  have hpos := ulp_pos (n + 1) q
  have hdiv : ((2 ^ n : ℤ) : ℚ) ≤ q / ulp (n + 1) q := by
    have hle := ulp_mul_le (p := n + 1) hq
    rw [le_div_iff₀ hpos]
    push_cast
    rw [pow_succ] at hle
    linarith
  have hle := roundEven_mono hdiv
  rw [roundEven_intCast] at hle
  have hcast : (2 ^ n : ℚ) ≤ roundEven (q / ulp (n + 1) q) := by exact_mod_cast hle
  calc ulp (n + 1) q * 2 ^ (n + 1) = 2 * (2 ^ n * ulp (n + 1) q) := by ring
    _ ≤ 2 * roundTo (n + 1) q := by
      exact mul_le_mul_of_nonneg_left (mul_le_mul_of_nonneg_right hcast hpos.le) (by norm_num)

theorem roundTo_nonneg (hp : 1 ≤ p) (hq : 0 ≤ q) : 0 ≤ roundTo p q := by
  rcases hq.eq_or_lt with rfl | hq
  · rw [roundTo_zero]
  · have hle := ulp_mul_le_roundTo hp hq
    have hpos : 0 < ulp p q * 2 ^ p := mul_pos (ulp_pos p q) (by positivity)
    linarith

theorem roundTo_mono (hp : 1 ≤ p) (hx : 0 ≤ x) (hle : x ≤ y) : roundTo p x ≤ roundTo p y := by
  rcases hx.eq_or_lt with rfl | hx
  · rw [roundTo_zero]
    exact roundTo_nonneg hp hle
  rcases (Int.log_mono_right hx hle : Int.log 2 x ≤ Int.log 2 y).eq_or_lt with heq | hlt
  · have hulp : ulp p x = ulp p y := by rw [ulp, ulp, heq]
    have hpos := ulp_pos p y
    have hround := roundEven_mono (div_le_div_of_nonneg_right hle hpos.le)
    unfold roundTo
    rw [hulp]
    exact mul_le_mul_of_nonneg_right (by exact_mod_cast hround) hpos.le
  -- a power of two lies between the two, and neither is rounded beyond it
  · have hbound := roundTo_le_ulp_mul p x
    have hbound' := ulp_mul_le_roundTo hp (hx.trans_le hle)
    have hpow : (2 : ℚ) ^ (Int.log 2 x + 1) ≤ 2 ^ Int.log 2 y :=
      zpow_le_zpow_right₀ (by norm_num) hlt
    rw [ulp_mul] at hbound hbound'
    rw [zpow_add_one₀ (by norm_num)] at hbound'
    linarith

/-- What is lost is less than one part in `2 ^ (p - 1)`. -/
theorem sub_le_roundTo (p : Nat) (hq : 0 < q) : (q - roundTo p q) * 2 ^ p ≤ 2 * q := by
  have hpos := ulp_pos p q
  have hfloor : q / ulp p q - 1 ≤ roundEven (q / ulp p q) := by
    have hlt := Int.sub_one_lt_floor (q / ulp p q)
    have hle : ((⌊q / ulp p q⌋ : ℤ) : ℚ) ≤ roundEven (q / ulp p q) :=
      Int.cast_le.mpr (floor_le_roundEven _)
    linarith
  have hmul := mul_le_mul_of_nonneg_right hfloor hpos.le
  have hcancel : (q / ulp p q - 1) * ulp p q = q - ulp p q := by
    rw [sub_mul, div_mul_cancel₀ _ hpos.ne', one_mul]
  have hlost : q - roundTo p q ≤ ulp p q := by
    unfold roundTo
    linarith
  calc (q - roundTo p q) * 2 ^ p ≤ ulp p q * 2 ^ p :=
        mul_le_mul_of_nonneg_right hlost (by positivity)
    _ ≤ 2 * q := ulp_mul_le hq

/-- Nor is what is gained more. -/
theorem abs_roundTo_sub_le (p : Nat) (hq : 0 ≤ q) : |roundTo p q - q| * 2 ^ p ≤ 2 * q := by
  rcases hq.eq_or_lt with rfl | hq
  · simp
  have hpos := ulp_pos p q
  have hceil : roundEven (q / ulp p q) ≤ q / ulp p q + 1 := by
    have hle : (roundEven (q / ulp p q) : ℚ) ≤ ((⌊q / ulp p q⌋ + 1 : ℤ) : ℚ) :=
      Int.cast_le.mpr (roundEven_le _)
    have hfloor := Int.floor_le (q / ulp p q)
    push_cast at hle
    linarith
  have hmul := mul_le_mul_of_nonneg_right hceil hpos.le
  have hcancel : (q / ulp p q + 1) * ulp p q = q + ulp p q := by
    rw [add_mul, div_mul_cancel₀ _ hpos.ne', one_mul]
  have hgained : roundTo p q - q ≤ ulp p q := by
    unfold roundTo
    linarith
  have hpow : (0 : ℚ) < 2 ^ p := by positivity
  rcases abs_cases (roundTo p q - q) with ⟨habs, -⟩ | ⟨habs, -⟩
  · rw [habs]
    exact (mul_le_mul_of_nonneg_right hgained hpow.le).trans (ulp_mul_le hq)
  · rw [habs, neg_sub]
    exact sub_le_roundTo p hq

/-! ## Numbers of few digits -/

/-- Numbers of at most `p` digits, wherever the point is. -/
def HasDigits (p : Nat) (q : ℚ) : Prop :=
  ∃ k : ℕ, ∃ e : ℤ, k < 2 ^ p ∧ q = k * 2 ^ e

theorem hasDigits_natCast {n : Nat} (hn : n < 2 ^ p) : HasDigits p (n : ℚ) :=
  ⟨n, 0, hn, by rw [zpow_zero, mul_one]⟩

theorem hasDigits_roundTo (hp : 1 ≤ p) (hq : 0 ≤ q) : HasDigits p (roundTo p q) := by
  rcases hq.eq_or_lt with rfl | hq
  · exact ⟨0, 0, Nat.two_pow_pos p, by rw [roundTo_zero, Nat.cast_zero, zero_mul]⟩
  have hnonneg : 0 ≤ roundEven (q / ulp p q) :=
    (Int.floor_nonneg.mpr (div_nonneg hq.le (ulp_pos p q).le)).trans (floor_le_roundEven _)
  have hle := roundEven_div_ulp_le p q
  obtain ⟨k, hk⟩ := Int.eq_ofNat_of_zero_le hnonneg
  rw [hk] at hle
  have hle : k ≤ 2 ^ p := by exact_mod_cast hle
  have hround : roundTo p q = k * ulp p q := by
    rw [roundTo, hk, Int.cast_natCast]
  rcases hle.eq_or_lt with heq | hlt
  -- the next power of two has a single digit
  · refine ⟨1, Int.log 2 q + 1, Nat.one_lt_two_pow (by omega), ?_⟩
    rw [hround, heq, Nat.cast_one, one_mul, ← ulp_mul p q, mul_comm]
    push_cast
    rfl
  · exact ⟨k, _, hlt, hround⟩

theorem log_mul_zpow {k : ℕ} (hk : 0 < k) (e : ℤ) :
    Int.log 2 ((k : ℚ) * 2 ^ e) = Nat.log 2 k + e := by
  have hpow : (0 : ℚ) < 2 ^ e := zpow_pos (by norm_num) e
  have hq : 0 < (k : ℚ) * 2 ^ e := mul_pos (by exact_mod_cast hk) hpow
  apply le_antisymm
  · have hlt : (k : ℚ) < 2 ^ (Nat.log 2 k + 1) := by
      exact_mod_cast Nat.lt_pow_succ_log_self (by norm_num) k
    refine Int.lt_add_one_iff.mp ((Int.lt_zpow_iff_log_lt (by norm_num) hq).mp ?_)
    have hsplit : ((2 : ℕ) : ℚ) ^ ((Nat.log 2 k : ℤ) + e + 1) = 2 ^ (Nat.log 2 k + 1) * 2 ^ e := by
      rw [← zpow_natCast, ← zpow_add₀ (by norm_num)]
      congr 1
      push_cast
      ring
    rw [hsplit]
    exact mul_lt_mul_of_pos_right hlt hpow
  · have hle : (2 : ℚ) ^ Nat.log 2 k ≤ k := by
      exact_mod_cast Nat.pow_log_le_self 2 hk.ne'
    refine (Int.zpow_le_iff_le_log (by norm_num) hq).mp ?_
    have hsplit : ((2 : ℕ) : ℚ) ^ ((Nat.log 2 k : ℤ) + e) = 2 ^ Nat.log 2 k * 2 ^ e := by
      rw [← zpow_natCast, ← zpow_add₀ (by norm_num)]
      rfl
    rw [hsplit]
    exact mul_le_mul_of_nonneg_right hle hpow.le

/-- They are not rounded. -/
theorem HasDigits.roundTo_eq (h : HasDigits p q) : roundTo p q = q := by
  obtain ⟨k, e, hk, rfl⟩ := h
  rcases Nat.eq_zero_or_pos k with rfl | hpos
  · rw [Nat.cast_zero, zero_mul, roundTo_zero]
  obtain ⟨m, hm⟩ := Nat.exists_eq_add_of_le (Nat.log_lt_of_lt_pow hpos.ne' hk)
  have hulp : ulp p ((k : ℚ) * 2 ^ e) = 2 ^ e * (2 ^ m)⁻¹ := by
    rw [ulp, log_mul_zpow hpos, ← zpow_natCast, ← zpow_neg, ← zpow_add₀ (by norm_num)]
    congr 1
    omega
  have hdiv : (k : ℚ) * 2 ^ e / (2 ^ e * (2 ^ m)⁻¹) = ((k * 2 ^ m : ℕ) : ℤ) := by
    have hne : (2 : ℚ) ^ e ≠ 0 := (zpow_pos (by norm_num) e).ne'
    push_cast
    field_simp
  rw [roundTo, hulp, hdiv, roundEven_intCast, ← hdiv, div_mul_cancel₀]
  have hpow : (0 : ℚ) < 2 ^ e := zpow_pos (by norm_num) e
  positivity

theorem roundTo_natCast {n : Nat} (hn : n < 2 ^ p) : roundTo p (n : ℚ) = n :=
  (hasDigits_natCast hn).roundTo_eq

/-- What is before the point has no more digits. -/
theorem HasDigits.floor (h : HasDigits p q) : HasDigits p (⌊q⌋₊ : ℚ) := by
  obtain ⟨k, e, hk, rfl⟩ := h
  rcases le_or_gt 0 e with he | he
  · obtain ⟨n, rfl⟩ := Int.eq_ofNat_of_zero_le he
    have hnat : (k : ℚ) * 2 ^ (n : ℤ) = ((k * 2 ^ n : ℕ) : ℚ) := by
      rw [zpow_natCast]
      push_cast
      rfl
    rw [hnat, Nat.floor_natCast]
    exact ⟨k, n, hk, hnat.symm⟩
  · refine hasDigits_natCast (lt_of_le_of_lt (Nat.floor_le_of_le ?_) hk)
    have hle : (2 : ℚ) ^ e ≤ 1 := zpow_le_one_of_nonpos₀ (by norm_num) he.le
    exact mul_le_of_le_one_right (Nat.cast_nonneg k) hle

/-- A factor has no more digits than the product. -/
theorem HasDigits.of_mul {c n : Nat} (hc : 0 < c) (h : HasDigits p ((c * n : ℕ) : ℚ)) :
    HasDigits p (n : ℚ) := by
  obtain ⟨k, e, hk, heq⟩ := h
  rcases Nat.eq_zero_or_pos n with rfl | hn
  · exact hasDigits_natCast (Nat.two_pow_pos p)
  have hshift : ∃ a b : ℕ, c * n * 2 ^ a = k * 2 ^ b := by
    rcases le_total 0 e with he | he
    · obtain ⟨b, rfl⟩ := Int.eq_ofNat_of_zero_le he
      rw [zpow_natCast] at heq
      exact ⟨0, b, by rw [pow_zero, mul_one]; exact_mod_cast heq⟩
    · obtain ⟨a, ha⟩ := Int.eq_ofNat_of_zero_le (Int.neg_nonneg.mpr he)
      obtain rfl : e = -(a : ℤ) := by omega
      rw [zpow_neg, zpow_natCast, ← div_eq_mul_inv, eq_div_iff (by positivity)] at heq
      exact ⟨a, 0, by rw [pow_zero, mul_one]; exact_mod_cast heq⟩
  obtain ⟨a, b, hab⟩ := hshift
  -- the odd part of the factor divides the digits of the product
  obtain ⟨t, o, hodd, rfl⟩ := Nat.exists_eq_two_pow_mul_odd hn.ne'
  have hdvd : o ∣ k * 2 ^ b :=
    hab ▸ ((Nat.dvd_mul_left o (2 ^ t)).mul_left c).mul_right (2 ^ a)
  have hcop : Nat.Coprime o (2 ^ b) :=
    (Nat.coprime_two_right.mpr hodd).pow_right b
  have hkpos : 0 < k := by
    refine Nat.pos_of_ne_zero ?_
    rintro rfl
    rw [Nat.zero_mul] at hab
    exact (Nat.mul_pos (Nat.mul_pos hc hn) (Nat.two_pow_pos a)).ne' hab
  refine ⟨o, t, (Nat.le_of_dvd hkpos (hcop.dvd_of_dvd_mul_right hdvd)).trans_lt hk, ?_⟩
  rw [zpow_natCast, mul_comm]
  push_cast
  rfl

/-- Doubling adds no digits. -/
theorem HasDigits.two_pow_mul (b : Nat) (h : HasDigits p q) : HasDigits p (2 ^ b * q) := by
  obtain ⟨k, e, hk, rfl⟩ := h
  refine ⟨k, b + e, hk, ?_⟩
  rw [zpow_add₀ (by norm_num), zpow_natCast, mul_left_comm]

end RoundTo

/-! ## Any rounding -/

/-- A rounding that keeps the order and zero. -/
structure Rounding where
  round : ℚ → ℚ
  zero : round 0 = 0
  mono : ∀ {x y : ℚ}, 0 ≤ x → x ≤ y → round x ≤ round y

namespace Rounding

variable (r : Rounding) {x y : ℚ}

theorem nonneg (hx : 0 ≤ x) : 0 ≤ r.round x := by
  have hle := r.mono (le_refl 0) hx
  rwa [r.zero] at hle

def nearest (p : Nat) (hp : 1 ≤ p) : Rounding where
  round := roundTo p
  zero := roundTo_zero p
  mono := fun hx hle => roundTo_mono hp hx hle

/-- Single precision: 24 digits. -/
def single : Rounding :=
  nearest 24 (Nat.le_add_left 1 23)

end Rounding

/-! ## Numbers of either sign -/

/-- A rounding that keeps the order, the sign and a half. -/
structure SignedRounding where
  round : ℚ → ℚ
  mono : Monotone round
  neg : ∀ q, round (-q) = -round q
  half : round (1 / 2) = 1 / 2

namespace SignedRounding

variable (r : SignedRounding) {q : ℚ}

theorem zero : r.round 0 = 0 := by
  have hneg := r.neg 0
  rw [neg_zero] at hneg
  linarith

theorem nonneg (hq : 0 ≤ q) : 0 ≤ r.round q :=
  r.zero ▸ r.mono hq

def nearest (p : Nat) (hp : 1 ≤ p) : SignedRounding where
  round q := if q < 0 then -roundTo p (-q) else roundTo p q
  mono := by
    intro x y hle
    dsimp only
    split_ifs with hx hy hy
    · exact neg_le_neg (roundTo_mono hp (by linarith) (neg_le_neg hle))
    · have hx' := roundTo_nonneg hp (q := -x) (by linarith)
      have hy' := roundTo_nonneg hp (not_lt.mp hy)
      linarith
    · exact absurd (hle.trans_lt hy) hx
    · exact roundTo_mono hp (not_lt.mp hx) hle
  neg q := by
    rcases lt_trichotomy q 0 with hq | rfl | hq
    · rw [if_neg (by linarith), if_pos hq, neg_neg]
    · simp
    · rw [if_pos (by linarith), if_neg (by linarith), neg_neg]
  half := by
    have hhalf : HasDigits p (1 / 2) := ⟨1, -1, Nat.one_lt_two_pow (by omega), by norm_num⟩
    rw [if_neg (by norm_num), hhalf.roundTo_eq]

theorem nearest_of_nonneg {p : Nat} {hp : 1 ≤ p} (hq : 0 ≤ q) : (nearest p hp).round q = roundTo p q :=
  if_neg (not_lt.mpr hq)

/-- Single precision. -/
def single : SignedRounding :=
  nearest 24 (Nat.le_add_left 1 23)

/-- Double precision. -/
def double : SignedRounding :=
  nearest 53 (Nat.le_add_left 1 52)

end SignedRounding

end CambriconGst.Lib
