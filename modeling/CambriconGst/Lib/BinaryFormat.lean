import CambriconGst.Lib.Rounding
import Mathlib.Order.Bounds.Basic

/-!
# Binary formats of numbers

A word has a sign bit, an exponent and a mantissa, from the highest bit down. Below its sign bit it
is an integer that grows with the number.

* `mag`: the number of a word without sign, in units of the smallest one; `mag_strictMono`
* `encode`: to the nearest word; `mag_encode` is when that is exact
* `Format.decode`: what a word stands for; `decode_inj`, `isGreatest_of_mag`
* `Format.cut`: a number without the digits that the format has no place for; `isGreatest_cut`
-/

namespace CambriconGst.Lib

/-! ## Words without sign -/

/-- The number of a word without sign, of which the lowest `m` bits are the mantissa. -/
def mag (m u : Nat) : Nat :=
  if u < 2 ^ m then u else (2 ^ m + u % 2 ^ m) * 2 ^ (u / 2 ^ m - 1)

section Mag

variable {m u v q s : Nat}

theorem mag_of_lt (h : u < 2 ^ m) : mag m u = u :=
  if_pos h

/-- With a leading digit `2 ^ m` the rest of the word is the exponent. -/
theorem mag_normal (hle : 2 ^ m ≤ q) (hlt : q < 2 * 2 ^ m) (s : Nat) :
    mag m (s * 2 ^ m + q) = q * 2 ^ s := by
  have hpos : 0 < 2 ^ m := Nat.two_pow_pos m
  obtain ⟨r, rfl⟩ := Nat.exists_eq_add_of_le hle
  have hr : r < 2 ^ m := by omega
  have hword : s * 2 ^ m + (2 ^ m + r) = r + (s + 1) * 2 ^ m := by ring
  have hge : ¬r + (s + 1) * 2 ^ m < 2 ^ m := by
    rw [Nat.succ_mul]
    omega
  rw [hword, mag, if_neg hge, Nat.add_mul_mod_self_right, Nat.mod_eq_of_lt hr,
    Nat.add_mul_div_right _ _ hpos, Nat.div_eq_of_lt hr, Nat.zero_add, Nat.add_sub_cancel]

theorem mag_succ (m u : Nat) : mag m (u + 1) = mag m u + 2 ^ (u / 2 ^ m - 1) := by
  have hpos : 0 < 2 ^ m := Nat.two_pow_pos m
  by_cases hu : u < 2 ^ m
  · rw [mag_of_lt hu, Nat.div_eq_of_lt hu, Nat.zero_sub, pow_zero]
    obtain hlt | hge := (Nat.succ_le_iff.mpr hu).lt_or_eq
    · exact mag_of_lt hlt
    · have hone := mag_normal (Nat.le_refl (2 ^ m)) (by omega) 0
      rwa [Nat.zero_mul, Nat.zero_add, pow_zero, Nat.mul_one, ← hge] at hone
  -- the exponent of `u`, and its digits with the leading one
  obtain ⟨s, hs⟩ : ∃ s, u / 2 ^ m = s + 1 :=
    Nat.exists_eq_succ_of_ne_zero fun h => hu ((Nat.div_eq_zero_iff_lt hpos).mp h)
  have hdigits := Nat.div_add_mod u (2 ^ m)
  have hmod := Nat.mod_lt u hpos
  rw [hs, Nat.mul_comm, Nat.succ_mul] at hdigits
  rw [hs, Nat.add_sub_cancel]
  obtain ⟨q, hq⟩ : ∃ q, q = 2 ^ m + u % 2 ^ m := ⟨_, rfl⟩
  have hu' : u = s * 2 ^ m + q := by omega
  rw [hu', mag_normal (by omega) (by omega)]
  by_cases hcarry : q + 1 < 2 * 2 ^ m
  · rw [Nat.add_assoc, mag_normal (by omega) hcarry, Nat.succ_mul]
  · have hword : s * 2 ^ m + q + 1 = (s + 1) * 2 ^ m + 2 ^ m := by
      rw [Nat.succ_mul]
      omega
    rw [hword, mag_normal (Nat.le_refl _) (by omega), ← Nat.succ_mul, pow_succ]
    have hq' : q + 1 = 2 ^ m * 2 := by omega
    rw [Nat.succ_eq_add_one, hq']
    ring

theorem mag_strictMono (m : Nat) : StrictMono (mag m) := by
  refine strictMono_nat_of_lt_succ fun u => ?_
  rw [mag_succ]
  exact Nat.lt_add_of_pos_right (Nat.two_pow_pos _)

/-- The nearest word, half way the even one. It may be that of infinity or behind. -/
def encode (m n : Nat) : Nat :=
  let s := n.log2 - m
  s * 2 ^ m + (roundEven ((n : ℚ) / 2 ^ s)).toNat

/-- A number without digits behind the mantissa is encoded as it is. -/
theorem mag_encode (hdvd : 2 ^ (u.log2 - m) ∣ u) : mag m (encode m u) = u := by
  obtain ⟨q, hq⟩ := hdvd
  obtain ⟨s, hs⟩ : ∃ s, s = u.log2 - m := ⟨_, rfl⟩
  rw [← hs] at hq
  have hround : roundEven ((u : ℚ) / 2 ^ s) = q := by
    have hdiv : (u : ℚ) / 2 ^ s = ((q : ℤ) : ℚ) := by
      rw [div_eq_iff (by positivity), hq]
      push_cast
      ring
    rw [hdiv, roundEven_intCast]
  have hword : encode m u = s * 2 ^ m + q := by
    simp only [encode, ← hs, hround, Int.toNat_natCast]
  rw [hword]
  obtain rfl | hpos := s.eq_zero_or_pos
  · rw [pow_zero, Nat.one_mul] at hq
    subst hq
    have hlt : u < 2 ^ (m + 1) := by
      obtain rfl | hu := u.eq_zero_or_pos
      · exact Nat.two_pow_pos _
      · exact (Nat.log2_lt hu.ne').mp (by omega)
    rw [pow_succ] at hlt
    by_cases hsub : u < 2 ^ m
    · rw [Nat.zero_mul, Nat.zero_add, mag_of_lt hsub]
    · rw [mag_normal (by omega) (by omega), pow_zero, Nat.mul_one]
  · have hu : u ≠ 0 := by
      rintro rfl
      simp at hs
      omega
    have hlog : u.log2 = s + m := by omega
    have hle : 2 ^ (s + m) ≤ u := hlog ▸ Nat.log2_self_le hu
    have hlt : u < 2 ^ (s + m + 1) := hlog ▸ Nat.lt_log2_self
    rw [pow_add, hq] at hle
    rw [add_assoc, pow_add, hq] at hlt
    have hle' : 2 ^ m ≤ q := Nat.le_of_mul_le_mul_left hle (Nat.two_pow_pos s)
    have hlt' : q < 2 ^ (m + 1) := Nat.lt_of_mul_lt_mul_left hlt
    rw [mag_normal hle' (by rw [pow_succ] at hlt'; omega), hq, Nat.mul_comm]

end Mag

/-! ## Cutting digits off -/

/-- The number without the digits behind the mantissa. -/
def cutDigits (m n : Nat) : Nat :=
  n / 2 ^ (n.log2 - m) * 2 ^ (n.log2 - m)

theorem cutDigits_le (m n : Nat) : cutDigits m n ≤ n :=
  Nat.div_mul_le_self _ _

theorem lt_cutDigits_add (m n : Nat) : n < cutDigits m n + 2 ^ (n.log2 - m) := by
  have hlt := Nat.lt_div_mul_add (a := n) (Nat.two_pow_pos (n.log2 - m))
  exact hlt

/-- What is cut off is below the last digit that is kept. -/
theorem cutDigits_eq_mag (m n : Nat) :
    ∃ u, cutDigits m n = mag m u ∧ n < mag m (u + 1) := by
  obtain ⟨s, hs⟩ : ∃ s, s = n.log2 - m := ⟨_, rfl⟩
  have hlt := lt_cutDigits_add m n
  unfold cutDigits at hlt ⊢
  rw [← hs] at hlt ⊢
  by_cases hsub : n < 2 ^ m
  · have hlog : n.log2 < m ∨ n = 0 := by
      by_cases hn : n = 0
      · exact .inr hn
      · exact .inl ((Nat.log2_lt hn).mpr hsub)
    have hzero : s = 0 := by
      rcases hlog with hlog | rfl
      · omega
      · simpa using hs
    rw [hzero, pow_zero, Nat.div_one, Nat.mul_one]
    refine ⟨n, (mag_of_lt hsub).symm, ?_⟩
    rw [mag_succ, mag_of_lt hsub]
    exact Nat.lt_add_of_pos_right (Nat.two_pow_pos _)
  · have hn : n ≠ 0 := by
      rintro rfl
      exact hsub (Nat.two_pow_pos m)
    have hm : m ≤ n.log2 := (Nat.le_log2 hn).mpr (not_lt.mp hsub)
    have hlog : n.log2 = s + m := by omega
    have hle : 2 ^ m ≤ n / 2 ^ s := by
      rw [Nat.le_div_iff_mul_le (Nat.two_pow_pos s), ← pow_add, Nat.add_comm, ← hlog]
      exact Nat.log2_self_le hn
    have hhigh : n / 2 ^ s < 2 * 2 ^ m := by
      rw [Nat.div_lt_iff_lt_mul (Nat.two_pow_pos s), ← pow_succ', ← pow_add]
      have hlt' := Nat.lt_log2_self (n := n)
      rwa [hlog, show s + m + 1 = m + 1 + s by omega] at hlt'
    refine ⟨s * 2 ^ m + n / 2 ^ s, (mag_normal hle hhigh s).symm, ?_⟩
    have hexp : (s * 2 ^ m + n / 2 ^ s) / 2 ^ m - 1 = s := by
      have hdiv : (s * 2 ^ m + n / 2 ^ s) / 2 ^ m = s + 1 := by
        refine Nat.div_eq_of_lt_le ?_ ?_
        · rw [Nat.succ_mul]
          omega
        · rw [Nat.succ_mul, Nat.succ_mul]
          omega
      omega
    rwa [mag_succ, hexp, mag_normal hle hhigh]

/-- The numbers of words have no digits there. -/
theorem dvd_mag (m u : Nat) : 2 ^ ((mag m u).log2 - m) ∣ mag m u := by
  obtain ⟨v, hv, hlt⟩ := cutDigits_eq_mag m (mag m u)
  have hle := cutDigits_le m (mag m u)
  rw [hv, (mag_strictMono m).le_iff_le] at hle
  rw [(mag_strictMono m).lt_iff_lt] at hlt
  obtain rfl : v = u := by omega
  exact Dvd.intro_left _ hv

/-! ## Words with sign -/

/-- A format by the bits of its mantissa and of its exponent. -/
structure Format where
  mantissa : Nat
  exponent : Nat
  one_le_exponent : 1 ≤ exponent

/-- What a word stands for; of a finite number, its sign and its magnitude. -/
inductive FloatDatum where
  | nan
  | inf (negative : Bool)
  | finite (negative : Bool) (magnitude : ℚ)
deriving DecidableEq

/-- The number, with the infinities below and above all others. -/
def FloatDatum.value : FloatDatum → Option (WithBot (WithTop ℚ))
  | nan => none
  | inf negative => some (if negative then ⊥ else (⊤ : WithTop ℚ))
  | finite negative magnitude =>
    some (((if negative then -magnitude else magnitude : ℚ) : WithTop ℚ))

namespace Format

/-- The word of the sign bit alone. -/
def signBit (F : Format) : Nat :=
  2 ^ (F.mantissa + F.exponent)

/-- The word of infinity, with an exponent of ones. -/
def infinity (F : Format) : Nat :=
  (2 ^ F.exponent - 1) * 2 ^ F.mantissa

/-- The smallest number above zero. -/
def unit (F : Format) : ℚ :=
  2 ^ ((2 : ℤ) - 2 ^ (F.exponent - 1) - F.mantissa)

def negative (F : Format) (w : Nat) : Bool :=
  decide (F.signBit ≤ w)

def decode (F : Format) (w : Nat) : FloatDatum :=
  let u := w % F.signBit
  if u < F.infinity then .finite (F.negative w) (mag F.mantissa u * F.unit)
  else if u = F.infinity then .inf (F.negative w)
  else .nan

/-- The finite magnitudes of the format. -/
def magnitudes (F : Format) : Set ℚ :=
  {r | ∃ w negative, F.decode w = .finite negative r}

/-- The number of units that the word of a finite number stands for. -/
def units (F : Format) (w : Nat) : Int :=
  let n : Int := mag F.mantissa (w % F.signBit)
  if F.negative w then -n else n

def withSign (F : Format) (negative : Bool) (u : Nat) : Nat :=
  if negative then F.signBit + u else u

/-- The difference of finite numbers, to nearest. -/
def sub (F : Format) (a b : Nat) : Nat :=
  let d := F.units a - F.units b
  F.withSign (d < 0 ∨ d = 0 ∧ F.negative a ∧ ¬F.negative b)
    (min (encode F.mantissa d.natAbs) F.infinity)

variable {F : Format} {u w w' : Nat} {s : Bool} {q : ℚ}

theorem infinity_lt_signBit (F : Format) : F.infinity < F.signBit := by
  unfold infinity signBit
  rw [Nat.add_comm, pow_add]
  exact Nat.mul_lt_mul_of_pos_right (Nat.sub_lt (Nat.two_pow_pos _) Nat.one_pos) (Nat.two_pow_pos _)

theorem infinity_pos (F : Format) : 0 < F.infinity := by
  have hone : 1 < 2 ^ F.exponent := Nat.one_lt_two_pow (Nat.pos_iff_ne_zero.mp F.one_le_exponent)
  exact Nat.mul_pos (Nat.sub_pos_of_lt hone) (Nat.two_pow_pos _)

theorem unit_pos (F : Format) : 0 < F.unit :=
  zpow_pos (by norm_num) _

theorem negative_withSign (hu : u < F.signBit) : F.negative (F.withSign s u) = s := by
  cases s
  · exact decide_eq_false (Nat.not_le.mpr hu)
  · exact decide_eq_true (Nat.le_add_right _ _)

theorem withSign_mod (hu : u < F.signBit) : F.withSign s u % F.signBit = u := by
  cases s
  · exact Nat.mod_eq_of_lt hu
  · exact (Nat.add_mod_left _ _).trans (Nat.mod_eq_of_lt hu)

theorem withSign_lt (hu : u < F.signBit) : F.withSign s u < 2 * F.signBit := by
  cases s
  · exact hu.trans_le (Nat.le_mul_of_pos_left _ Nat.two_pos)
  · show F.signBit + u < 2 * F.signBit
    omega

theorem withSign_negative (hw : w < 2 * F.signBit) :
    F.withSign (F.negative w) (w % F.signBit) = w := by
  unfold withSign negative
  by_cases h : F.signBit ≤ w
  · rw [if_pos (decide_eq_true h), Nat.mod_eq_sub_mod h, Nat.mod_eq_of_lt (by omega)]
    omega
  · rw [if_neg (by simpa using h), Nat.mod_eq_of_lt (by omega)]

theorem toNat_negative (hw : w < 2 * F.signBit) : (F.negative w).toNat = w / F.signBit := by
  unfold negative
  by_cases h : F.signBit ≤ w
  · rw [decide_eq_true h, Nat.div_eq_of_lt_le (k := 1) (by omega) (by omega)]
    rfl
  · rw [decide_eq_false h, Nat.div_eq_of_lt (Nat.not_le.mp h)]
    rfl

theorem units_withSign (hu : u < F.signBit) :
    F.units (F.withSign s u) = if s then -(mag F.mantissa u : Int) else mag F.mantissa u := by
  unfold units
  rw [withSign_mod hu, negative_withSign hu]

/-- Numbers of one sign of which the first has the larger magnitude. -/
theorem sub_withSign {v : Nat} (hu : u < F.signBit) (hlt : v < u) :
    F.sub (F.withSign s u) (F.withSign s v)
      = F.withSign s
        (min (encode F.mantissa (mag F.mantissa u - mag F.mantissa v)) F.infinity) := by
  have hmag : mag F.mantissa v < mag F.mantissa u := mag_strictMono _ hlt
  unfold sub
  rw [units_withSign hu, units_withSign (hlt.trans hu)]
  cases s
  · simp only [Bool.false_eq_true, if_false]
    have habs : ((mag F.mantissa u : Int) - mag F.mantissa v).natAbs
        = mag F.mantissa u - mag F.mantissa v := by omega
    rw [habs, decide_eq_false (by omega)]
  · simp only [if_true]
    have habs : (-(mag F.mantissa u : Int) - -mag F.mantissa v).natAbs
        = mag F.mantissa u - mag F.mantissa v := by omega
    rw [habs, decide_eq_true (by omega)]

theorem decode_eq_finite : F.decode w = .finite s q ↔ w % F.signBit < F.infinity ∧
    F.negative w = s ∧ mag F.mantissa (w % F.signBit) * F.unit = q := by
  unfold decode
  dsimp only
  split_ifs with hlt heq
  · rw [FloatDatum.finite.injEq, and_iff_right hlt]
  · exact iff_of_false (fun h => by cases h) fun h => hlt h.1
  · exact iff_of_false (fun h => by cases h) fun h => hlt h.1

theorem decode_eq_inf : F.decode w = .inf s ↔ w % F.signBit = F.infinity ∧ F.negative w = s := by
  unfold decode
  dsimp only
  split_ifs with hlt heq
  · exact iff_of_false (fun h => by cases h) fun h => hlt.ne h.1
  · rw [FloatDatum.inf.injEq, and_iff_right heq]
  · exact iff_of_false (fun h => by cases h) fun h => heq h.1

theorem decode_eq_nan : F.decode w = .nan ↔ F.infinity < w % F.signBit := by
  unfold decode
  dsimp only
  split_ifs with hlt heq
  · exact iff_of_false (fun h => by cases h) hlt.asymm
  · exact iff_of_false (fun h => by cases h) fun h => h.ne heq.symm
  · exact iff_of_true rfl (by omega)

theorem mag_mul_unit_lt {v : Nat} :
    (mag F.mantissa u * F.unit : ℚ) < mag F.mantissa v * F.unit ↔ u < v := by
  rw [mul_lt_mul_iff_left₀ F.unit_pos, Nat.cast_lt, (mag_strictMono _).lt_iff_lt]

theorem mag_mul_unit_inj {v : Nat} :
    (mag F.mantissa u * F.unit : ℚ) = mag F.mantissa v * F.unit ↔ u = v := by
  rw [mul_left_inj' F.unit_pos.ne', Nat.cast_inj, (mag_strictMono _).injective.eq_iff]

/-- Words that are not NaN are told apart. -/
theorem decode_inj (hw : w < 2 * F.signBit) (hw' : w' < 2 * F.signBit) (hnan : F.decode w ≠ .nan)
    (h : F.decode w = F.decode w') : w = w' := by
  have hparts : F.negative w = F.negative w' ∧ w % F.signBit = w' % F.signBit := by
    cases hd : F.decode w with
    | nan => exact absurd hd hnan
    | inf s =>
      rw [hd] at h
      obtain ⟨heq, hs⟩ := decode_eq_inf.mp hd
      obtain ⟨heq', hs'⟩ := decode_eq_inf.mp h.symm
      exact ⟨hs.trans hs'.symm, heq.trans heq'.symm⟩
    | finite s q =>
      rw [hd] at h
      obtain ⟨-, hs, hq⟩ := decode_eq_finite.mp hd
      obtain ⟨-, hs', hq'⟩ := decode_eq_finite.mp h.symm
      exact ⟨hs.trans hs'.symm, mag_mul_unit_inj.mp (hq.trans hq'.symm)⟩
  rw [← withSign_negative hw, hparts.1, hparts.2, withSign_negative hw']

/-- The word below a magnitude and not the next is its truncation toward zero. -/
theorem isGreatest_of_mag (hu : u < F.infinity) (hle : mag F.mantissa u * F.unit ≤ q)
    (hlt : q < mag F.mantissa (u + 1) * F.unit) :
    IsGreatest {r | r ∈ F.magnitudes ∧ r ≤ q} (mag F.mantissa u * F.unit) := by
  constructor
  · refine ⟨⟨u, F.negative u, ?_⟩, hle⟩
    have hmod : u % F.signBit = u := Nat.mod_eq_of_lt (hu.trans F.infinity_lt_signBit)
    rw [decode_eq_finite, hmod]
    exact ⟨hu, rfl, rfl⟩
  · rintro r ⟨⟨w, s, hw⟩, hr⟩
    obtain ⟨-, -, rfl⟩ := decode_eq_finite.mp hw
    have hsucc := mag_mul_unit_lt.mp (hr.trans_lt hlt)
    rw [← not_lt, mag_mul_unit_lt]
    omega

/-- A number that is not negative, without the digits that the format has no place for. -/
def cut (F : Format) (q : ℚ) : ℚ :=
  (cutDigits F.mantissa ⌊q / F.unit⌋.toNat : ℕ) * F.unit

theorem cut_le (hq : 0 ≤ q) : F.cut q ≤ q := by
  have hpos := F.unit_pos
  have hfloor : 0 ≤ ⌊q / F.unit⌋ := Int.floor_nonneg.mpr (div_nonneg hq hpos.le)
  have hle := cutDigits_le F.mantissa ⌊q / F.unit⌋.toNat
  have hcast : ((cutDigits F.mantissa ⌊q / F.unit⌋.toNat : ℕ) : ℤ) ≤ ⌊q / F.unit⌋ := by omega
  rw [cut, ← le_div_iff₀ hpos]
  exact_mod_cast Int.le_floor.mp hcast

/-- What is cut off a number below a power of two. -/
theorem sub_cut_lt {e : Nat} (hq : 0 ≤ q) (hlt : q < 2 ^ e * F.unit) :
    q - F.cut q < 2 ^ (e - 1 - F.mantissa) * F.unit := by
  have hpos := F.unit_pos
  have hfloor : 0 ≤ ⌊q / F.unit⌋ := Int.floor_nonneg.mpr (div_nonneg hq hpos.le)
  have hunits : q / F.unit < ⌊q / F.unit⌋ + 1 := Int.lt_floor_add_one _
  obtain ⟨n, hn⟩ := Int.eq_ofNat_of_zero_le hfloor
  have hbound : n < 2 ^ e := by
    have hq' : q / F.unit < ((2 ^ e : ℕ) : ℤ) := by
      rw [div_lt_iff₀ hpos]
      exact_mod_cast hlt
    have := Int.floor_lt.mpr hq'
    omega
  have hlog : n.log2 - F.mantissa ≤ e - 1 - F.mantissa := by
    rcases Nat.eq_zero_or_pos n with rfl | hn
    · simp
    · have := (Nat.log2_lt hn.ne').mpr hbound
      omega
  have hcut := lt_cutDigits_add F.mantissa n
  have hpow : 2 ^ (n.log2 - F.mantissa) ≤ 2 ^ (e - 1 - F.mantissa) :=
    Nat.pow_le_pow_right Nat.two_pos hlog
  have hsum : n + 1 ≤ cutDigits F.mantissa n + 2 ^ (e - 1 - F.mantissa) := by omega
  have hcast : ((n : ℚ) + 1) ≤ cutDigits F.mantissa n + 2 ^ (e - 1 - F.mantissa) := by
    exact_mod_cast hsum
  rw [hn, Int.cast_natCast, div_lt_iff₀ hpos] at hunits
  have hmul := mul_le_mul_of_nonneg_right hcast hpos.le
  rw [cut, hn, Int.toNat_natCast]
  linarith

/-- The word of a number of the format that is not negative. -/
def word (F : Format) (q : ℚ) : Nat :=
  encode F.mantissa ⌊q / F.unit⌋.toNat

/-- The number of a word without sign. -/
def ofWord (F : Format) (w : Nat) : ℚ :=
  mag F.mantissa w * F.unit

theorem mem_magnitudes {r : ℚ} : r ∈ F.magnitudes ↔ ∃ w < F.infinity, F.ofWord w = r := by
  constructor
  · rintro ⟨w, s, hw⟩
    obtain ⟨hlt, -, hr⟩ := decode_eq_finite.mp hw
    exact ⟨_, hlt, hr⟩
  · rintro ⟨w, hw, rfl⟩
    have hmod : w % F.signBit = w := Nat.mod_eq_of_lt (hw.trans F.infinity_lt_signBit)
    exact ⟨w, F.negative w, decode_eq_finite.mpr ⟨hmod.symm ▸ hw, rfl, by rw [hmod]; rfl⟩⟩

theorem zero_mem_magnitudes (F : Format) : (0 : ℚ) ∈ F.magnitudes :=
  mem_magnitudes.mpr ⟨0, F.infinity_pos, by simp [ofWord, mag]⟩

theorem ofWord_injective (F : Format) : Function.Injective F.ofWord :=
  fun _ _ h => (mag_strictMono F.mantissa).injective
    (Nat.cast_injective (mul_right_cancel₀ F.unit_pos.ne' h))

theorem ofWord_word {r : ℚ} (hr : r ∈ F.magnitudes) : F.ofWord (F.word r) = r := by
  obtain ⟨w, -, rfl⟩ := mem_magnitudes.mp hr
  have hunits : ⌊F.ofWord w / F.unit⌋.toNat = mag F.mantissa w := by
    rw [ofWord, mul_div_cancel_right₀ _ F.unit_pos.ne', Int.floor_natCast, Int.toNat_natCast]
  rw [word, hunits, ofWord, mag_encode (dvd_mag _ w)]
  rfl

theorem word_lt {r : ℚ} (hr : r ∈ F.magnitudes) : F.word r < F.signBit := by
  obtain ⟨w, hw, h⟩ := mem_magnitudes.mp hr
  have heq : F.word r = w := F.ofWord_injective ((ofWord_word hr).trans h.symm)
  rw [heq]
  exact hw.trans F.infinity_lt_signBit

/-- No number of the format is between. -/
theorem isGreatest_cut (hq : 0 ≤ q) (hlt : q < mag F.mantissa F.infinity * F.unit) :
    IsGreatest {r | r ∈ F.magnitudes ∧ r ≤ q} (F.cut q) := by
  have hpos := F.unit_pos
  have hfloor : 0 ≤ ⌊q / F.unit⌋ := Int.floor_nonneg.mpr (div_nonneg hq hpos.le)
  obtain ⟨n, hn⟩ := Int.eq_ofNat_of_zero_le hfloor
  obtain ⟨u, hu, hnext⟩ := cutDigits_eq_mag F.mantissa n
  have hle := cut_le (F := F) hq
  have hcut : F.cut q = mag F.mantissa u * F.unit := by
    rw [cut, hn, Int.toNat_natCast, hu]
  rw [hcut] at hle ⊢
  refine isGreatest_of_mag ?_ hle ?_
  · have hlt' := hle.trans_lt hlt
    exact mag_mul_unit_lt.mp hlt'
  · rw [← div_lt_iff₀ hpos]
    have hunits : q / F.unit < ⌊q / F.unit⌋ + 1 := Int.lt_floor_add_one _
    rw [hn, Int.cast_natCast] at hunits
    exact hunits.trans_le (by exact_mod_cast hnext)

/-! ## The order of words -/

/-- The word as an integer with its sign. -/
def rank (F : Format) (w : Nat) : Int :=
  if F.negative w then -(w % F.signBit : Nat) else (w % F.signBit : Nat)

theorem units_le_units : F.units w ≤ F.units w' ↔ F.rank w ≤ F.rank w' := by
  have hmono := (mag_strictMono F.mantissa).le_iff_le (a := w % F.signBit) (b := w' % F.signBit)
  have hmono' := (mag_strictMono F.mantissa).le_iff_le (a := w' % F.signBit) (b := w % F.signBit)
  have hzero : ∀ v, mag F.mantissa v ≤ 0 ↔ v ≤ 0 := by
    intro v
    have h := (mag_strictMono F.mantissa).le_iff_le (a := v) (b := 0)
    rwa [mag_of_lt (Nat.two_pow_pos _)] at h
  have hw := hzero (w % F.signBit)
  have hw' := hzero (w' % F.signBit)
  unfold units rank
  cases F.negative w <;> cases F.negative w' <;>
    simp only [Bool.false_eq_true, if_false, if_true] <;> omega

theorem value_cases {x : WithBot (WithTop ℚ)} (hx : (F.decode w).value = some x) :
    (x = (⊤ : WithTop ℚ) ∧ F.rank w = F.infinity) ∨ (x = ⊥ ∧ F.rank w = -F.infinity) ∨
      (x = ((F.units w * F.unit : ℚ) : WithTop ℚ) ∧ -F.infinity < F.rank w ∧
        F.rank w < F.infinity) := by
  cases hd : F.decode w with
  | nan =>
    rw [hd] at hx
    cases hx
  | inf s =>
    obtain ⟨hu, hs⟩ := decode_eq_inf.mp hd
    rw [hd] at hx
    obtain rfl := Option.some.inj hx
    rw [rank, hu, hs]
    cases s
    · exact .inl ⟨rfl, rfl⟩
    · exact .inr (.inl ⟨rfl, rfl⟩)
  | finite s q =>
    obtain ⟨hu, hs, rfl⟩ := decode_eq_finite.mp hd
    rw [hd] at hx
    obtain rfl := Option.some.inj hx
    rw [rank, units, hs]
    refine .inr (.inr ?_)
    cases s
    · simp only [Bool.false_eq_true, if_false, Int.cast_natCast, true_and]
      omega
    · simp only [if_true, Int.cast_neg, Int.cast_natCast, neg_mul, true_and]
      omega

/-- Numbers are ordered as their words. -/
theorem value_le_value {x y : WithBot (WithTop ℚ)} (hx : (F.decode w).value = some x)
    (hy : (F.decode w').value = some y) : x ≤ y ↔ F.rank w ≤ F.rank w' := by
  have hinf := F.infinity_pos
  obtain ⟨rfl, hw⟩ | ⟨rfl, hw⟩ | ⟨rfl, hw⟩ := value_cases hx <;>
    obtain ⟨rfl, hw'⟩ | ⟨rfl, hw'⟩ | ⟨rfl, hw'⟩ := value_cases hy
  case inr.inr.inr.inr =>
    rw [WithBot.coe_le_coe, WithTop.coe_le_coe, mul_le_mul_iff_left₀ F.unit_pos, Int.cast_le,
      units_le_units]
  all_goals
    simp only [le_refl, le_top, bot_le, WithBot.coe_le_coe, top_le_iff, WithTop.coe_ne_top,
      le_bot_iff, WithBot.coe_ne_bot, true_iff, false_iff]
    omega

end Format

end CambriconGst.Lib
