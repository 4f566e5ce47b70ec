import CambriconGst.Easybang.Half

/-!
# Half precision

* `toNat_float2half`, `toNat_half2float`: the fields of the results
* `halfBits_trunc`: a number in range goes to the word below it
* `decode_half2float`: the other direction is exact
* `decode_float2half_cut`: the conversion as `Format.cut`
* `half_conversion`: the two conversions
-/

namespace CambriconGst.Easybang

open Lib

/-! ## Fields of words -/

theorem toNat_field (w k mask : UInt32) (n : Nat) (hk : k.toNat < 32)
    (hmask : mask.toNat = 2 ^ n - 1) :
    ((w >>> k) &&& mask).toNat = w.toNat / 2 ^ k.toNat % 2 ^ n := by
  rw [UInt32.toNat_and, UInt32.toNat_shiftRight, hmask, Nat.and_two_pow_sub_one_eq_mod,
    Nat.mod_eq_of_lt hk, Nat.shiftRight_eq_div_pow]

theorem toNat_shiftLeft_or {x y k : UInt32} (hk : k.toNat < 32)
    (hx : x.toNat * 2 ^ k.toNat < 2 ^ 32) (hy : y.toNat < 2 ^ k.toNat) :
    ((x <<< k) ||| y).toNat = x.toNat * 2 ^ k.toNat + y.toNat := by
  have hshift : x.toNat <<< k.toNat < 2 ^ 32 := by rwa [Nat.shiftLeft_eq]
  rw [UInt32.toNat_or, UInt32.toNat_shiftLeft, Nat.mod_eq_of_lt hk, Nat.mod_eq_of_lt hshift,
    ← Nat.shiftLeft_add_eq_or_of_lt hy, Nat.shiftLeft_eq]

theorem ne_zero_iff {sign : UInt32} {negative : Bool} (h : sign.toNat = negative.toNat) :
    sign ≠ 0 ↔ negative = true := by
  rw [ne_eq, ← UInt32.toNat_inj, h]
  cases negative <;> decide

/-! ## To half -/

/-- `float2half` below the sign bit. -/
def halfBits (u : Nat) : Nat :=
  if u / 2 ^ 23 = 255 then if u / 2 ^ 13 % 2 ^ 10 ≠ 0 then 0x7FFF else 0x7C00
  else if u / 2 ^ 23 = 0 then 0
  else if 143 ≤ u / 2 ^ 23 then 0x7C00
  else if u / 2 ^ 23 ≤ 112 then (2 ^ 10 + u / 2 ^ 13 % 2 ^ 10) / 2 ^ min (113 - u / 2 ^ 23) 11
  else (u / 2 ^ 23 - 112) * 2 ^ 10 + u / 2 ^ 13 % 2 ^ 10

theorem toNat_sign_or {sign x : UInt32} {negative : Bool} (h : sign.toNat = negative.toNat)
    (hx : x.toNat < 2 ^ 15) :
    ((sign <<< 15) ||| x).toUInt16.toNat = binary16.withSign negative x.toNat := by
  have hle : sign.toNat ≤ 1 := h ▸ negative.toNat_le
  rw [UInt32.toNat_toUInt16, toNat_shiftLeft_or (by decide) _ hx, h]
  · cases negative
    · show (0 * 2 ^ 15 + x.toNat) % 2 ^ 16 = x.toNat
      omega
    · show (1 * 2 ^ 15 + x.toNat) % 2 ^ 16 = 2 ^ 15 + x.toNat
      omega
  · show sign.toNat * 2 ^ 15 < 2 ^ 32
    omega

theorem toNat_float2half (f : UInt32) : (float2half f).toNat
    = binary16.withSign (binary32.negative f.toNat) (halfBits (f.toNat % 2 ^ 31)) := by
  have hlt : f.toNat < 2 ^ 32 := f.toNat_lt
  obtain ⟨sign, hsign⟩ : ∃ sign, sign = (f >>> 31) &&& 0x00000001 := ⟨_, rfl⟩
  obtain ⟨exp, hexp⟩ : ∃ exp, exp = (f >>> 23) &&& 0x000000FF := ⟨_, rfl⟩
  obtain ⟨eff, heff⟩ : ∃ eff, eff = (f >>> 13) &&& 0x000003FF := ⟨_, rfl⟩
  have hsign' : sign.toNat = (binary32.negative f.toNat).toNat := by
    rw [hsign, toNat_field f 31 1 1 (by decide) rfl, Format.toNat_negative hlt]
    show f.toNat / 2 ^ 31 % 2 ^ 1 = f.toNat / 2 ^ 31
    omega
  have hexp' : exp.toNat = f.toNat % 2 ^ 31 / 2 ^ 23 := by
    rw [hexp, toNat_field f 23 0xFF 8 (by decide) rfl]
    show f.toNat / 2 ^ 23 % 2 ^ 8 = _
    omega
  have heff' : eff.toNat = f.toNat % 2 ^ 31 / 2 ^ 13 % 2 ^ 10 := by
    rw [heff, toNat_field f 13 0x3FF 10 (by decide) rfl]
    show f.toNat / 2 ^ 13 % 2 ^ 10 = _
    omega
  have hexplt : exp.toNat < 2 ^ 8 := by omega
  have hefflt : eff.toNat < 2 ^ 10 := by omega
  -- the two words of a branch differ in the sign bit
  have hconst : ∀ a b : UInt16, a.toNat = 2 ^ 15 + b.toNat → (if sign ≠ 0 then a else b).toNat
      = binary16.withSign (binary32.negative f.toNat) b.toNat := by
    intro a b hab
    rw [apply_ite UInt16.toNat, hab]
    exact if_congr (ne_zero_iff hsign') rfl rfl
  have hnan : exp = 0xFF ↔ exp.toNat = 255 := UInt32.toNat_inj.symm
  have hzero : exp = 0x00 ↔ exp.toNat = 0 := UInt32.toNat_inj.symm
  have heffzero : eff ≠ 0 ↔ eff.toNat ≠ 0 := not_congr UInt32.toNat_inj.symm
  have hover : (exp.toNat : Int) - 0x7F ≥ 0x1F - 0x0F ↔ 143 ≤ exp.toNat := by omega
  have hunder : (exp.toNat : Int) - 0x7F ≤ 0x00 - 0x0F ↔ exp.toNat ≤ 112 := by omega
  unfold float2half halfBits
  simp only [← hsign, ← hexp, ← heff, ← hexp', ← heff', hnan, hzero, heffzero, hover, hunder]
  -- infinities and NaNs
  by_cases h255 : exp.toNat = 255
  · rw [if_pos h255, if_pos h255]
    by_cases heff0 : eff.toNat ≠ 0
    · rw [if_pos heff0, if_pos heff0]
      exact hconst 0xFFFF 0x7FFF rfl
    · rw [if_neg heff0, if_neg heff0]
      exact hconst 0xFC00 0x7C00 rfl
  rw [if_neg h255, if_neg h255]
  -- zeros, and what is subnormal as a `float`
  by_cases h0 : exp.toNat = 0
  · rw [if_pos h0, if_pos h0]
    exact hconst 0x8000 0x0000 rfl
  rw [if_neg h0, if_neg h0]
  -- too large for a `half`
  by_cases h143 : 143 ≤ exp.toNat
  · rw [if_pos h143, if_pos h143]
    exact hconst 0xFC00 0x7C00 rfl
  rw [if_neg h143, if_neg h143]
  -- subnormal as a `half`, or not
  by_cases h112 : exp.toNat ≤ 112
  · rw [if_pos h112, if_pos h112]
    have hshift : (if (0x7F : Int) - exp.toNat - 0x0E > 11 then (11 : Int)
        else 0x7F - exp.toNat - 0x0E) = ((min (113 - exp.toNat) 11 : Nat) : Int) := by
      split_ifs <;> omega
    have hx : ((0x0400 ||| eff) >>> UInt32.ofNat (min (113 - exp.toNat) 11)).toNat
        = (2 ^ 10 + eff.toNat) / 2 ^ min (113 - exp.toNat) 11 := by
      have hor := Nat.two_pow_add_eq_or_of_lt hefflt 1
      rw [Nat.mul_one] at hor
      rw [UInt32.toNat_shiftRight, UInt32.toNat_or, UInt32.toNat_ofNat', Nat.shiftRight_eq_div_pow,
        Nat.mod_eq_of_lt (a := min (113 - exp.toNat) 11) (by omega), Nat.mod_eq_of_lt (by omega),
        hor]
      rfl
    rw [hshift, Int.toNat_natCast, ← hx]
    refine toNat_sign_or hsign' ?_
    rw [hx]
    exact (Nat.div_le_self _ _).trans_lt (by omega)
  · rw [if_neg h112, if_neg h112]
    have hexp16 : ((exp - 0x7F + 0x0F) &&& 0x1F).toNat = exp.toNat - 112 := by
      have hand := Nat.and_two_pow_sub_one_eq_mod (exp - 0x7F + 0x0F).toNat 5
      rw [UInt32.toNat_and]
      refine hand.trans ?_
      rw [UInt32.toNat_add, UInt32.toNat_sub]
      show ((2 ^ 32 - 127 + exp.toNat) % 2 ^ 32 + 15) % 2 ^ 32 % 2 ^ 5 = exp.toNat - 112
      omega
    rw [UInt32.or_assoc]
    have hx : (((exp - 0x7F + 0x0F) &&& 0x1F) <<< 10 ||| eff).toNat
        = (exp.toNat - 112) * 2 ^ 10 + eff.toNat := by
      rw [toNat_shiftLeft_or (by decide) _ hefflt, hexp16]
      · rfl
      · rw [hexp16]
        show (exp.toNat - 112) * 2 ^ 10 < 2 ^ 32
        omega
    rw [← hx]
    refine toNat_sign_or hsign' ?_
    rw [hx]
    omega

/-! ## To single -/

/-- `half2float` below the sign bit. -/
def floatBits (u : Nat) : Nat :=
  if u / 2 ^ 10 = 31 then if u % 2 ^ 10 ≠ 0 then 0x7FFFFFFF else 0x7F800000
  else if u / 2 ^ 10 = 0 then if u % 2 ^ 10 ≠ 0 then encode 23 (u % 2 ^ 10 * 2 ^ 125) else 0
  else (u / 2 ^ 10 + 112) * 2 ^ 23 + u % 2 ^ 10 * 2 ^ 13

theorem mag_encode_subnormal {n : Nat} (h0 : n ≠ 0) (hn : n < 2 ^ 10) :
    mag 23 (encode 23 (n * 2 ^ 125)) = n * 2 ^ 125 := by
  have hlog : (n * 2 ^ 125).log2 < 10 + 125 := by
    rw [Nat.log2_lt (Nat.mul_ne_zero h0 (Nat.two_pow_pos _).ne'), pow_add]
    exact Nat.mul_lt_mul_of_pos_right hn (Nat.two_pow_pos _)
  exact mag_encode ((pow_dvd_pow 2 (by omega)).mul_left n)

theorem encode_subnormal_lt {n : Nat} (h0 : n ≠ 0) (hn : n < 2 ^ 10) :
    encode 23 (n * 2 ^ 125) < binary32.infinity := by
  rw [← (mag_strictMono 23).lt_iff_lt, mag_encode_subnormal h0 hn]
  have hinf : mag 23 binary32.infinity = 2 ^ 23 * 2 ^ 254 :=
    mag_normal (Nat.le_refl _) (by decide) 254
  rw [hinf]
  calc n * 2 ^ 125 < 2 ^ 23 * 2 ^ 125 :=
        Nat.mul_lt_mul_of_pos_right (hn.trans (by decide)) (Nat.two_pow_pos _)
    _ ≤ 2 ^ 23 * 2 ^ 254 := Nat.mul_le_mul_left _ (Nat.pow_le_pow_right (by decide) (by decide))

/-- The two words differ by the subnormal number. -/
theorem floatSub_subnormal {a b : UInt32} {negative : Bool} {n : Nat} (h0 : n ≠ 0) (hn : n < 2 ^ 10)
    (ha : a.toNat = binary32.withSign negative (113 * 2 ^ 23 + n * 2 ^ 13))
    (hb : b.toNat = binary32.withSign negative (113 * 2 ^ 23)) :
    (floatSub a b).toNat = binary32.withSign negative (encode 23 (n * 2 ^ 125)) := by
  have hmaga : mag 23 (113 * 2 ^ 23 + n * 2 ^ 13) = (2 ^ 23 + n * 2 ^ 13) * 2 ^ 112 := by
    have h := mag_normal (m := 23) (q := 2 ^ 23 + n * 2 ^ 13) (by omega) (by omega) 112
    rwa [← Nat.add_assoc] at h
  have hmagb : mag 23 (113 * 2 ^ 23) = 2 ^ 23 * 2 ^ 112 :=
    mag_normal (Nat.le_refl _) (by decide) 112
  have hdiff : (2 ^ 23 + n * 2 ^ 13) * 2 ^ 112 - 2 ^ 23 * 2 ^ 112 = n * 2 ^ 125 := by
    rw [Nat.add_mul, Nat.add_sub_cancel_left, Nat.mul_assoc, ← pow_add]
  have hlt := encode_subnormal_lt h0 hn
  have hsub : binary32.sub a.toNat b.toNat
      = binary32.withSign negative (encode 23 (n * 2 ^ 125)) := by
    rw [ha, hb, Format.sub_withSign _ (by omega)]
    · show binary32.withSign negative (min (encode 23 (mag 23 _ - mag 23 _)) _) = _
      rw [hmaga, hmagb, hdiff, Nat.min_eq_left hlt.le]
    · show _ < 2 ^ 31
      omega
  rw [floatSub, hsub, UInt32.toNat_ofNat']
  exact Nat.mod_eq_of_lt (Format.withSign_lt (hlt.trans binary32.infinity_lt_signBit))

theorem toNat_field16 (w k mask : UInt16) (n : Nat) (hk : k.toNat < 16)
    (hmask : mask.toNat = 2 ^ n - 1) :
    ((w >>> k) &&& mask).toUInt32.toNat = w.toNat / 2 ^ k.toNat % 2 ^ n := by
  rw [UInt16.toNat_toUInt32, UInt16.toNat_and, UInt16.toNat_shiftRight, hmask,
    Nat.and_two_pow_sub_one_eq_mod, Nat.mod_eq_of_lt hk, Nat.shiftRight_eq_div_pow]

theorem toNat_sign_or32 {sign x : UInt32} {negative : Bool} (h : sign.toNat = negative.toNat)
    (hx : x.toNat < 2 ^ 31) :
    ((sign <<< 31) ||| x).toNat = binary32.withSign negative x.toNat := by
  have hle : sign.toNat ≤ 1 := h ▸ negative.toNat_le
  rw [toNat_shiftLeft_or (by decide) _ hx, h]
  · cases negative
    · exact (congrArg (· + x.toNat) (Nat.zero_mul _)).trans (Nat.zero_add _)
    · exact congrArg (· + x.toNat) (Nat.one_mul _)
  · show sign.toNat * 2 ^ 31 < 2 ^ 32
    omega

/-- The fields of a word with a sign. -/
theorem toNat_fields32 {sign e x : UInt32} {negative : Bool} (h : sign.toNat = negative.toNat)
    (he : e.toNat < 2 ^ 8) (hx : x.toNat < 2 ^ 10) :
    ((sign <<< 31) ||| (e <<< 23) ||| (x <<< (23 - 10))).toNat
      = binary32.withSign negative (e.toNat * 2 ^ 23 + x.toNat * 2 ^ 13) := by
  have hlow : (x <<< (23 - 10)).toNat = x.toNat * 2 ^ 13 := by
    rw [UInt32.toNat_shiftLeft, Nat.shiftLeft_eq]
    exact Nat.mod_eq_of_lt (by show x.toNat * 2 ^ 13 < 2 ^ 32; omega)
  have hfields : ((e <<< 23) ||| (x <<< (23 - 10))).toNat
      = e.toNat * 2 ^ 23 + x.toNat * 2 ^ 13 := by
    rw [toNat_shiftLeft_or (by decide), hlow]
    · rfl
    · show e.toNat * 2 ^ 23 < 2 ^ 32
      omega
    · rw [hlow]
      show x.toNat * 2 ^ 13 < 2 ^ 23
      omega
  rw [UInt32.or_assoc, toNat_sign_or32 h (by rw [hfields]; omega), hfields]

theorem toNat_half2float (h : UInt16) : (half2float h).toNat
    = binary32.withSign (binary16.negative h.toNat) (floatBits (h.toNat % 2 ^ 15)) := by
  have hlt : h.toNat < 2 ^ 16 := h.toNat_lt
  obtain ⟨sign, hsign⟩ : ∃ sign, sign = ((h >>> 15) &&& 0x01).toUInt32 := ⟨_, rfl⟩
  obtain ⟨exp, hexp⟩ : ∃ exp, exp = ((h >>> 10) &&& 0x1F).toUInt32 := ⟨_, rfl⟩
  obtain ⟨eff, heff⟩ : ∃ eff, eff = (h &&& 0x03FF).toUInt32 := ⟨_, rfl⟩
  have hsign' : sign.toNat = (binary16.negative h.toNat).toNat := by
    rw [hsign, toNat_field16 h 15 1 1 (by decide) rfl, Format.toNat_negative hlt]
    show h.toNat / 2 ^ 15 % 2 ^ 1 = h.toNat / 2 ^ 15
    omega
  have hexp' : exp.toNat = h.toNat % 2 ^ 15 / 2 ^ 10 := by
    rw [hexp, toNat_field16 h 10 0x1F 5 (by decide) rfl]
    show h.toNat / 2 ^ 10 % 2 ^ 5 = _
    omega
  have heff' : eff.toNat = h.toNat % 2 ^ 15 % 2 ^ 10 := by
    rw [heff, UInt16.toNat_toUInt32, UInt16.toNat_and]
    refine (Nat.and_two_pow_sub_one_eq_mod _ 10).trans ?_
    omega
  have hexplt : exp.toNat < 2 ^ 5 := by omega
  have hefflt : eff.toNat < 2 ^ 10 := by omega
  -- infinities and NaNs are two constants that differ in the sign bit
  have hconst : ∀ a b : UInt32, a.toNat = 2 ^ 31 + b.toNat → (if sign ≠ 0 then a else b).toNat
      = binary32.withSign (binary16.negative h.toNat) b.toNat := by
    intro a b hab
    rw [apply_ite UInt32.toNat, hab]
    exact if_congr (ne_zero_iff hsign') rfl rfl
  have hnan : exp = 0x1F ↔ exp.toNat = 31 := UInt32.toNat_inj.symm
  have hzero : exp = 0x00 ↔ exp.toNat = 0 := UInt32.toNat_inj.symm
  have heffzero : eff ≠ 0 ↔ eff.toNat ≠ 0 := not_congr UInt32.toNat_inj.symm
  unfold half2float floatBits
  simp only [← hsign, ← hexp, ← heff, ← hexp', ← heff', hnan, hzero, heffzero]
  by_cases h31 : exp.toNat = 31
  · rw [if_pos h31, if_pos h31]
    by_cases heff0 : eff.toNat ≠ 0
    · rw [if_pos heff0, if_pos heff0]
      exact hconst 0xFFFFFFFF 0x7FFFFFFF rfl
    · rw [if_neg heff0, if_neg heff0]
      exact hconst 0xFF800000 0x7F800000 rfl
  rw [if_neg h31, if_neg h31]
  by_cases h0 : exp.toNat = 0
  · rw [if_pos h0, if_pos h0]
    by_cases heff0 : eff.toNat ≠ 0
    · rw [if_pos heff0, if_pos heff0]
      exact floatSub_subnormal heff0 hefflt (toNat_fields32 hsign' (by decide) hefflt)
        (toNat_fields32 hsign' (by decide) (by decide))
    · rw [if_neg heff0, if_neg heff0]
      exact toNat_sign_or32 hsign' (by decide)
  · rw [if_neg h0, if_neg h0]
    -- the bias of `float` is 112 above that of `half`; the subtraction may wrap, the sum does not
    have hexp32 : (exp - 0x0F + 0x7F).toNat = exp.toNat + 112 := by
      rw [UInt32.toNat_add, UInt32.toNat_sub]
      show ((2 ^ 32 - 15 + exp.toNat) % 2 ^ 32 + 127) % 2 ^ 32 = exp.toNat + 112
      omega
    rw [toNat_fields32 hsign' (by rw [hexp32]; omega) hefflt, hexp32]

/-! ## What the bits stand for -/

theorem unit_binary16 : binary16.unit = 2 ^ 125 * binary32.unit := by
  unfold Format.unit binary16 binary32
  norm_num

theorem mag_binary16_mul (n : Nat) :
    (mag 10 n : ℚ) * binary16.unit = (mag 10 n * 2 ^ 125 : Nat) * binary32.unit := by
  rw [unit_binary16]
  push_cast
  ring

theorem mag_floatBits {u : Nat} (hu : u < binary16.infinity) :
    floatBits u < binary32.infinity ∧ mag 23 (floatBits u) = mag 10 u * 2 ^ 125 := by
  have hu' : u < 31 * 2 ^ 10 := hu
  have h31 : u / 2 ^ 10 ≠ 31 := by omega
  have hinf : binary32.infinity = 255 * 2 ^ 23 := rfl
  unfold floatBits
  rw [if_neg h31]
  by_cases h0 : u / 2 ^ 10 = 0
  · have hlt : u < 2 ^ 10 := by omega
    rw [if_pos h0, mag_of_lt hlt, Nat.mod_eq_of_lt hlt]
    by_cases hu0 : u ≠ 0
    · rw [if_pos hu0]
      exact ⟨encode_subnormal_lt hu0 hlt, mag_encode_subnormal hu0 hlt⟩
    · rw [if_neg hu0, not_not.mp hu0]
      exact ⟨by decide, rfl⟩
  · rw [if_neg h0, hinf]
    refine ⟨by omega, ?_⟩
    obtain ⟨e, he⟩ : ∃ e, u / 2 ^ 10 = e + 1 := Nat.exists_eq_succ_of_ne_zero h0
    have hm : u % 2 ^ 10 < 2 ^ 10 := Nat.mod_lt _ (Nat.two_pow_pos _)
    have hlong : (u / 2 ^ 10 + 112) * 2 ^ 23 + u % 2 ^ 10 * 2 ^ 13
        = (e + 112) * 2 ^ 23 + (2 ^ 10 + u % 2 ^ 10) * 2 ^ 13 := by omega
    have hshort : u = e * 2 ^ 10 + (2 ^ 10 + u % 2 ^ 10) := by omega
    rw [hlong, mag_normal (by omega) (by omega)]
    conv_rhs => rw [hshort, mag_normal (by omega) (by omega)]
    rw [Nat.mul_assoc, Nat.mul_assoc, ← pow_add, ← pow_add]
    congr 2
    omega

/-- Digits that are cut off before or after scaling. -/
theorem div_two_pow_scaled (n : Nat) {a b c : Nat} (h : c = a + b) :
    n / 2 ^ a * 2 ^ c ≤ n * 2 ^ b ∧ n * 2 ^ b < (n / 2 ^ a + 1) * 2 ^ c := by
  rw [h, pow_add, ← Nat.mul_assoc, ← Nat.mul_assoc]
  constructor
  · exact Nat.mul_le_mul_right _ (Nat.div_mul_le_self _ _)
  · refine Nat.mul_lt_mul_of_pos_right ?_ (Nat.two_pow_pos b)
    rw [Nat.mul_comm]
    exact Nat.lt_mul_div_succ n (Nat.two_pow_pos a)

/-- A number below 65536 goes to the word below it. -/
theorem halfBits_trunc {u : Nat} (hu : u < 143 * 2 ^ 23) : halfBits u < binary16.infinity ∧
    mag 10 (halfBits u) * 2 ^ 125 ≤ mag 23 u ∧ mag 23 u < mag 10 (halfBits u + 1) * 2 ^ 125 := by
  have h255 : u / 2 ^ 23 ≠ 255 := by omega
  have h143 : ¬143 ≤ u / 2 ^ 23 := by omega
  have hinf : binary16.infinity = 31 * 2 ^ 10 := rfl
  unfold halfBits
  rw [if_neg h255, if_neg h143, hinf]
  by_cases h0 : u / 2 ^ 23 = 0
  · have hlt : u < 2 ^ 23 := by omega
    rw [if_pos h0, mag_of_lt hlt]
    refine ⟨by decide, Nat.zero_le _, ?_⟩
    rw [mag_of_lt (by decide)]
    exact hlt.trans (by decide)
  rw [if_neg h0]
  obtain ⟨e, he⟩ : ∃ e, u / 2 ^ 23 = e + 1 := Nat.exists_eq_succ_of_ne_zero h0
  -- the digits with the leading one
  obtain ⟨n, hn⟩ : ∃ n, n = 2 ^ 23 + u % 2 ^ 23 := ⟨_, rfl⟩
  have hword : u = e * 2 ^ 23 + n := by omega
  have hdigits : 2 ^ 10 + u / 2 ^ 13 % 2 ^ 10 = n / 2 ^ 13 := by omega
  have hmag : mag 23 u = n * 2 ^ e := by
    conv_lhs => rw [hword, mag_normal (by omega) (by omega)]
  by_cases h112 : u / 2 ^ 23 ≤ 112
  · rw [if_pos h112, hdigits, hmag, Nat.div_div_eq_div_mul, ← pow_add]
    have hpow : 2 ^ 14 ≤ 2 ^ (13 + min (113 - u / 2 ^ 23) 11) :=
      Nat.pow_le_pow_right Nat.two_pos (by omega)
    have hv : n / 2 ^ (13 + min (113 - u / 2 ^ 23) 11) < 2 ^ 10 :=
      (Nat.div_le_div_left hpow (by decide)).trans_lt (by omega)
    rw [mag_succ, mag_of_lt hv, Nat.div_eq_of_lt hv, Nat.zero_sub, pow_zero]
    refine ⟨hv.trans (by decide), ?_⟩
    by_cases hshift : 113 - u / 2 ^ 23 ≤ 11
    · exact div_two_pow_scaled n (by omega)
    · have hzero : n / 2 ^ (13 + min (113 - u / 2 ^ 23) 11) = 0 := by
        rw [Nat.min_eq_right (by omega)]
        omega
      rw [hzero, Nat.zero_mul]
      refine ⟨Nat.zero_le _, ?_⟩
      calc n * 2 ^ e < 2 ^ 24 * 2 ^ e := Nat.mul_lt_mul_of_pos_right (by omega) (Nat.two_pow_pos e)
        _ = 2 ^ (24 + e) := (pow_add 2 24 e).symm
        _ ≤ (0 + 1) * 2 ^ 125 := by
          rw [Nat.zero_add, Nat.one_mul]
          exact Nat.pow_le_pow_right Nat.two_pos (by omega)
  · obtain ⟨k, rfl⟩ : ∃ k, e = 112 + k := Nat.exists_eq_add_of_le (by omega)
    have hshort : (u / 2 ^ 23 - 112) * 2 ^ 10 + u / 2 ^ 13 % 2 ^ 10 = k * 2 ^ 10 + n / 2 ^ 13 := by
      omega
    have hexp : (k * 2 ^ 10 + n / 2 ^ 13) / 2 ^ 10 - 1 = k := by omega
    rw [if_neg h112, hshort, hmag, mag_succ, mag_normal (by omega) (by omega), hexp, ← Nat.succ_mul,
      Nat.mul_assoc, Nat.mul_assoc, ← pow_add]
    exact ⟨by omega, div_two_pow_scaled n (by omega)⟩

theorem floatBits_lt {u : Nat} (hu : u < 2 ^ 15) : floatBits u < binary32.signBit := by
  obtain hlt | hge := Nat.lt_or_ge u binary16.infinity
  · exact (mag_floatBits hlt).1.trans binary32.infinity_lt_signBit
  · have h31 : u / 2 ^ 10 = 31 := by
      have hge' : 31 * 2 ^ 10 ≤ u := hge
      omega
    unfold floatBits
    rw [if_pos h31]
    split_ifs <;> decide

/-- To single is exact. -/
theorem decode_half2float (h : UInt16) :
    binary32.decode (half2float h).toNat = binary16.decode h.toNat := by
  have hsmall : h.toNat % 2 ^ 15 < 2 ^ 15 := Nat.mod_lt _ (Nat.two_pow_pos _)
  have hu := floatBits_lt hsmall
  rw [toNat_half2float]
  cases hd : binary16.decode h.toNat with
  | nan =>
    have hgt : 31 * 2 ^ 10 < h.toNat % 2 ^ 15 := Format.decode_eq_nan.mp hd
    rw [Format.decode_eq_nan, Format.withSign_mod hu]
    unfold floatBits
    rw [if_pos (by omega), if_pos (by omega)]
    decide
  | inf negative =>
    obtain ⟨heq, rfl⟩ := Format.decode_eq_inf.mp hd
    have heq' : h.toNat % 2 ^ 15 = 31 * 2 ^ 10 := heq
    rw [Format.decode_eq_inf, Format.withSign_mod hu, heq']
    exact ⟨by decide, Format.negative_withSign (by decide)⟩
  | finite negative q =>
    obtain ⟨hlt, rfl, rfl⟩ := Format.decode_eq_finite.mp hd
    obtain ⟨hfin, hmag⟩ := mag_floatBits hlt
    rw [Format.decode_eq_finite, Format.withSign_mod hu]
    refine ⟨hfin, Format.negative_withSign hu, ?_⟩
    show (mag 23 (floatBits (h.toNat % binary16.signBit)) : ℚ) * binary32.unit
      = mag 10 (h.toNat % binary16.signBit) * binary16.unit
    rw [mag_binary16_mul, ← hmag]

/-! ## The half for a float -/

/-- The half for a float: NaN and infinity stay, all other numbers are truncated toward zero, from
65536 on to infinity, and the sign is kept. -/
def IsHalfOf (f : UInt32) (h : UInt16) : Prop :=
  binary16.negative h.toNat = binary32.negative f.toNat ∧
    match binary32.decode f.toNat with
    | .nan => binary16.decode h.toNat = .nan
    | .inf negative => binary16.decode h.toNat = .inf negative
    | .finite negative q =>
      if 65536 ≤ q then binary16.decode h.toNat = .inf negative
      else ∃ r, binary16.decode h.toNat = .finite negative r ∧
        IsGreatest {x | x ∈ binary16.magnitudes ∧ x ≤ q} r

/-- A NaN whose upper ten bits of the mantissa are zero. -/
def PayloadLost (f : UInt32) : Prop :=
  binary32.decode f.toNat = .nan ∧ f.toNat / 2 ^ 13 % 2 ^ 10 = 0

theorem halfBits_lt (u : Nat) (hu : u < 2 ^ 31) : halfBits u < binary16.signBit := by
  obtain hlt | hge := Nat.lt_or_ge u (143 * 2 ^ 23)
  · exact (halfBits_trunc hlt).1.trans binary16.infinity_lt_signBit
  · unfold halfBits
    rw [if_neg (by omega : ¬u / 2 ^ 23 = 0), if_pos (by omega : 143 ≤ u / 2 ^ 23)]
    split_ifs <;> decide

theorem negative_float2half (f : UInt32) :
    binary16.negative (float2half f).toNat = binary32.negative f.toNat := by
  rw [toNat_float2half, Format.negative_withSign (halfBits_lt _ (Nat.mod_lt _ (Nat.two_pow_pos _)))]

theorem mod_float2half (f : UInt32) :
    (float2half f).toNat % binary16.signBit = halfBits (f.toNat % 2 ^ 31) := by
  rw [toNat_float2half, Format.withSign_mod (halfBits_lt _ (Nat.mod_lt _ (Nat.two_pow_pos _)))]

/-- Which words stand for numbers below 65536. -/
theorem lt_limit_iff (u : Nat) : (mag 23 u : ℚ) * binary32.unit < 65536 ↔ u < 143 * 2 ^ 23 := by
  have hlimit : (mag 23 (143 * 2 ^ 23) : ℚ) * binary32.unit = 65536 := by
    have hmag : mag 23 (143 * 2 ^ 23) = 2 ^ 23 * 2 ^ 142 :=
      mag_normal (Nat.le_refl _) (by decide) 142
    rw [hmag]
    unfold Format.unit binary32
    norm_num
  rw [← hlimit]
  exact @Format.mag_mul_unit_lt binary32 u (143 * 2 ^ 23)

theorem isHalfOf_float2half (f : UInt32) (h : ¬PayloadLost f) : IsHalfOf f (float2half f) := by
  refine ⟨negative_float2half f, ?_⟩
  cases hd : binary32.decode f.toNat with
  | nan =>
    have hgt : 255 * 2 ^ 23 < f.toNat % 2 ^ 31 := Format.decode_eq_nan.mp hd
    have heff : f.toNat / 2 ^ 13 % 2 ^ 10 ≠ 0 := fun h0 => h ⟨hd, h0⟩
    show binary16.decode (float2half f).toNat = .nan
    rw [Format.decode_eq_nan, mod_float2half]
    unfold halfBits
    rw [if_pos (by omega), if_pos (by omega)]
    decide
  | inf negative =>
    obtain ⟨heq, rfl⟩ := Format.decode_eq_inf.mp hd
    have heq' : f.toNat % 2 ^ 31 = 255 * 2 ^ 23 := heq
    show binary16.decode (float2half f).toNat = .inf _
    rw [Format.decode_eq_inf, mod_float2half, negative_float2half, heq']
    exact ⟨by decide, rfl⟩
  | finite negative q =>
    obtain ⟨hlt, rfl, rfl⟩ := Format.decode_eq_finite.mp hd
    have hlt' : f.toNat % 2 ^ 31 < 255 * 2 ^ 23 := hlt
    show if 65536 ≤ (mag 23 (f.toNat % 2 ^ 31) : ℚ) * binary32.unit then _ else _
    by_cases hsmall : f.toNat % 2 ^ 31 < 143 * 2 ^ 23
    · obtain ⟨hfin, hle, hnext⟩ := halfBits_trunc hsmall
      rw [if_neg (not_le.mpr ((lt_limit_iff _).mpr hsmall))]
      refine ⟨_, Format.decode_eq_finite.mpr ⟨?_, negative_float2half f, rfl⟩, ?_⟩
      · rwa [mod_float2half]
      · rw [mod_float2half]
        refine Format.isGreatest_of_mag hfin ?_ ?_
        · show (mag 10 _ : ℚ) * _ ≤ _
          rw [mag_binary16_mul]
          exact mul_le_mul_of_nonneg_right (Nat.cast_le.mpr hle) binary32.unit_pos.le
        · show _ < (mag 10 _ : ℚ) * _
          rw [mag_binary16_mul]
          exact mul_lt_mul_of_pos_right (Nat.cast_lt.mpr hnext) binary32.unit_pos
    · rw [if_pos (not_lt.mp ((lt_limit_iff _).not.mpr hsmall)), Format.decode_eq_inf,
        mod_float2half]
      refine ⟨?_, negative_float2half f⟩
      unfold halfBits
      rw [if_neg (by omega), if_neg (by omega), if_pos (by omega)]
      rfl

theorem not_isHalfOf_float2half (f : UInt32) (h : PayloadLost f) : ¬IsHalfOf f (float2half f) := by
  rintro ⟨-, hhalf⟩
  rw [h.1] at hhalf
  have hgt : 255 * 2 ^ 23 < f.toNat % 2 ^ 31 := Format.decode_eq_nan.mp h.1
  have heff := h.2
  have hnan : binary16.decode (float2half f).toNat = .nan := hhalf
  rw [Format.decode_eq_nan, mod_float2half] at hnan
  unfold halfBits at hnan
  rw [if_pos (by omega), if_neg (by omega)] at hnan
  exact absurd hnan (by decide)

theorem isHalfOf_iff (f : UInt32) : IsHalfOf f (float2half f) ↔ ¬PayloadLost f :=
  ⟨fun h hlost => not_isHalfOf_float2half f hlost h, isHalfOf_float2half f⟩

/-! ## Monotonicity -/

theorem halfBits_of_ge {u : Nat} (hle : 143 * 2 ^ 23 ≤ u) (hinf : u ≤ binary32.infinity) :
    halfBits u = binary16.infinity := by
  have hinf' : u ≤ 255 * 2 ^ 23 := hinf
  unfold halfBits
  by_cases h255 : u / 2 ^ 23 = 255
  · rw [if_pos h255, if_neg (by omega)]
    rfl
  · rw [if_neg h255, if_neg (by omega), if_pos (by omega)]
    rfl

theorem halfBits_mono {u v : Nat} (huv : u ≤ v) (hv : v ≤ binary32.infinity) :
    halfBits u ≤ halfBits v := by
  obtain hv' | hv' := Nat.lt_or_ge v (143 * 2 ^ 23)
  · have hu := (halfBits_trunc (huv.trans_lt hv')).2.1
    have hnext := (halfBits_trunc hv').2.2
    have hlt : mag 10 (halfBits u) * 2 ^ 125 < mag 10 (halfBits v + 1) * 2 ^ 125 :=
      hu.trans_lt (((mag_strictMono 23).monotone huv).trans_lt hnext)
    have hmag := Nat.lt_of_mul_lt_mul_right hlt
    exact Nat.le_of_lt_succ ((mag_strictMono 10).lt_iff_lt.mp hmag)
  · rw [halfBits_of_ge hv' hv]
    obtain hu' | hu' := Nat.lt_or_ge u (143 * 2 ^ 23)
    · exact (halfBits_trunc hu').1.le
    · rw [halfBits_of_ge hu' (huv.trans hv)]

theorem rank_float2half {f g : UInt32} (hf : binary32.decode f.toNat ≠ .nan)
    (hg : binary32.decode g.toNat ≠ .nan) (h : binary32.rank f.toNat ≤ binary32.rank g.toNat) :
    binary16.rank (float2half f).toNat ≤ binary16.rank (float2half g).toNat := by
  obtain ⟨u, hu⟩ : ∃ u, u = f.toNat % binary32.signBit := ⟨_, rfl⟩
  obtain ⟨v, hv⟩ : ∃ v, v = g.toNat % binary32.signBit := ⟨_, rfl⟩
  have hle : u ≤ binary32.infinity := not_lt.mp fun hgt => hf (Format.decode_eq_nan.mpr (hu ▸ hgt))
  have hle' : v ≤ binary32.infinity := not_lt.mp fun hgt => hg (Format.decode_eq_nan.mpr (hv ▸ hgt))
  have hmono : u ≤ v → halfBits u ≤ halfBits v := fun huv => halfBits_mono huv hle'
  have hmono' : v ≤ u → halfBits v ≤ halfBits u := fun hvu => halfBits_mono hvu hle
  have hzero : halfBits 0 = 0 := rfl
  have hbits : (float2half f).toNat % binary16.signBit = halfBits u := hu ▸ mod_float2half f
  have hbits' : (float2half g).toNat % binary16.signBit = halfBits v := hv ▸ mod_float2half g
  unfold Format.rank at *
  rw [← hu, ← hv] at h
  rw [negative_float2half, negative_float2half, hbits, hbits']
  cases hsf : binary32.negative f.toNat <;> cases hsg : binary32.negative g.toNat <;>
    simp only [hsf, hsg, Bool.false_eq_true, if_false, if_true] at h ⊢
  · exact Int.ofNat_le.mpr (hmono (Int.ofNat_le.mp h))
  -- both are zero
  · have hu0 : u = 0 := by omega
    have hv0 : v = 0 := by omega
    rw [hu0, hv0, hzero]
    exact le_refl 0
  · omega
  · exact Int.neg_le_neg (Int.ofNat_le.mpr (hmono' (by omega)))

theorem value_ne_none {d : FloatDatum} {x : WithBot (WithTop ℚ)} (h : d.value = some x) :
    d ≠ .nan := by
  rintro rfl
  cases h

theorem isSome_value {d : FloatDatum} (h : d ≠ .nan) : ∃ x, d.value = some x := by
  cases d with
  | nan => exact absurd rfl h
  | inf s => exact ⟨_, rfl⟩
  | finite s q => exact ⟨_, rfl⟩

/-- What is not NaN becomes no NaN. -/
theorem decode_float2half_ne_nan {f : UInt32} (hf : binary32.decode f.toNat ≠ .nan) :
    binary16.decode (float2half f).toNat ≠ .nan := by
  have h := (isHalfOf_float2half f fun hlost => hf hlost.1).2
  cases hd : binary32.decode f.toNat with
  | nan => exact absurd hd hf
  | inf s =>
    rw [hd] at h
    rw [h]
    exact FloatDatum.noConfusion
  | finite s q =>
    rw [hd] at h
    dsimp only at h
    split_ifs at h
    · rw [h]
      exact FloatDatum.noConfusion
    · obtain ⟨r, hr, -⟩ := h
      rw [hr]
      exact FloatDatum.noConfusion

theorem finite_float2half {f : UInt32} {s : Bool} {q : ℚ}
    (hf : binary32.decode f.toNat = .finite s q) (hq : q < 65536) :
    ∃ r, binary16.decode (float2half f).toNat = .finite s r ∧
      IsGreatest {x | x ∈ binary16.magnitudes ∧ x ≤ q} r := by
  have hnan : binary32.decode f.toNat ≠ .nan := by
    rw [hf]
    exact FloatDatum.noConfusion
  have h := (isHalfOf_float2half f fun hlost => hnan hlost.1).2
  rw [hf] at h
  dsimp only at h
  rwa [if_neg (not_le.mpr hq)] at h

theorem unit_half : binary16.unit = 1 / 2 ^ 24 := by
  unfold Format.unit binary16
  norm_num

/-- Where infinity would be. -/
theorem mag_infinity_half :
    (mag binary16.mantissa binary16.infinity : ℚ) * binary16.unit = 65536 := by
  have hmag : mag 10 binary16.infinity = 2 ^ 10 * 2 ^ 30 :=
    mag_normal (Nat.le_refl _) (by decide) 30
  rw [show binary16.mantissa = 10 from rfl, hmag, unit_half]
  norm_num

theorem magnitude_lt {w : Nat} {s : Bool} {q : ℚ} (h : binary16.decode w = .finite s q) :
    q < 65536 := by
  obtain ⟨hu, -, rfl⟩ := Format.decode_eq_finite.mp h
  rw [← mag_infinity_half]
  exact Format.mag_mul_unit_lt.mpr hu

/-- The conversion of a finite number is to cut its digits off. -/
theorem decode_float2half_cut {f : UInt32} {s : Bool} {q : ℚ}
    (hf : binary32.decode f.toNat = .finite s q) (hnonneg : 0 ≤ q) (hq : q < 65536) :
    binary16.decode (float2half f).toNat = .finite s (binary16.cut q) := by
  obtain ⟨r, hr, hgreatest⟩ := finite_float2half hf hq
  have hcut := Format.isGreatest_cut (F := binary16) hnonneg (by rwa [mag_infinity_half])
  rw [hr, hgreatest.unique hcut]

theorem float2half_half2float {h : UInt16} (hh : binary16.decode h.toNat ≠ .nan) :
    float2half (half2float h) = h := by
  have hf := decode_half2float h
  have hf' : binary32.decode (half2float h).toNat ≠ .nan := hf ▸ hh
  have hdecode : binary16.decode (float2half (half2float h)).toNat = binary16.decode h.toNat := by
    cases hd : binary16.decode h.toNat with
    | nan => exact absurd hd hh
    | inf s =>
      have hhalf := (isHalfOf_float2half (half2float h) fun hlost => hf' hlost.1).2
      rwa [hf, hd] at hhalf
    | finite s q =>
      obtain ⟨r, hr, hgreatest⟩ := finite_float2half (hf.trans hd) (magnitude_lt hd)
      have hq : IsGreatest {x | x ∈ binary16.magnitudes ∧ x ≤ q} q :=
        ⟨⟨⟨h.toNat, s, hd⟩, le_refl q⟩, fun x hx => hx.2⟩
      rw [hr, hgreatest.unique hq]
  rw [← UInt16.toNat_inj]
  exact Format.decode_inj (UInt16.toNat_lt _) (UInt16.toNat_lt _) (hdecode ▸ hh) hdecode

/-- The conversion to half is right exactly when no payload is lost; and back in single the order is
kept, magnitudes do not grow, and halves come out as they went in. -/
theorem half_conversion (f g : UInt32) (h : UInt16) :
    (IsHalfOf f (float2half f) ↔ ¬PayloadLost f) ∧
    (∀ x y, (binary32.decode f.toNat).value = some x → (binary32.decode g.toNat).value = some y →
      x ≤ y → ∃ x' y', (binary32.decode (half2float (float2half f)).toNat).value = some x' ∧
        (binary32.decode (half2float (float2half g)).toNat).value = some y' ∧ x' ≤ y') ∧
    (∀ s q, binary32.decode f.toNat = .finite s q → q < 65536 →
      ∃ r, binary32.decode (half2float (float2half f)).toNat = .finite s r ∧ r ≤ q) ∧
    (binary16.decode h.toNat ≠ .nan → float2half (half2float h) = h) := by
  refine ⟨isHalfOf_iff f, ?_, ?_, float2half_half2float⟩
  · intro x y hx hy hxy
    have hf := value_ne_none hx
    have hg := value_ne_none hy
    obtain ⟨x', hx'⟩ := isSome_value (decode_float2half_ne_nan hf)
    obtain ⟨y', hy'⟩ := isSome_value (decode_float2half_ne_nan hg)
    rw [decode_half2float, decode_half2float]
    refine ⟨x', y', hx', hy', ?_⟩
    rw [Format.value_le_value hx' hy']
    exact rank_float2half hf hg ((Format.value_le_value hx hy).mp hxy)
  · intro s q hf hq
    obtain ⟨r, hr, hgreatest⟩ := finite_float2half hf hq
    exact ⟨r, (decode_half2float _).trans hr, hgreatest.1.2⟩

/-- A signalling NaN with a small payload becomes infinity. -/
theorem payload_lost : ¬IsHalfOf 0x7F800001 (float2half 0x7F800001) := by
  rintro ⟨-, hhalf⟩
  have hnan : binary32.decode (UInt32.toNat 0x7F800001) = .nan := by decide
  rw [hnan] at hhalf
  have hinf : binary16.decode (float2half 0x7F800001).toNat = .inf false := by decide
  rw [hinf] at hhalf
  cases hhalf

end CambriconGst.Easybang
