/-
# How far rounding moves a value

Rounding moves a ratio up by at most half a unit of its last binary digit, which is a part in `2 ^ 53`
of it (`magnitude_le_of_nearest`), and it gives no value only for a ratio that is half a unit beyond
the largest finite one (`overflowThreshold_le`).  A decimal is read in three roundings, and only the
last one of them can leave the range, so a decimal that stays below the threshold by two parts in
`2 ^ 53` has a value (`exists_ofDecimal`).

The arithmetic of the values is on natural numbers; here it is compared with the rationals.
-/
import Mathlib.Algebra.Order.Field.Power
import Mathlib.Data.Rat.Cast.Order
import Mathlib.Tactic.FieldSimp
import Mathlib.Tactic.GCongr
import Mathlib.Tactic.Linarith
import Mathlib.Tactic.NormNum
import Mathlib.Tactic.Positivity
import Mathlib.Tactic.Ring
import Tsconfig.Decimal.Scaled

namespace Tsconfig.Binary64

/-! ## 1. Values as rationals -/

/-- The absolute value. -/
def magnitude (x : Binary64) : ℚ := x.significand * 2 ^ x.exponent

/-- The significand and the exponent are those of a finite value. -/
structure IsFinite (x : Binary64) : Prop where
  significand : x.significand < significandBound
  exponent : x.exponent ≤ greatestExponent

/-- Half a unit beyond the largest finite value. -/
def overflowThreshold : ℚ := (2 ^ 54 - 1) * 2 ^ (970 : ℤ)

theorem overflowThreshold_lt : overflowThreshold < 10 ^ 309 := by
  have hnat : 2 ^ 54 * 2 ^ 970 < 10 ^ 309 := by decide +kernel
  have hcast := (Nat.cast_lt (α := ℚ)).mpr hnat
  rw [Nat.cast_mul, Nat.cast_pow, Nat.cast_pow, Nat.cast_pow, Nat.cast_ofNat, Nat.cast_ofNat] at hcast
  refine lt_of_le_of_lt ?_ hcast
  rw [overflowThreshold, zpow_ofNat]
  gcongr
  norm_num

theorem isFinite_zero : zero.IsFinite := ⟨by decide, by decide⟩

theorem IsFinite.withSign {x : Binary64} (h : x.IsFinite) (negative : Bool) :
    (x.withSign negative).IsFinite := ⟨h.significand, h.exponent⟩

theorem magnitude_nonneg (x : Binary64) : 0 ≤ x.magnitude := by
  unfold magnitude
  positivity

theorem denominator_pos (x : Binary64) : 0 < x.denominator := Nat.pow_pos (by decide)

/-- The two powers of which one is 1 make the power of the difference. -/
theorem pow_toNat_div (b : ℚ) (e : ℤ) :
    b ^ e.toNat / b ^ (-e).toNat = b ^ e := by
  rcases le_total 0 e with he | he
  · rw [Int.toNat_of_nonpos (by omega : -e ≤ 0), pow_zero, div_one, ← zpow_natCast,
      Int.toNat_of_nonneg he]
  · rw [Int.toNat_of_nonpos he, pow_zero, one_div, ← zpow_natCast,
      Int.toNat_of_nonneg (by omega : 0 ≤ -e), zpow_neg, inv_inv]

theorem numerator_div_denominator (x : Binary64) :
    (x.numerator : ℚ) / x.denominator = x.magnitude := by
  have h := pow_toNat_div 2 x.exponent
  simp only [numerator, denominator, Nat.pow_eq, Nat.cast_mul, Nat.cast_pow, Nat.cast_ofNat,
    magnitude, mul_div_assoc, h]

/-- A ratio in units of `2 ^ e`. -/
theorem scaled_div (num den : ℕ) (e : ℤ) :
    (scaledNumerator num e : ℚ) / scaledDenominator den e = num / den / 2 ^ e := by
  have h := pow_toNat_div 2 e
  simp only [scaledNumerator, scaledDenominator, Nat.pow_eq, Nat.cast_mul, Nat.cast_pow,
    Nat.cast_ofNat, ← h]
  field_simp

theorem scaledDenominator_pos {den : ℕ} (h : 0 < den) (e : ℤ) : 0 < scaledDenominator den e :=
  Nat.mul_pos h (Nat.pow_pos (by decide))

/-! ## 2. One rounding -/

/-- Rounding to an integer moves a ratio up by at most a half. -/
theorem nearestQuotient_le (num : ℕ) {den : ℕ} (h : 0 < den) :
    (nearestQuotient num den : ℚ) ≤ num / den + 1 / 2 := by
  have hden : (0 : ℚ) < den := by exact_mod_cast h
  have hdiv : den * (num / den) + num % den = num := Nat.div_add_mod num den
  have hnat : 2 * (nearestQuotient num den * den) ≤ 2 * num + den := by
    unfold nearestQuotient
    simp only
    split
    · next hup =>
      simp only [Bool.or_eq_true, Bool.and_eq_true, decide_eq_true_eq] at hup
      rw [Nat.add_mul, Nat.mul_comm (num / den)]
      omega
    · rw [Nat.mul_comm (num / den)]
      omega
  have hcast : 2 * ((nearestQuotient num den : ℚ) * den) ≤ 2 * num + den := by exact_mod_cast hnat
  rw [div_add_div _ _ hden.ne' two_ne_zero, le_div_iff₀ (by positivity)]
  linarith

section

variable {num den : ℕ} (hnum : 0 < num) (hden : 0 < den)
include hnum hden

/-- A ratio lies between the powers of two of its parts. -/
theorem log2_bounds : (2 : ℚ) ^ ((num.log2 : ℤ) - den.log2 - 1) ≤ num / den ∧
    (num / den : ℚ) < 2 ^ ((num.log2 : ℤ) - den.log2 + 1) := by
  have hn : (2 : ℚ) ^ num.log2 ≤ num := by exact_mod_cast Nat.log2_self_le hnum.ne'
  have hn' : (num : ℚ) < 2 ^ (num.log2 + 1) := by exact_mod_cast Nat.lt_log2_self
  have hd : (2 : ℚ) ^ den.log2 ≤ den := by exact_mod_cast Nat.log2_self_le hden.ne'
  have hd' : (den : ℚ) < 2 ^ (den.log2 + 1) := by exact_mod_cast Nat.lt_log2_self
  have hpos : (0 : ℚ) < den := by exact_mod_cast hden
  constructor
  · calc (2 : ℚ) ^ ((num.log2 : ℤ) - den.log2 - 1)
        = 2 ^ num.log2 / 2 ^ (den.log2 + 1) := by
          rw [sub_sub, zpow_sub₀ two_ne_zero]
          norm_cast
      _ ≤ num / den := by gcongr
  · calc (num / den : ℚ) < 2 ^ (num.log2 + 1) / 2 ^ den.log2 := by gcongr
      _ = 2 ^ ((num.log2 : ℤ) - den.log2 + 1) := by
          rw [sub_add_eq_add_sub, zpow_sub₀ two_ne_zero]
          norm_cast

/-- The exponent before the least one is taken into account leaves 53 binary digits. -/
theorem exponent_bounds : ∃ e : ℤ, exponentFor num den = max e leastExponent ∧
    2 ^ 52 ≤ (num / den : ℚ) / 2 ^ e ∧ (num / den : ℚ) / 2 ^ e < 2 ^ 53 := by
  obtain ⟨hlower, hupper⟩ := log2_bounds hnum hden
  set e : ℤ := (num.log2 : ℤ) - den.log2 - 53 with he
  have hsplit (k : ℤ) : (2 : ℚ) ^ (e + k) = 2 ^ k * 2 ^ e := by rw [add_comm, zpow_add₀ two_ne_zero]
  have hpos (k : ℤ) : (0 : ℚ) < 2 ^ k := zpow_pos two_pos k
  rw [show (num.log2 : ℤ) - den.log2 - 1 = e + 52 by omega, hsplit] at hlower
  rw [show (num.log2 : ℤ) - den.log2 + 1 = e + 54 by omega, hsplit] at hupper
  have hfits : scaledNumerator num e / scaledDenominator den e < significandBound ↔
      (num / den : ℚ) / 2 ^ e < 2 ^ 53 := by
    have hD : (0 : ℚ) < scaledDenominator den e := by exact_mod_cast scaledDenominator_pos hden e
    rw [Nat.div_lt_iff_lt_mul (scaledDenominator_pos hden e), ← scaled_div, div_lt_iff₀ hD,
      show significandBound = 2 ^ 53 by rfl]
    norm_cast
  by_cases h : (num / den : ℚ) / 2 ^ e < 2 ^ 53
  · refine ⟨e, ?_, (le_div_iff₀ (hpos e)).mpr hlower, h⟩
    simp only [exponentFor, ← he, if_pos (hfits.mpr h)]
  · refine ⟨e + 1, ?_, ?_, ?_⟩
    · simp only [exponentFor, ← he, if_neg (mt hfits.mp h)]
    · rw [not_lt, le_div_iff₀ (hpos e)] at h
      rw [le_div_iff₀ (hpos _), hsplit]
      calc (2 : ℚ) ^ 52 * (2 ^ (1 : ℤ) * 2 ^ e) = 2 ^ 53 * 2 ^ e := by norm_num; ring
        _ ≤ (num : ℚ) / den := h
    · rw [div_lt_iff₀ (hpos _), hsplit]
      calc (num / den : ℚ) < 2 ^ (54 : ℤ) * 2 ^ e := hupper
        _ = 2 ^ 53 * (2 ^ (1 : ℤ) * 2 ^ e) := by norm_num; ring

/-- At its exponent a ratio has at most 53 binary digits. -/
theorem div_lt_of_exponentFor : (num / den : ℚ) / 2 ^ exponentFor num den < 2 ^ 53 := by
  obtain ⟨e, he, _, hlt⟩ := exponent_bounds hnum hden
  refine lt_of_le_of_lt ?_ hlt
  rw [he]
  gcongr
  · norm_num
  · exact le_max_left _ _

/-- Above the least exponent it has 53. -/
theorem le_div_of_exponentFor (h : leastExponent < exponentFor num den) :
    2 ^ 52 ≤ (num / den : ℚ) / 2 ^ exponentFor num den := by
  obtain ⟨e, he, hle, _⟩ := exponent_bounds hnum hden
  rwa [he, max_eq_left]
  rw [he, lt_max_iff] at h
  omega

end

/-- The value that a positive ratio is rounded to, in range or not. -/
def rounded (num den : ℕ) : Binary64 :=
  let e := exponentFor num den
  let m := nearestQuotient (scaledNumerator num e) (scaledDenominator den e)
  if m < significandBound then ⟨false, m, e⟩ else ⟨false, m / 2, e + 1⟩

theorem nearest_eq (num den : ℕ) : nearest num den =
    if num = 0 then some zero
    else if greatestExponent < (rounded num den).exponent then none else some (rounded num den) := by
  unfold nearest rounded
  split
  · rfl
  · simp only
    split <;> rfl

section

variable {num den : ℕ} (hnum : 0 < num) (hden : 0 < den)
include hnum hden

theorem significand_rounded_lt : (rounded num den).significand < significandBound := by
  have hlt := div_lt_of_exponentFor hnum hden
  have hle := nearestQuotient_le (scaledNumerator num (exponentFor num den))
    (scaledDenominator_pos hden (exponentFor num den))
  rw [scaled_div] at hle
  unfold rounded
  simp only
  split
  · assumption
  · have : (nearestQuotient (scaledNumerator num (exponentFor num den))
        (scaledDenominator den (exponentFor num den)) : ℚ) < 2 ^ 53 + 1 := by linarith
    have hnat : nearestQuotient (scaledNumerator num (exponentFor num den))
        (scaledDenominator den (exponentFor num den)) < 2 ^ 53 + 1 := by exact_mod_cast this
    simp only [significandBound]
    omega

/-- The rounded value exceeds the ratio by at most half a unit. -/
theorem magnitude_rounded_le :
    (rounded num den).magnitude ≤ num / den + 2 ^ exponentFor num den / 2 := by
  have hle := nearestQuotient_le (scaledNumerator num (exponentFor num den))
    (scaledDenominator_pos hden (exponentFor num den))
  have hpos : (0 : ℚ) < 2 ^ exponentFor num den := zpow_pos two_pos _
  have hunits : (nearestQuotient (scaledNumerator num (exponentFor num den))
      (scaledDenominator den (exponentFor num den)) : ℚ) * 2 ^ exponentFor num den ≤
        num / den + 2 ^ exponentFor num den / 2 := by
    rw [scaled_div] at hle
    calc _ ≤ ((num : ℚ) / den / 2 ^ exponentFor num den + 1 / 2) * 2 ^ exponentFor num den := by
          gcongr
      _ = num / den + 2 ^ exponentFor num den / 2 := by field_simp
  refine le_trans ?_ hunits
  unfold rounded
  simp only
  split
  · exact le_refl _
  · -- The carry out of the significand drops its last digit.
    generalize nearestQuotient _ _ = m
    have hhalf : ((m / 2 : ℕ) : ℚ) ≤ m / 2 := by
      rw [le_div_iff₀ two_pos]
      exact_mod_cast Nat.div_mul_le_self m 2
    calc ((m / 2 : ℕ) : ℚ) * 2 ^ (exponentFor num den + 1)
        ≤ m / 2 * 2 ^ (exponentFor num den + 1) := by gcongr
      _ = m * 2 ^ exponentFor num den := by rw [zpow_add_one₀ two_ne_zero]; ring

/-- A rounded value that is out of range comes from a ratio beyond the threshold. -/
theorem overflowThreshold_le_of_rounded
    (h : greatestExponent < (rounded num den).exponent) : overflowThreshold ≤ num / den := by
  have hpos : (0 : ℚ) < 2 ^ exponentFor num den := zpow_pos two_pos _
  have hgreat (he : greatestExponent < exponentFor num den) : overflowThreshold ≤ num / den := by
    have hle := le_div_of_exponentFor hnum hden (lt_trans (by decide) he)
    rw [le_div_iff₀ hpos] at hle
    have hpow : (2 : ℚ) ^ (970 + 2 : ℤ) ≤ 2 ^ exponentFor num den :=
      zpow_le_zpow_right₀ one_le_two (by simp only [greatestExponent] at he; omega)
    rw [zpow_add₀ two_ne_zero] at hpow
    calc overflowThreshold ≤ 2 ^ 54 * 2 ^ (970 : ℤ) := by
          rw [overflowThreshold]
          gcongr
          norm_num
      _ = 2 ^ 52 * (2 ^ (970 : ℤ) * 2 ^ (2 : ℤ)) := by ring
      _ ≤ 2 ^ 52 * 2 ^ exponentFor num den := by gcongr
      _ ≤ num / den := hle
  unfold rounded at h
  simp only at h
  split at h
  · exact hgreat h
  · next hm =>
    by_cases he : greatestExponent < exponentFor num den
    · exact hgreat he
    · -- The greatest exponent, and a significand that is rounded up to the bound.
      have heq : exponentFor num den = 970 + 1 := by
        simp only [greatestExponent] at h he
        omega
      have hle := nearestQuotient_le (scaledNumerator num (exponentFor num den))
        (scaledDenominator_pos hden (exponentFor num den))
      rw [scaled_div, heq] at hle
      rw [not_lt, heq] at hm
      have hbound : (2 : ℚ) ^ 53 ≤ num / den / 2 ^ (970 + 1 : ℤ) + 1 / 2 := by
        refine le_trans ?_ hle
        exact_mod_cast hm
      rw [← sub_le_iff_le_add, le_div_iff₀ (by positivity), zpow_add_one₀ two_ne_zero] at hbound
      calc overflowThreshold = (2 ^ 53 - 1 / 2) * (2 ^ (970 : ℤ) * 2) := by
            rw [overflowThreshold]
            ring
        _ ≤ num / den := hbound

end

theorem isFinite_of_nearest {num den : ℕ} (hden : 0 < den) {x : Binary64}
    (h : nearest num den = some x) : x.IsFinite := by
  rw [nearest_eq] at h
  split at h
  · exact Option.some.inj h ▸ isFinite_zero
  · next hnum =>
    split at h
    · simp at h
    · next he =>
      obtain rfl := Option.some.inj h
      exact ⟨significand_rounded_lt (Nat.pos_of_ne_zero hnum) hden, not_lt.mp he⟩

/-- **Only a ratio beyond the threshold has no value.** -/
theorem overflowThreshold_le {num den : ℕ} (hden : 0 < den) (h : nearest num den = none) :
    overflowThreshold ≤ num / den := by
  rw [nearest_eq] at h
  split at h
  · simp at h
  · next hnum =>
    split at h
    · next he => exact overflowThreshold_le_of_rounded (Nat.pos_of_ne_zero hnum) hden he
    · simp at h

/-- A part in `2 ^ 53`. -/
def unit : ℚ := 1 / 2 ^ 53

theorem unit_pos : 0 < unit := by
  unfold unit
  positivity

theorem one_le_unit_sq : 1 ≤ (1 + unit) ^ 2 := one_le_pow₀ (le_add_of_nonneg_right unit_pos.le)

/-- **Rounding moves a ratio up by at most a part in `2 ^ 53`**, where no digits are lost to the least
exponent. -/
theorem magnitude_le_of_nearest {num den : ℕ} (hden : 0 < den) (hone : (1 : ℚ) ≤ num / den)
    {x : Binary64} (h : nearest num den = some x) : x.magnitude ≤ num / den * (1 + unit) := by
  have hnum : 0 < num := by
    by_contra hzero
    obtain rfl : num = 0 := by omega
    norm_num at hone
  have hpos : (0 : ℚ) < 2 ^ exponentFor num den := zpow_pos two_pos _
  rw [nearest_eq, if_neg hnum.ne'] at h
  split at h
  · simp at h
  · obtain rfl := Option.some.inj h
    have hleast : leastExponent < exponentFor num den := by
      have hlt := div_lt_of_exponentFor hnum hden
      rw [div_lt_iff₀ hpos] at hlt
      by_contra hle
      have hpow : (2 : ℚ) ^ exponentFor num den ≤ 2 ^ (-53 : ℤ) :=
        zpow_le_zpow_right₀ one_le_two (le_trans (not_lt.mp hle) (by decide))
      norm_num at hpow
      linarith
    have hle := le_div_of_exponentFor hnum hden hleast
    rw [le_div_iff₀ hpos] at hle
    have hmag := magnitude_rounded_le hnum hden
    calc (rounded num den).magnitude ≤ num / den + 2 ^ exponentFor num den / 2 := hmag
      _ ≤ num / den * (1 + unit) := by
        rw [unit]
        linarith

/-! ## 3. Reading a decimal -/

section

variable {x y z : Binary64}

theorem isFinite_of_mul? (h : mul? x y = some z) : z.IsFinite :=
  isFinite_of_nearest (Nat.mul_pos x.denominator_pos y.denominator_pos) h

/-- The product of two values is the rounded product of their magnitudes. -/
theorem overflowThreshold_le_of_mul? (h : mul? x y = none) :
    overflowThreshold ≤ x.magnitude * y.magnitude := by
  have hle := overflowThreshold_le (Nat.mul_pos x.denominator_pos y.denominator_pos) h
  rwa [Nat.cast_mul, Nat.cast_mul, mul_div_mul_comm, numerator_div_denominator,
    numerator_div_denominator] at hle

theorem isFinite_getD_div? (x : Binary64) {y : Binary64} (hy : 0 < y.significand) :
    ((div? x y).getD zero).IsFinite := by
  cases h : div? x y with
  | none => exact isFinite_zero
  | some z =>
    have hpos : 0 < y.numerator := Nat.mul_pos hy (Nat.pow_pos (by decide))
    exact isFinite_of_nearest (Nat.mul_pos x.denominator_pos hpos) h

end

theorem significand_powerOfTen_pos : ∀ n ≤ greatestPowerOfTen, 0 < (powerOfTen n).significand := by
  decide +kernel

theorem isFinite_scaleDown {x : Binary64} (hx : x.IsFinite) (n : ℕ) : (scaleDown x n).IsFinite := by
  fun_induction scaleDown x n with
  | case1 x n hn => exact isFinite_getD_div? x (significand_powerOfTen_pos n hn)
  | case2 x n _ _ => exact hx
  | case3 x n _ _ ih => exact ih (isFinite_getD_div? x (significand_powerOfTen_pos _ (le_refl _)))

/-- **What a decimal is read as is finite.** -/
theorem isFinite_of_ofDecimal {significand : ℕ} {exponent : ℤ} {x : Binary64}
    (h : ofDecimal significand exponent = some x) : x.IsFinite := by
  unfold ofDecimal at h
  split at h
  · simp at h
  · next y hy =>
    have hfinite : y.IsFinite := isFinite_of_nearest one_pos hy
    split at h
    · unfold scaleUp at h
      split at h
      · exact isFinite_of_mul? h
      · split at h
        · exact Option.some.inj h ▸ hfinite
        · simp at h
    · exact Option.some.inj h ▸ isFinite_scaleDown hfinite _

/-- The value to an integer exceeds it by at most a part in `2 ^ 53`. -/
theorem magnitude_le_of_nearest_one {n : ℕ} {x : Binary64} (h : nearest n 1 = some x) :
    x.magnitude ≤ n * (1 + unit) := by
  by_cases hn : n = 0
  · subst hn
    rw [nearest_zero] at h
    obtain rfl := Option.some.inj h
    simp [magnitude, zero]
  · have hone : (1 : ℚ) ≤ (n : ℚ) / (1 : ℕ) := by
      rw [Nat.cast_one, div_one]
      exact_mod_cast Nat.one_le_iff_ne_zero.mpr hn
    simpa using magnitude_le_of_nearest one_pos hone h

theorem magnitude_powerOfTen_le (n : ℕ) : (powerOfTen n).magnitude ≤ 10 ^ n * (1 + unit) := by
  unfold powerOfTen
  cases h : nearest (Nat.pow 10 n) 1 with
  | none =>
    have hunit := unit_pos
    rw [Option.getD_none, magnitude, zero, Nat.cast_zero, zero_mul]
    positivity
  | some x => simpa using magnitude_le_of_nearest_one h

/-- A significand that stays below the threshold with a power of ten beyond the table is zero. -/
theorem significand_eq_zero {significand n : ℕ} (hn : greatestPowerOfTen < n)
    (h : significand * 10 ^ n * (1 + unit) ^ 2 < overflowThreshold) : significand = 0 := by
  by_contra hne
  have hone : (1 : ℚ) ≤ significand := by exact_mod_cast Nat.one_le_iff_ne_zero.mpr hne
  have hlarge : (10 : ℚ) ^ 309 ≤ 10 ^ n :=
    pow_le_pow_right₀ (by norm_num) (by simp only [greatestPowerOfTen] at hn; omega)
  have hall : (10 : ℚ) ^ 309 ≤ significand * 10 ^ n * (1 + unit) ^ 2 :=
    calc (10 : ℚ) ^ 309 ≤ 10 ^ n := hlarge
      _ ≤ significand * 10 ^ n := le_mul_of_one_le_left (by positivity) hone
      _ ≤ significand * 10 ^ n * (1 + unit) ^ 2 := le_mul_of_one_le_right (by positivity) one_le_unit_sq
  exact absurd h (not_lt.mpr (overflowThreshold_lt.le.trans hall))

/-- **A decimal that stays below the threshold by two roundings has a value.** -/
theorem exists_ofDecimal {significand : ℕ} {exponent : ℤ}
    (h : significand * 10 ^ exponent.toNat * (1 + unit) ^ 2 < overflowThreshold) :
    ∃ x, ofDecimal significand exponent = some x := by
  have hunit : (0 : ℚ) < unit := unit_pos
  have hpow (n : ℕ) : (1 : ℚ) ≤ 10 ^ n := one_le_pow₀ (by norm_num)
  unfold ofDecimal
  cases hx : nearest significand 1 with
  | none =>
    -- The significand alone is no greater.
    have hle := overflowThreshold_le one_pos hx
    rw [Nat.cast_one, div_one] at hle
    have hfirst : (significand : ℚ) ≤ significand * 10 ^ exponent.toNat * (1 + unit) ^ 2 := by
      rw [mul_assoc]
      refine le_mul_of_one_le_right (Nat.cast_nonneg _) ?_
      exact one_le_mul_of_one_le_of_one_le (hpow _) one_le_unit_sq
    exact absurd h (not_lt.mpr (hle.trans hfirst))
  | some x =>
    have hmag := magnitude_le_of_nearest_one hx
    by_cases he : 0 ≤ exponent
    · simp only [if_pos he]
      unfold scaleUp
      by_cases hn : exponent.toNat ≤ greatestPowerOfTen
      · rw [if_pos hn]
        cases hy : mul? x (powerOfTen exponent.toNat) with
        | some y => exact ⟨y, rfl⟩
        | none =>
          have hten := magnitude_powerOfTen_le exponent.toNat
          have hle := overflowThreshold_le_of_mul? hy
          have hprod : x.magnitude * (powerOfTen exponent.toNat).magnitude ≤
              significand * (1 + unit) * (10 ^ exponent.toNat * (1 + unit)) :=
            mul_le_mul hmag hten (magnitude_nonneg _) (by positivity)
          exact absurd h (not_lt.mpr (by linarith))
      · -- Only zero stays below the threshold.
        rw [if_neg hn]
        obtain rfl := significand_eq_zero (not_le.mp hn) h
        rw [nearest_zero] at hx
        obtain rfl := Option.some.inj hx
        exact ⟨zero, if_pos rfl⟩
    · simp only [if_neg he]
      exact ⟨_, rfl⟩

end Tsconfig.Binary64
