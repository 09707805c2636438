/-
# How large the shortest decimal is

The shortest decimal of a value lies in the interval of the reals that round to it, so it exceeds the
value by at most half a unit (`shortest_bounds`), and its digits are not zero.  Only a search that meets
no grid at all would end with zero digits.
-/
import Tsconfig.Decimal.Shortest
import Tsconfig.Proofs.Decimal.Rounding

namespace Tsconfig.Binary64

theorem nearestQuotient_eq (num den : ℕ) :
    nearestQuotient num den = num / den ∨ nearestQuotient num den = num / den + 1 := by
  unfold nearestQuotient
  simp only
  split
  · exact .inr rfl
  · exact .inl rfl

namespace Reach

variable {r : Reach} {k : ℤ} {d : ℕ}

theorem unitNumerator_pos (r : Reach) (k : ℤ) : 0 < r.unitNumerator k :=
  Nat.mul_pos (Nat.pow_pos (by decide)) (Nat.pow_pos (by decide))

theorem unitDenominator_pos (r : Reach) (k : ℤ) : 0 < r.unitDenominator k :=
  Nat.mul_pos (Nat.pow_pos (by decide)) (Nat.pow_pos (by decide))

theorem unit_div (r : Reach) (k : ℤ) :
    (r.unitNumerator k : ℚ) / r.unitDenominator k = 2 ^ r.exponent / 10 ^ k := by
  have htwo := pow_toNat_div 2 r.exponent
  have hten := pow_toNat_div 10 k
  simp only [unitNumerator, unitDenominator, Nat.pow_eq, Nat.cast_mul, Nat.cast_pow, Nat.cast_ofNat,
    ← htwo, ← hten]
  field_simp

/-- What lies in the interval is not beyond its upper end. -/
theorem le_of_holds (h : r.holds k d = true) : (d : ℚ) * 10 ^ k ≤ r.high * 2 ^ r.exponent := by
  have hnat : d * r.unitDenominator k ≤ r.high * r.unitNumerator k := by
    simp only [holds, Bool.and_eq_true, Bool.or_eq_true, decide_eq_true_eq] at h
    omega
  have hden : (0 : ℚ) < r.unitDenominator k := by exact_mod_cast r.unitDenominator_pos k
  have hten : (0 : ℚ) < 10 ^ k := zpow_pos (by norm_num) k
  have hcast : (d : ℚ) * r.unitDenominator k ≤ r.high * r.unitNumerator k := by exact_mod_cast hnat
  rw [← le_div_iff₀ hden, mul_div_assoc, unit_div, ← mul_div_assoc, le_div_iff₀ hten] at hcast
  exact hcast

theorem pos_of_holds (h : r.holds k d = true) (hlow : 0 < r.low) : 0 < d := by
  have hnat : r.low * r.unitNumerator k ≤ d * r.unitDenominator k := by
    simp only [holds, Bool.and_eq_true, Bool.or_eq_true, decide_eq_true_eq] at h
    omega
  have hpos : 0 < r.low * r.unitNumerator k := Nat.mul_pos hlow (r.unitNumerator_pos k)
  exact Nat.pos_of_mul_pos_right (lt_of_lt_of_le hpos hnat)

/-- The grid point lies in the interval. -/
theorem holds_of_gridPoint (h : r.gridPoint k = some d) : r.holds k d = true := by
  unfold gridPoint at h
  simp only at h
  split at h
  · next hlow hhigh =>
    obtain rfl := Option.some.inj h
    rcases nearestQuotient_eq (r.middle * r.unitNumerator k) (r.unitDenominator k) with hq | hq
    · rwa [hq]
    · rwa [hq]
  · next hlow _ => exact Option.some.inj h ▸ hlow
  · next hhigh => exact Option.some.inj h ▸ hhigh
  · simp at h

/-- The search ends with a point of the interval, unless it meets no grid. -/
theorem coarsest_spec (r : Reach) (n : ℕ) (k : ℤ) : r.coarsest n k = ⟨0, k - n⟩ ∨
    (r.holds (r.coarsest n k).power (r.coarsest n k).digits = true ∧
      k - n < (r.coarsest n k).power) := by
  induction n generalizing k with
  | zero => exact .inl (by simp [coarsest])
  | succ n ih =>
    unfold coarsest
    cases hd : r.gridPoint k with
    | some d => exact .inr ⟨holds_of_gridPoint hd, by simp only; omega⟩
    | none =>
      simp only
      have hsub : k - 1 - (n : ℤ) = k - (n + 1 : ℕ) := by push_cast; ring
      rw [← hsub]
      exact ih (k - 1)

end Reach

/-- **The shortest decimal of a value is not beyond the upper end of its interval.** -/
theorem shortest_bounds {x : Binary64} (hx : x.isZero = false) : x.shortest = ⟨0, -1075⟩ ∨
    (0 < x.shortest.digits ∧ -1075 < x.shortest.power ∧
      (x.shortest.digits : ℚ) * 10 ^ x.shortest.power ≤
        (4 * x.significand + 2) * 2 ^ (x.exponent - 2)) := by
  have hpos : 0 < x.significand := by
    simpa [isZero, Nat.pos_iff_ne_zero] using hx
  have hlow : 0 < x.reach.low := by
    simp only [reach]
    split <;> omega
  rcases x.reach.coarsest_spec gridCount topPower with h | ⟨h, hpower⟩
  · exact .inl h
  · refine .inr ⟨Reach.pos_of_holds h hlow, hpower, ?_⟩
    have hle := Reach.le_of_holds h
    have hhigh : (x.reach.high : ℚ) = 4 * x.significand + 2 := by simp [reach]
    rwa [hhigh] at hle

/-- The values but the two greatest ones. -/
def IsBelowGreatest (x : Binary64) : Prop :=
  x.exponent < greatestExponent ∨ x.significand + 2 < significandBound

instance (x : Binary64) : Decidable x.IsBelowGreatest := by
  unfold IsBelowGreatest
  infer_instance

/-- The interval of a finite value ends below the threshold, and but for the two greatest values it does
so by two roundings. -/
theorem reach_lt {x : Binary64} (hx : x.IsFinite) (hbelow : x.IsBelowGreatest) :
    ((4 * x.significand + 2) * 2 ^ (x.exponent - 2) : ℚ) * (1 + unit) ^ 2 < overflowThreshold := by
  have hgreatest : ((4 * x.significand + 2) * 2 ^ (x.exponent - 2) : ℚ) ≤
      (2 ^ 54 - 5) * 2 ^ (970 : ℤ) := by
    have hsig := hx.significand
    have hexp := hx.exponent
    simp only [significandBound, greatestExponent, IsBelowGreatest] at hsig hexp hbelow
    by_cases he : x.exponent = 971
    · have hm : (x.significand : ℚ) ≤ 2 ^ 53 - 3 := by
        have hnat : x.significand + 3 ≤ 2 ^ 53 := by omega
        have hcast : (x.significand : ℚ) + 3 ≤ 2 ^ 53 := by exact_mod_cast hnat
        linarith
      rw [he, show (971 - 2 : ℤ) = 970 - 1 by norm_num, zpow_sub_one₀ two_ne_zero]
      calc (4 * (x.significand : ℚ) + 2) * (2 ^ (970 : ℤ) * 2⁻¹)
          ≤ (4 * (2 ^ 53 - 3) + 2) * (2 ^ (970 : ℤ) * 2⁻¹) := by gcongr
        _ = (2 ^ 54 - 5) * 2 ^ (970 : ℤ) := by ring
    · have hm : (x.significand : ℚ) ≤ 2 ^ 53 := by
        have hnat : x.significand ≤ 2 ^ 53 := by omega
        exact_mod_cast hnat
      have hpow : (2 : ℚ) ^ (x.exponent - 2) ≤ 2 ^ (970 : ℤ) / 2 ^ (2 : ℤ) := by
        rw [← zpow_sub₀ two_ne_zero]
        exact zpow_le_zpow_right₀ one_le_two (by omega)
      calc (4 * (x.significand : ℚ) + 2) * 2 ^ (x.exponent - 2)
          ≤ (4 * 2 ^ 53 + 2) * (2 ^ (970 : ℤ) / 2 ^ (2 : ℤ)) := by gcongr
        _ = (2 ^ 53 + 1 / 2) * 2 ^ (970 : ℤ) := by ring
        _ ≤ (2 ^ 54 - 5) * 2 ^ (970 : ℤ) := by
          gcongr
          norm_num
  have hpos : (0 : ℚ) < 2 ^ (970 : ℤ) := zpow_pos two_pos _
  calc ((4 * x.significand + 2) * 2 ^ (x.exponent - 2) : ℚ) * (1 + unit) ^ 2
      ≤ (2 ^ 54 - 5) * 2 ^ (970 : ℤ) * (1 + unit) ^ 2 := by
        gcongr
    _ = (2 ^ 54 - 5) * (1 + unit) ^ 2 * 2 ^ (970 : ℤ) := by ring
    _ < overflowThreshold := by
      rw [overflowThreshold]
      gcongr
      norm_num [unit]

end Tsconfig.Binary64
