/-
# Every number can be read again

The text of a number that was read is read as a number (`Number.exists_readsTo`), though not always as
the same one: the digits of a decimal are read exactly, but the value of the decimal is rounded more than
once.  The only thing that could go wrong is a value out of range, and the shortest decimal of a finite
value stays below the threshold by more than the roundings add, except for the two greatest values, which
are evaluated.

A reader of digits may not take all of them.  What it leaves only makes the number smaller
(`digitsUpTo_digits`), and the powers of ten that it drops are given back by the exponent.
-/
import Tsconfig.Proofs.Decimal.Shortest
import Tsconfig.Proofs.Json.Lexeme

namespace Tsconfig.Json

open Reader Binary64

namespace Reader

/-! ## 1. Digits -/

/-- A row of digits. -/
def AreDigits (ds : List Char) : Prop := ∀ c ∈ ds, c.isDigit = true

@[simp] theorem areDigits_cons {c : Char} {ds : List Char} :
    AreDigits (c :: ds) ↔ c.isDigit = true ∧ AreDigits ds := List.forall_mem_cons

@[simp] theorem areDigits_append {ds es : List Char} :
    AreDigits (ds ++ es) ↔ AreDigits ds ∧ AreDigits es := List.forall_mem_append

theorem areDigits_zeros (k : ℕ) : AreDigits (List.replicate k '0') := by
  intro c hc
  obtain rfl := List.eq_of_mem_replicate hc
  decide

theorem areDigits_digitsOf (n : ℕ) : AreDigits (digitsOf n) :=
  fun _ hc => Nat.isDigit_of_mem_toDigits (by decide) (by decide) hc

theorem ofDigitChars_digitsOf (n : ℕ) : Nat.ofDigitChars 10 (digitsOf n) 0 = n :=
  Nat.ofDigitChars_toDigits (by decide) (by decide)

theorem AreDigits.endsDigits_append {ds rest : List Char} (h : AreDigits ds) (hr : EndsDigits rest) :
    (ds ++ rest).dropWhile Char.isDigit = rest :=
  (List.dropWhile_append_of_pos h).trans hr.dropDigits

theorem digitValue_le {c : Char} (h : c.isDigit = true) : digitValue c ≤ 9 := by
  have hc := (Char.isDigit_iff_toNat.mp h).2
  rw [digitValue, Nat.sub_le_iff_le_add]
  exact hc

/-- Digits behind a number only make it greater. -/
theorem mul_pow_le_ofDigitChars (ds : List Char) (n : ℕ) :
    n * 10 ^ ds.length ≤ Nat.ofDigitChars 10 ds n := by
  rw [Nat.ofDigitChars_eq_ofDigitChars_zero, Nat.mul_comm]
  exact Nat.le_add_right _ _

/-- **Digits are read up to the bound**, and with zeros in the place of the others the number is no
greater than with all of them. -/
theorem digitsUpTo_digits {bound : ℕ} {ds : List Char} (h : AreDigits ds) :
    ∀ n ≤ bound, (digitsUpTo bound n ds).1 ≤ bound ∧ AreDigits (digitsUpTo bound n ds).2 ∧
      (digitsUpTo bound n ds).2.length ≤ ds.length ∧
      (digitsUpTo bound n ds).1 * 10 ^ (digitsUpTo bound n ds).2.length ≤
        Nat.ofDigitChars 10 ds n := by
  induction ds with
  | nil =>
    intro n hn
    simpa [digitsUpTo, AreDigits] using hn
  | cons c ds ih =>
    intro n hn
    have hds : AreDigits ds := (areDigits_cons.mp h).2
    by_cases hc : (c.isDigit && n * 10 + digitValue c ≤ bound) = true
    · have hle : n * 10 + digitValue c ≤ bound := by
        simp only [Bool.and_eq_true, decide_eq_true_eq] at hc
        exact hc.2
      obtain ⟨hbound, hdigits, hlen, hvalue⟩ := ih hds _ hle
      simp only [digitsUpTo, if_pos hc]
      refine ⟨hbound, hdigits, by simp only [List.length_cons]; omega, ?_⟩
      rw [Nat.ofDigitChars_cons, Nat.mul_comm 10]
      exact hvalue
    · simp only [digitsUpTo, if_neg hc]
      exact ⟨hn, h, le_refl _, mul_pow_le_ofDigitChars (c :: ds) n⟩

/-- Digits of a number within the bound are all read. -/
theorem digitsUpTo_of_le (bound : ℕ) {ds : List Char} (h : AreDigits ds) :
    ∀ n, Nat.ofDigitChars 10 ds n ≤ bound →
      digitsUpTo bound n ds = (Nat.ofDigitChars 10 ds n, []) := by
  induction ds with
  | nil =>
    intro n _
    rfl
  | cons c ds ih =>
    intro n hn
    obtain ⟨hdigit, hds⟩ := areDigits_cons.mp h
    rw [Nat.ofDigitChars_cons, Nat.mul_comm 10] at hn ⊢
    have hle : n * 10 + digitValue c ≤ bound :=
      le_trans (Nat.le_mul_of_pos_right _ (Nat.pow_pos (by decide)))
        (le_trans (mul_pow_le_ofDigitChars ds _) hn)
    have hc : (c.isDigit && n * 10 + digitValue c ≤ bound) = true := by
      simp [hdigit, hle]
    simp only [digitsUpTo, if_pos hc]
    exact ih hds _ hn

/-- The first digit of a number, and the reading of the others behind it. -/
theorem exists_digitsOf {bound n : ℕ} (hn : n ≤ bound) : ∃ c ds, digitsOf n = c :: ds ∧
    c.isDigit = true ∧ digitsUpTo bound (digitValue c) ds = (n, []) := by
  have hdigits := areDigits_digitsOf n
  have hvalue := ofDigitChars_digitsOf n
  cases hds : digitsOf n with
  | nil => exact absurd hds Nat.toDigits_ne_nil
  | cons c ds =>
    rw [hds] at hdigits hvalue
    obtain ⟨hc, htail⟩ := areDigits_cons.mp hdigits
    rw [Nat.ofDigitChars_cons, Nat.mul_zero, Nat.zero_add] at hvalue
    have hall := digitsUpTo_of_le bound htail (digitValue c) (le_of_eq_of_le hvalue hn)
    exact ⟨c, ds, rfl, hc, hall.trans (congrArg (·, []) hvalue)⟩

/-! ## 2. The parts of a number -/

section

variable (negative : Bool) (significand : ℕ) (exponent : ℤ) {ds rest : List Char}

/-- An exponent that is not too long is added, or subtracted. -/
theorem exponentDigits_digitsOf {e : ℕ} (he : e ≤ Reader.greatestExponent) (down : Bool) :
    exponentDigits negative significand exponent down (digitsOf e) =
      realNumber negative significand (if down then exponent - e else exponent + e) [] := by
  obtain ⟨c, ds, hds, hc, hall⟩ := exists_digitsOf he
  simp only [hds, exponentDigits, if_pos hc, hall]

/-- The text of an exponent is read as the exponent. -/
theorem exponentPart_exponentText {e : ℤ} (he : e.natAbs ≤ Reader.greatestExponent) :
    ∃ text, exponentText e = 'e' :: text ∧
      exponentPart negative significand exponent text =
        realNumber negative significand (exponent + e) [] := by
  by_cases hneg : e < 0
  · refine ⟨'-' :: digitsOf e.natAbs, by simp [exponentText, hneg], ?_⟩
    rw [exponentPart, exponentDigits_digitsOf _ _ _ he, if_pos rfl]
    congr 1
    omega
  · refine ⟨'+' :: digitsOf e.natAbs, by simp [exponentText, hneg], ?_⟩
    rw [exponentPart, exponentDigits_digitsOf _ _ _ he, if_neg (by decide)]
    congr 1
    omega

theorem endsDigits_exponentText (e : ℤ) : EndsDigits (exponentText e) := by
  intro c hc
  obtain rfl : 'e' = c := by simpa [exponentText] using hc
  decide

/-- Digits behind a point make the exponent smaller by as many as are read. -/
theorem fraction_digits (hds : AreDigits ds) (hne : ds ≠ []) (hr : EndsDigits rest)
    (hs : significand ≤ greatestInteger) : ∃ s k, s ≤ greatestInteger ∧ k ≤ ds.length ∧
      s * 10 ^ k ≤ Nat.ofDigitChars 10 ds significand ∧
      fraction negative significand exponent (ds ++ rest) =
        decimalEnd negative s (exponent - (ds.length - k : ℕ)) rest := by
  obtain ⟨hbound, hdigits, hlen, hvalue⟩ := digitsUpTo_digits hds significand hs
  refine ⟨_, _, hbound, hlen, hvalue, ?_⟩
  have hpos : 0 < ds.length := List.length_pos_iff.mpr hne
  simp only [fraction, digitsUpTo_append hr, hdigits.endsDigits_append hr, List.length_append,
    if_neg (show ¬ rest.length = ds.length + rest.length by omega), Nat.add_sub_add_right]

/-- Digits before a point.  The ones that do not fit count for the exponent. -/
theorem number_digits {c : Char} (hc : c ≠ '0') (hds : AreDigits (c :: ds)) (hr : EndsDigits rest) :
    ∃ s k, s ≤ greatestInteger ∧ k ≤ ds.length ∧
      s * 10 ^ k ≤ Nat.ofDigitChars 10 (c :: ds) 0 ∧
      number negative (c :: ds ++ rest) = numberEnd negative s k rest := by
  have hdigit : c.isDigit = true := (areDigits_cons.mp hds).1
  have hc9 : digitValue c ≤ greatestInteger := le_trans (digitValue_le hdigit) (by decide)
  obtain ⟨hbound, hdigits, hlen, hvalue⟩ :=
    digitsUpTo_digits (areDigits_cons.mp hds).2 _ hc9
  refine ⟨_, _, hbound, hlen, ?_, ?_⟩
  · rw [Nat.ofDigitChars_cons, Nat.mul_zero, Nat.zero_add]
    exact hvalue
  · simp only [List.cons_append, number, if_neg hc, if_pos hdigit, digitsUpTo_append hr,
      hdigits.endsDigits_append hr, List.length_append, Nat.add_sub_cancel]

/-- One digit before a point or an exponent. -/
theorem number_digit {c : Char} (hc : c.isDigit = true) (hr : EndsDigits rest) :
    number negative (c :: rest) = numberEnd negative (digitValue c) 0 rest := by
  by_cases h0 : c = '0'
  · subst h0
    cases rest with
    | nil => rfl
    | cons d rest => simp [number, hr d rfl, digitValue]
  · have hnone := digitsUpTo_append hr greatestInteger [] (digitValue c)
    rw [List.nil_append] at hnone
    simp only [number, if_neg h0, if_pos hc, hnone, digitsUpTo, hr.dropDigits, List.nil_append,
      Nat.sub_self]

end

/-! ## 3. The text of a decimal -/

theorem digitsOf_eq_cons {d : ℕ} (h : 0 < d) : ∃ c ds, digitsOf d = c :: ds ∧ c ≠ '0' := by
  have hhead : ∀ d, 0 < d → (digitsOf d).head? ≠ some '0' := by
    intro d
    induction d using Nat.strongRecOn with
    | ind d ih =>
      intro hd
      rw [digitsOf, Nat.toDigits_eq_if (by decide)]
      split
      · next hlt =>
        have hchar : ∀ k < 10, 0 < k → k.digitChar ≠ '0' := by decide
        simpa using hchar d hlt hd
      · next hlt =>
        rw [List.head?_append_of_ne_nil _ Nat.toDigits_ne_nil]
        exact ih (d / 10) (by omega) (by omega)
  cases hds : digitsOf d with
  | nil => exact absurd hds Nat.toDigits_ne_nil
  | cons c ds =>
    refine ⟨c, ds, rfl, ?_⟩
    have := hhead d h
    rw [hds] at this
    simpa using this

theorem pow_length_le {d : ℕ} (h : 0 < d) : 10 ^ ((digitsOf d).length - 1) ≤ d := by
  by_cases hlen : (digitsOf d).length - 1 = 0
  · rw [hlen, pow_zero]
    exact h
  · by_contra hlt
    have hle := (Nat.length_toDigits_le_iff (by decide) (by omega)).mpr (not_le.mp hlt)
    rw [digitsOf] at hlen hle
    omega

theorem small_lt : (greatestInteger * 10 ^ (16 : ℤ) : ℚ) * (1 + unit) ^ 2 < overflowThreshold := by
  have hpow : (2 : ℚ) ^ (100 : ℤ) ≤ 2 ^ (970 : ℤ) := zpow_le_zpow_right₀ one_le_two (by norm_num)
  calc (greatestInteger * 10 ^ (16 : ℤ) : ℚ) * (1 + unit) ^ 2 < (2 ^ 54 - 1) * 2 ^ (100 : ℤ) := by
        norm_num [greatestInteger, unit]
    _ ≤ overflowThreshold := by
      rw [overflowThreshold]
      exact mul_le_mul_of_nonneg_left hpow (by norm_num)

section

variable {negative : Bool} {significand : ℕ} {exponent : ℤ} {limit : ℚ}

/-- A decimal within a limit that lies below the threshold by two roundings is read as a number. -/
theorem exists_realNumber (hs : significand ≤ greatestInteger)
    (hle : (significand : ℚ) * 10 ^ exponent ≤ limit)
    (hlimit : limit * (1 + unit) ^ 2 < overflowThreshold) :
    ∃ n, realNumber negative significand exponent [] = .ok (n, []) := by
  have hsquare : (0 : ℚ) ≤ (1 + unit) ^ 2 := sq_nonneg _
  have hvalue : (significand : ℚ) * 10 ^ exponent.toNat * (1 + unit) ^ 2 < overflowThreshold := by
    by_cases he : 0 ≤ exponent
    · have hpow : (10 : ℚ) ^ exponent.toNat = 10 ^ exponent := by
        rw [← zpow_natCast, Int.toNat_of_nonneg he]
      rw [hpow]
      exact lt_of_le_of_lt (mul_le_mul_of_nonneg_right hle hsquare) hlimit
    · have hcast : (significand : ℚ) ≤ greatestInteger := by exact_mod_cast hs
      rw [Int.toNat_of_nonpos (by omega), pow_zero, mul_one]
      refine lt_of_le_of_lt (mul_le_mul_of_nonneg_right ?_ hsquare) small_lt
      exact hcast.trans (le_mul_of_one_le_right (by positivity) (by norm_num))
  obtain ⟨x, hx⟩ := exists_ofDecimal hvalue
  exact ⟨.real (x.withSign negative), by simp only [realNumber, hx]⟩

/-- So is one with a small exponent. -/
theorem exists_realNumber_of_small (hs : significand ≤ greatestInteger) (he : exponent ≤ 16) :
    ∃ n, realNumber negative significand exponent [] = .ok (n, []) := by
  refine exists_realNumber hs ?_ small_lt
  have hcast : (significand : ℚ) ≤ greatestInteger := by exact_mod_cast hs
  have hpow : (10 : ℚ) ^ exponent ≤ 10 ^ (16 : ℤ) := zpow_le_zpow_right₀ (by norm_num) he
  exact mul_le_mul hcast hpow (by positivity) (by positivity)

/-- Digits behind a point at the end of a number. -/
theorem exists_fraction {ds : List Char} (hds : AreDigits ds) (hne : ds ≠ [])
    (hs : significand ≤ greatestInteger) (he : exponent ≤ 16) :
    ∃ n, fraction negative significand exponent ds = .ok (n, []) := by
  obtain ⟨s, k, hs', _, _, hread⟩ := fraction_digits negative _ exponent hds hne endsDigits_nil hs
  rw [List.append_nil, decimalEnd_eq (by simp [NoExponent])] at hread
  rw [hread]
  exact exists_realNumber_of_small hs' (by omega)

/-- A decimal with a point in place. -/
theorem exists_number_pointed {c : Char} {ds fs : List Char} (hc : c ≠ '0') (hds : AreDigits (c :: ds))
    (hlen : ds.length ≤ 15) (hfs : AreDigits fs) (hne : fs ≠ []) :
    ∃ n, number negative (c :: ds ++ '.' :: fs) = .ok (n, []) := by
  obtain ⟨s, k, hs, hk, _, hread⟩ :=
    number_digits negative hc hds (endsDigits_cons (c := '.') (by decide) fs)
  rw [hread, numberEnd]
  exact exists_fraction hfs hne hs (by omega)

/-- A decimal of one digit with an exponent. -/
theorem exists_number_single {c : Char} (hc : c.isDigit = true)
    (hle : (digitValue c : ℚ) * 10 ^ exponent ≤ limit)
    (hlimit : limit * (1 + unit) ^ 2 < overflowThreshold)
    (hshort : exponent.natAbs ≤ Reader.greatestExponent) :
    ∃ n, number negative (c :: exponentText exponent) = .ok (n, []) := by
  obtain ⟨text, htext, hread⟩ := exponentPart_exponentText negative (digitValue c) 0 hshort
  rw [number_digit _ hc (endsDigits_exponentText exponent), htext, numberEnd, Nat.cast_zero, hread,
    zero_add]
  exact exists_realNumber (le_trans (digitValue_le hc) (by decide)) hle hlimit

/-- A decimal of more digits with an exponent. -/
theorem exists_number_scientific {c : Char} {ds : List Char} (hds : AreDigits (c :: ds)) (hne : ds ≠ [])
    (hle : (Nat.ofDigitChars 10 (c :: ds) 0 : ℚ) * 10 ^ (exponent - ds.length) ≤ limit)
    (hlimit : limit * (1 + unit) ^ 2 < overflowThreshold)
    (hshort : exponent.natAbs ≤ Reader.greatestExponent) :
    ∃ n, number negative (c :: '.' :: ds ++ exponentText exponent) = .ok (n, []) := by
  have hc : c.isDigit = true := (areDigits_cons.mp hds).1
  obtain ⟨s, k, hs, hk, hvalue, hfraction⟩ := fraction_digits negative (digitValue c) 0
    (areDigits_cons.mp hds).2 hne (endsDigits_exponentText exponent)
    (le_trans (digitValue_le hc) (by decide : 9 ≤ greatestInteger))
  obtain ⟨text, htext, hread⟩ :=
    exponentPart_exponentText negative s (0 - (ds.length - k : ℕ)) hshort
  rw [List.cons_append, List.cons_append, number_digit _ hc (endsDigits_cons (by decide) _), numberEnd,
    Nat.cast_zero, hfraction, htext, decimalEnd, hread]
  -- The digits that are left out count for the exponent.
  refine exists_realNumber hs (le_trans ?_ hle) hlimit
  have hexponent : 0 - ((ds.length - k : ℕ) : ℤ) + exponent = k + (exponent - ds.length) := by omega
  have hten : (0 : ℚ) < 10 ^ (exponent - ds.length) := zpow_pos (by norm_num) _
  have hcast : (s : ℚ) * 10 ^ k ≤ Nat.ofDigitChars 10 (c :: ds) 0 := by
    rw [Nat.ofDigitChars_cons, Nat.mul_zero, Nat.zero_add]
    exact_mod_cast hvalue
  rw [hexponent, zpow_add₀ (by norm_num), zpow_natCast, ← mul_assoc]
  gcongr

/-- A decimal below the threshold has an exponent of at most three digits. -/
theorem natAbs_le_of_decimal {d : ℕ} {power : ℤ} (hd : 0 < d) (hpower : -1075 < power)
    (hle : (d : ℚ) * 10 ^ power ≤ limit) (hlimit : limit * (1 + unit) ^ 2 < overflowThreshold) :
    ((digitsOf d).length + power - 1).natAbs ≤ Reader.greatestExponent := by
  have hlen : 0 < (digitsOf d).length := List.length_pos_iff.mpr Nat.toDigits_ne_nil
  have hten : (0 : ℚ) < 10 ^ power := zpow_pos (by norm_num) _
  have hdigits : (10 : ℚ) ^ ((digitsOf d).length - 1) ≤ d := by exact_mod_cast pow_length_le hd
  have hnonneg : 0 ≤ limit := le_trans (by positivity) hle
  have hlt : (10 : ℚ) ^ ((digitsOf d).length + power - 1) < 10 ^ (309 : ℤ) :=
    calc (10 : ℚ) ^ ((digitsOf d).length + power - 1)
        = 10 ^ ((digitsOf d).length - 1) * 10 ^ power := by
          rw [← zpow_natCast, ← zpow_add₀ (by norm_num)]
          congr 1
          omega
      _ ≤ d * 10 ^ power := by gcongr
      _ ≤ limit := hle
      _ ≤ limit * (1 + unit) ^ 2 := le_mul_of_one_le_right hnonneg one_le_unit_sq
      _ < overflowThreshold := hlimit
      _ < 10 ^ (309 : ℤ) := overflowThreshold_lt
  have hplace := (zpow_lt_zpow_iff_right₀ (by norm_num : (1 : ℚ) < 10)).mp hlt
  simp only [Reader.greatestExponent]
  omega

/-- Digits with the point in place are read as a number. -/
theorem exists_number_near {c : Char} {ds : List Char} {place : ℤ} (hc : c ≠ '0')
    (hds : AreDigits (c :: ds))
    (hnear : (numberStyle.leastPlace ≤ place && place ≤ numberStyle.greatestPlace) = true) :
    ∃ n, number negative (written numberStyle (c :: ds) place) = .ok (n, []) := by
  have hgreatest : place ≤ 16 := of_decide_eq_true (Bool.and_eq_true_iff.mp hnear).2
  obtain ⟨hfirst, htail⟩ := areDigits_cons.mp hds
  unfold written
  rw [if_pos hnear]
  by_cases hpos : place ≤ 0
  · -- The point stands in front of the digits.
    have htext : "0.".toList ++ List.replicate (-place).toNat '0' ++ c :: ds =
        '0' :: '.' :: (List.replicate (-place).toNat '0' ++ c :: ds) := by simp
    rw [if_pos hpos, htext, number_digit _ (by decide) (endsDigits_cons (by decide) _), numberEnd]
    exact exists_fraction (areDigits_append.mpr ⟨areDigits_zeros _, hds⟩) (by simp) (by decide) (by decide)
  · rw [if_neg hpos]
    obtain ⟨n, hn⟩ : ∃ n : ℕ, place.toNat = n + 1 := ⟨place.toNat - 1, by omega⟩
    simp only [hn]
    by_cases hlen : (c :: ds).length ≤ n + 1
    · -- The point stands behind the digits, and zeros in between.
      rw [if_pos hlen, List.cons_append]
      refine exists_number_pointed hc ?_ ?_ (areDigits_zeros 1) (List.cons_ne_nil '0' [])
      · exact areDigits_cons.mpr ⟨hfirst, areDigits_append.mpr ⟨htail, areDigits_zeros _⟩⟩
      · simp only [List.length_append, List.length_replicate, List.length_cons] at hlen ⊢
        omega
    · -- The point stands among the digits.
      rw [if_neg hlen, List.take_succ_cons, List.drop_succ_cons]
      refine exists_number_pointed hc ?_ ?_ (fun e he => htail e (List.mem_of_mem_drop he)) ?_
      · exact areDigits_cons.mpr ⟨hfirst, fun e he => htail e (List.mem_of_mem_take he)⟩
      · rw [List.length_take]
        omega
      · simpa using hlen

/-- Digits with an exponent are read as a number. -/
theorem exists_number_far {d : ℕ} {power : ℤ} (hd : 0 < d) (hle : (d : ℚ) * 10 ^ power ≤ limit)
    (hlimit : limit * (1 + unit) ^ 2 < overflowThreshold)
    (hshort : ((digitsOf d).length + power - 1).natAbs ≤ Reader.greatestExponent)
    (hfar : ¬ (numberStyle.leastPlace ≤ (digitsOf d).length + power &&
      (digitsOf d).length + power ≤ numberStyle.greatestPlace) = true) :
    ∃ n, number negative
      (written numberStyle (digitsOf d) ((digitsOf d).length + power)) = .ok (n, []) := by
  have hdigits := areDigits_digitsOf d
  have hvalue := ofDigitChars_digitsOf d
  unfold written
  rw [if_neg hfar]
  obtain ⟨c, ds, hds, _⟩ := digitsOf_eq_cons hd
  rw [hds] at hshort hdigits hvalue ⊢
  cases ds with
  | nil =>
    have hpower : ([c].length : ℤ) + power - 1 = power := by simp
    rw [hpower] at hshort ⊢
    refine exists_number_single (areDigits_cons.mp hdigits).1 ?_ hlimit hshort
    rw [← hvalue] at hle
    simpa [Nat.ofDigitChars_cons, digitValue] using hle
  | cons e ds =>
    refine exists_number_scientific hdigits (List.cons_ne_nil e ds) ?_ hlimit hshort
    have hpower : ((c :: e :: ds).length : ℤ) + power - 1 - (e :: ds).length = power := by
      simp only [List.length_cons]
      omega
    rw [hpower, hvalue]
    exact hle

/-- **The text of a decimal below the threshold is read as a number.** -/
theorem exists_number_written {d : ℕ} {power : ℤ} (hd : 0 < d) (hpower : -1075 < power)
    (hle : (d : ℚ) * 10 ^ power ≤ limit) (hlimit : limit * (1 + unit) ^ 2 < overflowThreshold) :
    ∃ n, number negative
      (written numberStyle (digitsOf d) ((digitsOf d).length + power)) = .ok (n, []) := by
  by_cases hnear : (numberStyle.leastPlace ≤ (digitsOf d).length + power &&
      (digitsOf d).length + power ≤ numberStyle.greatestPlace) = true
  · obtain ⟨c, ds, hds, hc⟩ := digitsOf_eq_cons hd
    have hdigits := areDigits_digitsOf d
    rw [hds] at hnear hdigits ⊢
    exact exists_number_near hc hdigits hnear
  · exact exists_number_far hd hle hlimit (natAbs_le_of_decimal hd hpower hle hlimit) hnear

end

/-! ## 4. The text of a number -/

theorem number_digitsOf (negative : Bool) {n : ℕ} (hn : n ≤ greatestInteger) :
    number negative (digitsOf n) = numberEnd negative n 0 [] := by
  rcases Nat.eq_zero_or_pos n with rfl | hpos
  · rw [digitsOf, Nat.toDigits_zero]
    exact number_digit negative (by decide) endsDigits_nil
  · obtain ⟨c, ds, hds, hc, hall⟩ := exists_digitsOf hn
    obtain ⟨c', ds', hds', hne⟩ := digitsOf_eq_cons hpos
    obtain ⟨rfl, rfl⟩ := List.cons.inj (hds.symm.trans hds')
    simp only [hds, number, if_neg hne, if_pos hc, hall, List.dropWhile_nil, List.length_nil, Nat.sub_self]

/-- A number begins with a digit. -/
theorem isDigit_of_number {negative : Bool} {c : Char} {cs r : List Char} {n : Number}
    (h : number negative (c :: cs) = .ok (n, r)) : c.isDigit = true := by
  by_cases h0 : c = '0'
  · rw [h0]
    decide
  · by_contra hc
    simp [number, h0, hc] at h

/-- A number is a value, with a sign or without one. -/
theorem value_of_number {negative : Bool} {cs : List Char} {n : Number}
    (h : number negative cs = .ok (n, [])) :
    value 0 (if negative then '-' :: cs else cs) = .ok (.number n, []) := by
  cases negative with
  | true => simp [value, valueWith, skipBlanks, isBlank, mapped, h]
  | false =>
    cases cs with
    | nil => simp [number] at h
    | cons c cs =>
      have hc := isDigit_of_number h
      have hne {d : Char} (hd : d.isDigit = false) : c ≠ d := by
        rintro rfl
        exact Bool.false_ne_true (hd.symm.trans hc)
      have hblank : isBlank c = false := by
        simp [isBlank, hne (d := ' ') (by decide), hne (d := '\n') (by decide),
          hne (d := '\t') (by decide), hne (d := '\r') (by decide)]
      rw [if_neg Bool.false_ne_true, value, valueWith, skipBlanks_cons hblank]
      simp [hne (d := 'n') (by decide), hne (d := 't') (by decide), hne (d := 'f') (by decide),
        hne (d := '-') (by decide), hc, mapped, h]

end Reader

/-- The numbers that a document can hold: integers of 64 bits and finite values. -/
def Number.IsStored : Number → Prop
  | .integer i => -(greatestNegative : ℤ) ≤ i ∧ i ≤ greatestInteger
  | .real x => x.IsFinite

/-- An integer of 64 bits reads back. -/
theorem readsBack_integer {i : ℤ} (h : (Number.integer i).IsStored) :
    (Number.integer i).ReadsBack := by
  obtain ⟨hleast, hgreatest⟩ := h
  cases i with
  | ofNat n =>
    have hread : Reader.number false (Number.integer n).text = .ok (.integer n, []) := by
      change Reader.number false (digitsOf n) = _
      rw [number_digitsOf false (Int.ofNat_le.mp hgreatest)]
      rfl
    exact value_of_number hread
  | negSucc n =>
    have hn : n + 1 ≤ greatestNegative := by omega
    have hfits : (decide (n + 1 = 0) || decide (greatestNegative < n + 1)) = false := by
      simpa using hn
    have hread : Reader.number true (digitsOf (n + 1)) = .ok (.integer (.negSucc n), []) := by
      rw [number_digitsOf true (le_trans hn (by decide)), numberEnd_eq (by simp [NoExponent]) (by simp),
        integerEnd, if_neg (by decide), if_neg (by decide), hfits]
      rfl
    exact value_of_number hread

/-- The greatest value. -/
def greatestValue : Binary64 := ⟨false, 0x1FFFFFFFFFFFFF, 971⟩

/-- The greatest value reads back, and the one below it is read as the greatest one. -/
theorem readsTo_greatestValue : ∀ m ∈ [0x1FFFFFFFFFFFFE, 0x1FFFFFFFFFFFFF], ∀ negative,
    (Number.real ⟨negative, m, 971⟩).ReadsTo (.real (greatestValue.withSign negative)) := by
  decide +kernel

/-- The digits of a finite value below the two greatest ones are read as a number. -/
theorem exists_number_body (negative : Bool) {x : Binary64} (hx : x.IsFinite)
    (hbelow : x.IsBelowGreatest) : ∃ n, Reader.number negative
      (if x.isZero then "0.0".toList
        else written numberStyle (digitsOf x.shortest.digits)
          ((digitsOf x.shortest.digits).length + x.shortest.power)) = .ok (n, []) := by
  cases hzero : x.isZero with
  | true =>
    rw [if_pos rfl, show "0.0".toList = ['0', '.', '0'] by rfl,
      number_digit _ (by decide) (endsDigits_cons (by decide) _), numberEnd]
    exact exists_fraction (areDigits_zeros 1) (by simp) (by decide) (by decide)
  | false =>
    rw [if_neg Bool.false_ne_true]
    rcases shortest_bounds hzero with hshort | ⟨hd, hpower, hle⟩
    · have htext : written numberStyle (digitsOf 0) ((digitsOf 0).length + -1075) =
          '0' :: exponentText (-1075) := by decide +kernel
      have hvalue : (digitValue '0' : ℚ) * 10 ^ (-1075 : ℤ) ≤ 0 := by simp [digitValue]
      rw [hshort, htext]
      refine exists_number_single (by decide) hvalue ?_ (by decide)
      rw [zero_mul, overflowThreshold]
      positivity
    · exact exists_number_written hd hpower hle (reach_lt hx hbelow)

/-- **The text of a number that a document can hold is read as a number.** -/
theorem Number.exists_readsTo {n : Number} (h : n.IsStored) : ∃ m, n.ReadsTo m := by
  cases n with
  | integer i => exact ⟨_, readsBack_integer h⟩
  | real x =>
    by_cases hbelow : x.IsBelowGreatest
    · obtain ⟨m, hm⟩ := exists_number_body x.negative h hbelow
      exact ⟨m, value_of_number hm⟩
    · -- The two greatest values, of either sign.
      obtain ⟨negative, m, e⟩ := x
      have hsig : m < 0x20000000000000 := h.significand
      have hexp : e ≤ 971 := h.exponent
      simp only [IsBelowGreatest, not_or, significandBound, Binary64.greatestExponent] at hbelow
      obtain rfl : e = 971 := by omega
      exact ⟨_, readsTo_greatestValue m (by simp; omega) negative⟩

/-! ## 5. What is read as a number -/

namespace Reader

section

variable {negative down : Bool} {significand : ℕ} {exponent : ℤ} {cs r : List Char} {n : Number}

theorem digitsUpTo_le {bound : ℕ} (cs : List Char) :
    ∀ n ≤ bound, (digitsUpTo bound n cs).1 ≤ bound := by
  induction cs with
  | nil => exact fun n hn => hn
  | cons c cs ih =>
    intro n hn
    unfold digitsUpTo
    split
    · next hc =>
      simp only [Bool.and_eq_true, decide_eq_true_eq] at hc
      exact ih _ hc.2
    · exact hn

theorem isStored_of_realNumber (h : realNumber negative significand exponent cs = .ok (n, r)) :
    n.IsStored := by
  unfold realNumber at h
  split at h
  · simp at h
  · next x hx =>
    simp only [Except.ok.injEq, Prod.mk.injEq] at h
    rw [← h.1]
    exact (isFinite_of_ofDecimal hx).withSign negative

theorem isStored_of_exponentDigits
    (h : exponentDigits negative significand exponent down cs = .ok (n, r)) : n.IsStored := by
  unfold exponentDigits at h
  split at h
  · simp at h
  · split at h
    · simp only at h
      split at h
      · split at h
        · split at h
          · simp at h
          · -- The exponent is too long, and the number is zero.
            simp only [Except.ok.injEq, Prod.mk.injEq] at h
            rw [← h.1]
            exact isFinite_zero.withSign negative
        · exact isStored_of_realNumber h
      · exact isStored_of_realNumber h
    · simp at h

theorem isStored_of_exponentPart (h : exponentPart negative significand exponent cs = .ok (n, r)) :
    n.IsStored := by
  unfold exponentPart at h
  split at h <;> exact isStored_of_exponentDigits h

theorem isStored_of_decimalEnd (h : decimalEnd negative significand exponent cs = .ok (n, r)) :
    n.IsStored := by
  unfold decimalEnd at h
  split at h
  · exact isStored_of_exponentPart h
  · exact isStored_of_exponentPart h
  · exact isStored_of_realNumber h

theorem isStored_of_fraction (h : fraction negative significand exponent cs = .ok (n, r)) :
    n.IsStored := by
  unfold fraction at h
  simp only at h
  split at h
  · split at h <;> simp at h
  · exact isStored_of_decimalEnd h

variable {dropped : ℕ} (hs : significand ≤ greatestInteger)
include hs

theorem isStored_of_integerEnd (h : integerEnd negative significand dropped cs = .ok (n, r)) :
    n.IsStored := by
  unfold integerEnd at h
  split at h
  · exact isStored_of_realNumber h
  · split at h
    · simp only [Except.ok.injEq, Prod.mk.injEq] at h
      rw [← h.1]
      refine ⟨?_, Int.ofNat_le.mpr hs⟩
      simp only [greatestNegative]
      omega
    · split at h
      · exact isStored_of_realNumber h
      · next hfits =>
        simp only [Except.ok.injEq, Prod.mk.injEq] at h
        simp only [Bool.or_eq_true, decide_eq_true_eq, not_or, not_lt] at hfits
        rw [← h.1]
        refine ⟨Int.neg_le_neg (Int.ofNat_le.mpr hfits.2), ?_⟩
        simp only [greatestInteger]
        omega

theorem isStored_of_numberEnd (h : numberEnd negative significand dropped cs = .ok (n, r)) :
    n.IsStored := by
  unfold numberEnd at h
  split at h
  · exact isStored_of_fraction h
  · exact isStored_of_exponentPart h
  · exact isStored_of_exponentPart h
  · exact isStored_of_integerEnd hs h

omit hs in
/-- **What is read as a number is one that a document can hold.** -/
theorem isStored_of_number (h : number negative cs = .ok (n, r)) : n.IsStored := by
  unfold number at h
  split at h
  · simp at h
  · split at h
    · split at h
      · split at h
        · simp at h
        · exact isStored_of_numberEnd (Nat.zero_le _) h
      · exact isStored_of_numberEnd (Nat.zero_le _) h
    · split at h
      · next hc =>
        have hfirst := le_trans (digitValue_le hc) (by decide : 9 ≤ greatestInteger)
        exact isStored_of_numberEnd (digitsUpTo_le _ _ hfirst) h
      · simp at h

end

end Reader

end Tsconfig.Json
