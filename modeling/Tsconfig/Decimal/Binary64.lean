/-
# Finite binary64 numbers

A number of a document that is no 64-bit integer is kept as the nearest binary64 value, that is
`± significand · 2 ^ exponent` with a significand below `2 ^ 53` and an exponent of at least `-1074`.
All arithmetic here is on natural numbers: a positive ratio is rounded to the nearest value, a tie to
the even significand (`nearest`), and the product and the quotient of two values are the rounded
ratios.  `nearest` answers `none` where the rounded value exceeds the largest finite one.
-/

namespace Tsconfig

/-- The value `± significand · 2 ^ exponent`. -/
structure Binary64 where
  negative : Bool
  significand : Nat
  exponent : Int
  deriving DecidableEq

namespace Binary64

/-! ## 1. The scale -/

/-- The exponent of the smallest positive value. -/
def leastExponent : Int := -1074

/-- The exponent of the largest finite values. -/
def greatestExponent : Int := 971

/-- Significands stay below this bound. -/
def significandBound : Nat := 0x20000000000000

/-- The zero without sign. -/
def zero : Binary64 := ⟨false, 0, leastExponent⟩

/-- The same value with the sign chosen. -/
def withSign (negative : Bool) (x : Binary64) : Binary64 := { x with negative }

/-- Whether the value is zero, of either sign. -/
def isZero (x : Binary64) : Bool := x.significand = 0

/-- The numerator of the absolute value as a ratio. -/
def numerator (x : Binary64) : Nat := x.significand * Nat.pow 2 x.exponent.toNat

/-- The denominator of the absolute value as a ratio. -/
def denominator (x : Binary64) : Nat := Nat.pow 2 (-x.exponent).toNat

/-! ## 2. Rounding -/

/-- The integer nearest to `num / den`, a tie going to the even one. -/
def nearestQuotient (num den : Nat) : Nat :=
  let q := num / den
  let r := num % den
  if den < 2 * r || (den = 2 * r && q % 2 = 1) then q + 1 else q

/-- The numerator of `num / den` measured in units of `2 ^ e`. -/
def scaledNumerator (num : Nat) (e : Int) : Nat := num * Nat.pow 2 (-e).toNat

/-- The denominator of `num / den` measured in units of `2 ^ e`. -/
def scaledDenominator (den : Nat) (e : Int) : Nat := den * Nat.pow 2 e.toNat

/-- The exponent at which `num / den` is rounded: the one that leaves 53 binary digits, or the least
exponent for smaller values. -/
def exponentFor (num den : Nat) : Int :=
  let e : Int := (num.log2 : Int) - (den.log2 : Int) - 53
  let e :=
    if scaledNumerator num e / scaledDenominator den e < significandBound then e else e + 1
  max e leastExponent

/-- The value nearest to `num / den`; none beyond the largest finite value. -/
def nearest (num den : Nat) : Option Binary64 :=
  if num = 0 then some zero
  else
    let e := exponentFor num den
    let m := nearestQuotient (scaledNumerator num e) (scaledDenominator den e)
    let (m, e) := if m < significandBound then (m, e) else (m / 2, e + 1)
    if greatestExponent < e then none else some ⟨false, m, e⟩

/-! ## 3. Products and quotients of absolute values -/

/-- The rounded product. -/
def mul? (x y : Binary64) : Option Binary64 :=
  nearest (x.numerator * y.numerator) (x.denominator * y.denominator)

/-- The rounded quotient, for a divisor other than zero. -/
def div? (x y : Binary64) : Option Binary64 :=
  nearest (x.numerator * y.denominator) (x.denominator * y.numerator)

theorem nearest_zero (den : Nat) : nearest 0 den = some zero := by
  simp [nearest]

end Binary64

end Tsconfig
