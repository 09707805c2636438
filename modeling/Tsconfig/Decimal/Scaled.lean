/-
# Reading a decimal with an exponent

A decimal `significand · 10 ^ exponent` is read in two roundings: the significand becomes the nearest
binary64 value, and that is multiplied or divided by the nearest value to the power of ten.  Powers
beyond `10 ^ 308` are taken off in steps.  Small significands and exponents come out exactly as the
nearest value of the decimal; the others may be a unit or two off, which is the rule of the format.
-/
import Tsconfig.Decimal.Binary64

namespace Tsconfig.Binary64

/-- The largest power of ten that is a binary64 value. -/
def greatestPowerOfTen : Nat := 308

/-- The value nearest to `10 ^ n`. -/
def powerOfTen (n : Nat) : Binary64 :=
  (nearest (Nat.pow 10 n) 1).getD zero

/-- `x / 10 ^ n`, by steps of at most `10 ^ 308`. -/
def scaleDown (x : Binary64) (n : Nat) : Binary64 :=
  if n ≤ greatestPowerOfTen then (div? x (powerOfTen n)).getD zero
  else if x.isZero then x
  else
    scaleDown ((div? x (powerOfTen greatestPowerOfTen)).getD zero) (n - greatestPowerOfTen)
termination_by n
decreasing_by
  simp only [greatestPowerOfTen] at *
  omega

/-- `x · 10 ^ n`; none when it is out of range. -/
def scaleUp (x : Binary64) (n : Nat) : Option Binary64 :=
  if n ≤ greatestPowerOfTen then mul? x (powerOfTen n)
  else if x.isZero then some x
  else none

/-- The value that `significand · 10 ^ exponent` is read as; none when it is out of range. -/
def ofDecimal (significand : Nat) (exponent : Int) : Option Binary64 :=
  match nearest significand 1 with
  | none => none
  | some x =>
    if 0 ≤ exponent then scaleUp x exponent.toNat
    else some (scaleDown x (-exponent).toNat)

end Tsconfig.Binary64
