/-
# The shortest decimal of a binary64 number

Every positive value `x` owns the reals that round to it, an interval whose ends belong to it when its
significand is even.  Its shortest decimal lies on the coarsest grid `10 ^ k` that meets the interval,
and is the grid point of the interval nearest to `x`.  If any grid point lies in the interval then so
does one of the two neighbours of `x`, so two tests a grid are enough.
-/
import Tsconfig.Decimal.Binary64

namespace Tsconfig.Binary64

/-- A decimal `digits · 10 ^ power`. -/
structure Decimal where
  digits : Nat
  power : Int
  deriving DecidableEq

/-- The interval of reals that round to a value, in units of `2 ^ exponent / 4`. -/
structure Reach where
  low : Nat
  middle : Nat
  high : Nat
  closed : Bool
  exponent : Int

/-- The least significand that has 53 binary digits. -/
def leadingBit : Nat := 0x10000000000000

/-- The interval of `x`.  Below a power of two the next value is only half as far away. -/
def reach (x : Binary64) : Reach :=
  let m := x.significand
  { low := if m = leadingBit && leastExponent < x.exponent then 4 * m - 1 else 4 * m - 2
    middle := 4 * m
    high := 4 * m + 2
    closed := m % 2 = 0
    exponent := x.exponent - 2 }

namespace Reach

/-- How many units of `10 ^ k` make a unit of the interval: the numerator. -/
def unitNumerator (r : Reach) (k : Int) : Nat :=
  Nat.pow 2 r.exponent.toNat * Nat.pow 10 (-k).toNat

/-- The denominator of the same ratio. -/
def unitDenominator (r : Reach) (k : Int) : Nat :=
  Nat.pow 2 (-r.exponent).toNat * Nat.pow 10 k.toNat

/-- Whether `d · 10 ^ k` lies in the interval. -/
def holds (r : Reach) (k : Int) (d : Nat) : Bool :=
  let p := d * r.unitDenominator k
  let lo := r.low * r.unitNumerator k
  let hi := r.high * r.unitNumerator k
  (lo < p || (r.closed && lo = p)) && (p < hi || (r.closed && p = hi))

/-- The grid point of `10 ^ k` in the interval that is nearest to the middle, the even one of two. -/
def gridPoint (r : Reach) (k : Int) : Option Nat :=
  let num := r.middle * r.unitNumerator k
  let den := r.unitDenominator k
  let d := num / den
  match r.holds k d, r.holds k (d + 1) with
  | true, true => some (nearestQuotient num den)
  | true, false => some d
  | false, true => some (d + 1)
  | false, false => none

/-- The first grid from `10 ^ k` downwards that meets the interval, among `n` grids. -/
def coarsest (r : Reach) : Nat → Int → Decimal
  | 0, k => ⟨0, k⟩
  | n + 1, k =>
    match r.gridPoint k with
    | some d => ⟨d, k⟩
    | none => r.coarsest n (k - 1)

end Reach

/-- No value reaches this power of ten. -/
def topPower : Int := 309

/-- The number of grids from the top one to the one on which every value lies. -/
def gridCount : Nat := 1384

/-- The shortest decimal that rounds to the absolute value of `x`, for `x` other than zero. -/
def shortest (x : Binary64) : Decimal :=
  x.reach.coarsest gridCount topPower

end Tsconfig.Binary64
