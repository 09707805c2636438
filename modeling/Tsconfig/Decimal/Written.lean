/-
# Decimals as text

The digits of a decimal are written with a point in place when the point falls near them, and with an
exponent otherwise.  Where that changes is data (`Style`), so each output format states its own.
-/
import Tsconfig.Decimal.Shortest

namespace Tsconfig.Binary64

/-- Where a format changes from positional digits to an exponent.  The place of the point is counted
from the first digit: `1.5` has it at 1, `0.5` at 0. -/
structure Style where
  /-- The least place of the point that is written positionally. -/
  leastPlace : Int
  /-- The greatest place of the point that is written positionally. -/
  greatestPlace : Int

/-- The decimal digits of `n`. -/
def digitsOf (n : Nat) : List Char := Nat.toDigits 10 n

/-- A power of ten after the letter, always with its sign. -/
def exponentText (e : Int) : List Char :=
  'e' :: (if e < 0 then '-' else '+') :: digitsOf e.natAbs

/-- Digits and the place of the point.  An integer gets `.0`. -/
def written (style : Style) (ds : List Char) (place : Int) : List Char :=
  if style.leastPlace ≤ place && place ≤ style.greatestPlace then
    if place ≤ 0 then "0.".toList ++ List.replicate (-place).toNat '0' ++ ds
    else
      let n := place.toNat
      if ds.length ≤ n then ds ++ List.replicate (n - ds.length) '0' ++ ".0".toList
      else ds.take n ++ '.' :: ds.drop n
  else
    match ds with
    | [] => []
    | [d] => d :: exponentText (place - 1)
    | d :: rest => d :: '.' :: rest ++ exponentText (place - 1)

/-- The text of a number in the given style: its shortest decimal, with a sign if it is negative. -/
def text (style : Style) (x : Binary64) : List Char :=
  let body :=
    if x.isZero then "0.0".toList
    else
      let d := x.shortest
      let ds := digitsOf d.digits
      written style ds (ds.length + d.power)
  if x.negative then '-' :: body else body

end Tsconfig.Binary64
