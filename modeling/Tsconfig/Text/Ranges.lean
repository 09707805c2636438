/-
# Sets of characters given as intervals

A character property of a standard is a list of closed intervals of code points.  Membership is one
test, `inRanges`, so that every table is used in the same way.
-/

namespace Tsconfig.Text

/-- Whether `n` lies in one of the closed intervals. -/
def inRanges (ranges : List (Nat × Nat)) (n : Nat) : Bool :=
  ranges.any fun r => r.1 ≤ n && n ≤ r.2

end Tsconfig.Text
