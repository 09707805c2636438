/-
# Blank characters

The characters with the white space property of Unicode: the ASCII blanks from tab to carriage
return, the space, next line, and the spaces and separators of the other scripts.
-/
import Tsconfig.Text.Ranges

namespace Tsconfig.Text

/-- The white space of Unicode. -/
def blankRanges : List (Nat × Nat) := [
    (0x9, 0xD), (0x20, 0x20), (0x85, 0x85), (0xA0, 0xA0), (0x1680, 0x1680), (0x2000, 0x200A),
    (0x2028, 0x2029), (0x202F, 0x202F), (0x205F, 0x205F), (0x3000, 0x3000)]

/-- A blank character of any script. -/
def isBlank (c : Char) : Bool :=
  inRanges blankRanges c.toNat

/-- A space or a tab, the indentation of a line. -/
def isIndent (c : Char) : Bool :=
  c = ' ' || c = '\t'

end Tsconfig.Text
