/-
# Writing JSON

A value is written compactly, or laid out with one item a line and a fixed indent a level.  Strings
escape the quote, the backslash and the control characters, and nothing else; a number is written in
the least number of digits that reads back.
-/
import Tsconfig.Json.Value
import Tsconfig.Decimal.Written

namespace Tsconfig.Json

/-! ## 1. Numbers -/

/-- Numbers from `1e-5` up to `1e16` are written positionally, all others with an exponent. -/
def numberStyle : Binary64.Style := ⟨-4, 16⟩

/-- The text of an integer. -/
def integerText : Int → List Char
  | .ofNat n => Binary64.digitsOf n
  | .negSucc n => '-' :: Binary64.digitsOf (n + 1)

/-- The text of a number. -/
def Number.text : Number → List Char
  | .integer i => integerText i
  | .real x => x.text numberStyle

/-! ## 2. Strings -/

/-- A digit of base 16, lower case. -/
def hexDigit (n : Nat) : Char := Nat.digitChar n

/-- A character inside a string. -/
def stringChar (c : Char) : List Char :=
  match c with
  | '"' => ['\\', '"']
  | '\\' => ['\\', '\\']
  | '\n' => ['\\', 'n']
  | '\r' => ['\\', 'r']
  | '\t' => ['\\', 't']
  | '\x08' => ['\\', 'b']
  | '\x0c' => ['\\', 'f']
  | c =>
    if c.toNat < 0x20 then
      ['\\', 'u', '0', '0', hexDigit (c.toNat / 16), hexDigit (c.toNat % 16)]
    else [c]

/-- A string with its quotes. -/
def stringText (s : String) : List Char :=
  '"' :: (s.toList.flatMap stringChar ++ ['"'])

/-! ## 3. Compact text -/

mutual

/-- A value without any blank. -/
def compactChars : Json → List Char
  | .null => "null".toList
  | .bool true => "true".toList
  | .bool false => "false".toList
  | .number n => n.text
  | .string s => stringText s
  | .array [] => ['[', ']']
  | .array (x :: xs) => '[' :: (compactChars x ++ compactItems xs)
  | .object [] => ['\x7b', '\x7d']
  | .object ((k, v) :: fs) => '\x7b' :: (stringText k ++ ':' :: (compactChars v ++ compactFields fs))

/-- The items after the first, and the closing bracket. -/
def compactItems : List Json → List Char
  | [] => [']']
  | x :: xs => ',' :: (compactChars x ++ compactItems xs)

/-- The entries after the first, and the closing brace. -/
def compactFields : List (String × Json) → List Char
  | [] => ['\x7d']
  | (k, v) :: fs => ',' :: (stringText k ++ ':' :: (compactChars v ++ compactFields fs))

end

/-! ## 4. Laid out text -/

/-- A line break and the indent of a level. -/
def newLine (indent level : Nat) : List Char :=
  '\n' :: List.replicate (indent * level) ' '

mutual

/-- A value laid out from a level on.  Empty arrays and objects stay on one line. -/
def prettyChars (indent : Nat) : Nat → Json → List Char
  | _, .null => "null".toList
  | _, .bool true => "true".toList
  | _, .bool false => "false".toList
  | _, .number n => n.text
  | _, .string s => stringText s
  | _, .array [] => ['[', ']']
  | level, .array (x :: xs) =>
    '[' :: (newLine indent (level + 1) ++
      (prettyChars indent (level + 1) x ++ prettyItems indent level xs))
  | _, .object [] => ['\x7b', '\x7d']
  | level, .object ((k, v) :: fs) =>
    '\x7b' :: (newLine indent (level + 1) ++ (stringText k ++ ':' :: ' ' ::
      (prettyChars indent (level + 1) v ++ prettyFields indent level fs)))

/-- The items after the first, and the closing bracket. -/
def prettyItems (indent : Nat) : Nat → List Json → List Char
  | level, [] => newLine indent level ++ [']']
  | level, x :: xs =>
    ',' :: (newLine indent (level + 1) ++
      (prettyChars indent (level + 1) x ++ prettyItems indent level xs))

/-- The entries after the first, and the closing brace. -/
def prettyFields (indent : Nat) : Nat → List (String × Json) → List Char
  | level, [] => newLine indent level ++ ['\x7d']
  | level, (k, v) :: fs =>
    ',' :: (newLine indent (level + 1) ++ (stringText k ++ ':' :: ' ' ::
      (prettyChars indent (level + 1) v ++ prettyFields indent level fs)))

end

/-- The compact text of a value. -/
def compact (v : Json) : String := String.ofList (compactChars v)

/-- The text of a value with `indent` blanks a level. -/
def pretty (indent : Nat) (v : Json) : String := String.ofList (prettyChars indent 0 v)

end Tsconfig.Json
