/-
# Quoted text in messages

A text that a message shows as a value stands between double quotes, with the quote, the backslash
and the control characters that have a short name escaped, and every character of `isEscaped` as its
code point in braces.
-/
import Tsconfig.Text.Escaped

namespace Tsconfig.Text

/-- The digits of `n` in base 16, lower case. -/
def hexDigits (n : Nat) : List Char :=
  Nat.toDigits 16 n

/-- One character of a quoted text. -/
def quotedChar (c : Char) : List Char :=
  match c with
  | '\x00' => ['\\', '0']
  | '\t' => ['\\', 't']
  | '\n' => ['\\', 'n']
  | '\r' => ['\\', 'r']
  | '"' => ['\\', '"']
  | '\\' => ['\\', '\\']
  | c => if isEscaped c then "\\u\x7b".toList ++ hexDigits c.toNat ++ ['\x7d'] else [c]

/-- A text between double quotes, as messages show it. -/
def quoted (s : String) : String :=
  String.ofList ('"' :: s.toList.flatMap quotedChar ++ ['"'])

end Tsconfig.Text
