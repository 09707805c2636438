/-
# The lexemes of JSON

Blanks, words, strings and numbers, read from the front of a list of characters.  A reader of this
module takes the unread text and answers what it read with the rest, or the first fault.
-/
import Tsconfig.Json.Fault
import Tsconfig.Decimal.Scaled

namespace Tsconfig.Json

/-- A reader: from the unread text to a result and the rest, or a fault. -/
abbrev Reader (α : Type) := List Char → Except Fault (α × List Char)

namespace Reader

/-! ## 1. Blanks and words -/

/-- The four blanks between lexemes. -/
def isBlank (c : Char) : Bool :=
  c = ' ' || c = '\n' || c = '\t' || c = '\r'

/-- The text after its leading blanks. -/
def skipBlanks (cs : List Char) : List Char := cs.dropWhile isBlank

/-- The rest after the given characters. -/
def word : List Char → List Char → Except Fault (List Char)
  | [], rest => .ok rest
  | _ :: _, [] => .error (.here .endOfValue [])
  | c :: cs, d :: rest => if c = d then word cs rest else .error (.next .expectedIdent (d :: rest))

/-! ## 2. Strings -/

/-- The value of a digit of base 16. -/
def hexValue? (c : Char) : Option Nat :=
  if c.isDigit then some (c.toNat - '0'.toNat)
  else if 'a' ≤ c && c ≤ 'f' then some (c.toNat - 'a'.toNat + 10)
  else if 'A' ≤ c && c ≤ 'F' then some (c.toNat - 'A'.toNat + 10)
  else none

/-- Four digits of base 16.  The four are counted in bytes where they are no digits. -/
def fourDigits (cs : List Char) : Except Fault (Nat × List Char) :=
  let bad : Fault :=
    if Text.byteLength cs < 4 then .here .endOfString [] else ⟨.invalidEscape, cs, 4⟩
  match cs with
  | a :: b :: c :: d :: rest =>
    match hexValue? a, hexValue? b, hexValue? c, hexValue? d with
    | some a, some b, some c, some d => .ok (((a * 16 + b) * 16 + c) * 16 + d, rest)
    | _, _, _, _ => .error bad
  | _ => .error bad

/-- The first half of a surrogate pair. -/
def isHighSurrogate (n : Nat) : Bool := 0xD800 ≤ n && n ≤ 0xDBFF

/-- The second half of a surrogate pair. -/
def isLowSurrogate (n : Nat) : Bool := 0xDC00 ≤ n && n ≤ 0xDFFF

/-- The second half of a pair, with its own backslash, after the first half `high`. -/
def surrogatePair (high : Nat) : Reader Char
  | [] => .error (.here .endOfString [])
  | '\\' :: [] => .error (.here .endOfString [])
  | '\\' :: 'u' :: rest =>
    match fourDigits rest with
    | .error f => .error f
    | .ok (low, rest) =>
      if isLowSurrogate low then
        .ok (Char.ofNat ((high - 0xD800) * 0x400 + (low - 0xDC00) + 0x10000), rest)
      else .error (.here .loneSurrogate rest)
  | '\\' :: rest => .error (.next .unexpectedEndOfEscape rest)
  | rest => .error (.next .unexpectedEndOfEscape rest)

/-- The character of an escape, after its backslash. -/
def escape : Reader Char
  | [] => .error (.here .endOfString [])
  | '"' :: rest => .ok ('"', rest)
  | '\\' :: rest => .ok ('\\', rest)
  | '/' :: rest => .ok ('/', rest)
  | 'b' :: rest => .ok ('\x08', rest)
  | 'f' :: rest => .ok ('\x0c', rest)
  | 'n' :: rest => .ok ('\n', rest)
  | 'r' :: rest => .ok ('\r', rest)
  | 't' :: rest => .ok ('\t', rest)
  | 'u' :: rest =>
    match fourDigits rest with
    | .error f => .error f
    | .ok (n, rest) =>
      if isLowSurrogate n then .error (.here .loneSurrogate rest)
      else if isHighSurrogate n then surrogatePair n rest
      else .ok (Char.ofNat n, rest)
  | rest => .error (.next .invalidEscape rest)

/-- The characters up to the closing quote, at most `limit` of them. -/
def stringBody : Nat → Reader (List Char)
  | _, [] => .error (.here .endOfString [])
  | 0, rest => .error (.here .endOfString rest)
  | limit + 1, c :: rest =>
    if c = '"' then .ok ([], rest)
    else if c = '\\' then
      match escape rest with
      | .error f => .error f
      | .ok (c, rest) =>
        match stringBody limit rest with
        | .error f => .error f
        | .ok (cs, rest) => .ok (c :: cs, rest)
    else if c.toNat < 0x20 then .error (.next .controlCharacter (c :: rest))
    else
      match stringBody limit rest with
      | .error f => .error f
      | .ok (cs, rest) => .ok (c :: cs, rest)

/-- A string, after its opening quote. -/
def string : Reader String := fun cs =>
  match stringBody cs.length cs with
  | .error f => .error f
  | .ok (body, rest) => .ok (String.ofList body, rest)

/-! ## 3. Numbers

A significand is read as long as it fits 64 bits.  Further digits before the point only count for the
exponent, and further digits after it count for nothing. -/

/-- The greatest integer of 64 bits. -/
def greatestInteger : Nat := 0xFFFFFFFFFFFFFFFF

/-- The least integer of 64 bits with sign, negated. -/
def greatestNegative : Nat := 0x8000000000000000

/-- The greatest exponent that is read digit by digit. -/
def greatestExponent : Nat := 0x7FFFFFFF

/-- The value of a decimal digit. -/
def digitValue (c : Char) : Nat := c.toNat - '0'.toNat

/-- Append digits to `n` while the result is at most `bound`. -/
def digitsUpTo (bound : Nat) (n : Nat) : List Char → Nat × List Char
  | [] => (n, [])
  | c :: rest =>
    if c.isDigit && n * 10 + digitValue c ≤ bound then digitsUpTo bound (n * 10 + digitValue c) rest
    else (n, c :: rest)

/-- A decimal as the value of a document. -/
def realNumber (negative : Bool) (significand : Nat) (exponent : Int) (rest : List Char) :
    Except Fault (Number × List Char) :=
  match Binary64.ofDecimal significand exponent with
  | none => .error (.here .numberOutOfRange rest)
  | some x => .ok (.real (x.withSign negative), rest)

/-- An exponent after its sign.  One that is too long makes a number zero or out of range. -/
def exponentDigits (negative : Bool) (significand : Nat) (exponent : Int) (down : Bool) :
    Reader Number
  | [] => .error (.here .endOfValue [])
  | c :: rest =>
    if c.isDigit then
      let (e, rest) := digitsUpTo greatestExponent (digitValue c) rest
      match rest with
      | d :: after =>
        if d.isDigit then
          if significand ≠ 0 && !down then .error (.here .numberOutOfRange after)
          else .ok (.real (Binary64.zero.withSign negative), after.dropWhile Char.isDigit)
        else realNumber negative significand (if down then exponent - e else exponent + e) rest
      | [] => realNumber negative significand (if down then exponent - e else exponent + e) rest
    else .error (.next .invalidNumber (c :: rest))

/-- An exponent, after its letter. -/
def exponentPart (negative : Bool) (significand : Nat) (exponent : Int) : Reader Number
  | '+' :: rest => exponentDigits negative significand exponent false rest
  | '-' :: rest => exponentDigits negative significand exponent true rest
  | rest => exponentDigits negative significand exponent false rest

/-- What follows the digits of a decimal: an exponent, or its end. -/
def decimalEnd (negative : Bool) (significand : Nat) (exponent : Int) : Reader Number
  | 'e' :: rest => exponentPart negative significand exponent rest
  | 'E' :: rest => exponentPart negative significand exponent rest
  | rest => realNumber negative significand exponent rest

/-- The digits after a point. -/
def fraction (negative : Bool) (significand : Nat) (exponent : Int) : Reader Number := fun cs =>
  let (n, rest) := digitsUpTo greatestInteger significand cs
  let after := rest.dropWhile Char.isDigit
  if after.length = cs.length then
    match cs with
    | [] => .error (.here .endOfValue [])
    | _ :: _ => .error (.next .invalidNumber cs)
  else decimalEnd negative n (exponent - (cs.length - rest.length : Nat)) after

/-- The end of a number without a point and without an exponent: an integer, unless it does not fit. -/
def integerEnd (negative : Bool) (significand dropped : Nat) : Reader Number := fun rest =>
  if dropped ≠ 0 then realNumber negative significand dropped rest
  else if !negative then .ok (.integer significand, rest)
  else if significand = 0 || greatestNegative < significand then
    realNumber negative significand 0 rest
  else .ok (.integer (-(significand : Int)), rest)

/-- What follows the digits before a point, `dropped` of which did not fit. -/
def numberEnd (negative : Bool) (significand dropped : Nat) : Reader Number
  | '.' :: rest => fraction negative significand dropped rest
  | 'e' :: rest => exponentPart negative significand dropped rest
  | 'E' :: rest => exponentPart negative significand dropped rest
  | rest => integerEnd negative significand dropped rest

/-- A number, after its sign. -/
def number (negative : Bool) : Reader Number
  | [] => .error (.here .endOfValue [])
  | c :: rest =>
    if c = '0' then
      match rest with
      | d :: _ =>
        if d.isDigit then .error (.next .invalidNumber rest) else numberEnd negative 0 0 rest
      | [] => numberEnd negative 0 0 rest
    else if c.isDigit then
      let (n, more) := digitsUpTo greatestInteger (digitValue c) rest
      let after := more.dropWhile Char.isDigit
      numberEnd negative n (more.length - after.length) after
    else .error (.next .invalidNumber (c :: rest))

end Reader

end Tsconfig.Json
