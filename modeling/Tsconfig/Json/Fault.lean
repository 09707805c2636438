/-
# What is wrong with a text, and where

A text that is no document, or not of the expected shape, has a first fault: a cause and a place.
Lines count from 1; the column is the number of bytes of the line up to the place, the character that
was looked at included where the fault is about that character.  A place is kept as the unread rest
of the text and a number of bytes ahead of it, and turned into line and column at the end
(`Fault.position`).
-/
import Tsconfig.Json.Value
import Tsconfig.Json.Printer
import Tsconfig.Text.Quoted
import Tsconfig.Text.Size

namespace Tsconfig.Json

/-- A value found where another type was expected. -/
inductive Found
  | null
  | bool (b : Bool)
  | number (n : Number)
  | string (s : String)
  | sequence
  | map

/-- What was expected in its place. -/
inductive Expected
  | descriptor
  | string
  | boolean
  | sequence
  | map
  deriving DecidableEq

/-- Why a text is refused. -/
inductive Cause
  | endOfList
  | endOfObject
  | endOfString
  | endOfValue
  | expectedColon
  | expectedListCommaOrEnd
  | expectedObjectCommaOrEnd
  | expectedIdent
  | expectedValue
  | invalidEscape
  | invalidNumber
  | numberOutOfRange
  | controlCharacter
  | keyMustBeString
  | loneSurrogate
  | trailingComma
  | trailingCharacters
  | unexpectedEndOfEscape
  | tooDeep
  | mismatch (found : Found) (expected : Expected)
  | duplicateField (name : String)

/-- The words for a value of the wrong type. -/
def Found.message : Found → String
  | .null => "null"
  | .bool b => "boolean `" ++ (if b then "true" else "false") ++ "`"
  | .number (.integer i) => "integer `" ++ String.ofList (Number.text (.integer i)) ++ "`"
  | .number (.real x) => "floating point `" ++ String.ofList (Number.text (.real x)) ++ "`"
  | .string s => "string " ++ Text.quoted s
  | .sequence => "sequence"
  | .map => "map"

/-- The words for an expected type. -/
def Expected.message : Expected → String
  | .descriptor => "struct RawDescriptor"
  | .string => "a string"
  | .boolean => "a boolean"
  | .sequence => "a sequence"
  | .map => "a map"

/-- The words for a cause. -/
def Cause.message : Cause → String
  | .endOfList => "EOF while parsing a list"
  | .endOfObject => "EOF while parsing an object"
  | .endOfString => "EOF while parsing a string"
  | .endOfValue => "EOF while parsing a value"
  | .expectedColon => "expected `:`"
  | .expectedListCommaOrEnd => "expected `,` or `]`"
  | .expectedObjectCommaOrEnd => "expected `,` or `\x7d`"
  | .expectedIdent => "expected ident"
  | .expectedValue => "expected value"
  | .invalidEscape => "invalid escape"
  | .invalidNumber => "invalid number"
  | .numberOutOfRange => "number out of range"
  | .controlCharacter => "control character (\\u0000-\\u001F) found while parsing a string"
  | .keyMustBeString => "key must be a string"
  | .loneSurrogate => "lone leading surrogate in hex escape"
  | .trailingComma => "trailing comma"
  | .trailingCharacters => "trailing characters"
  | .unexpectedEndOfEscape => "unexpected end of hex escape"
  | .tooDeep => "recursion limit exceeded"
  | .mismatch found expected =>
    "invalid type: " ++ found.message ++ ", expected " ++ expected.message
  | .duplicateField name => "duplicate field `" ++ name ++ "`"

/-! ## Places -/

/-- A line, counted from 1, and a number of bytes of that line. -/
structure Position where
  line : Nat
  column : Nat
  deriving DecidableEq

/-- The start of a text. -/
def Position.start : Position := ⟨1, 0⟩

/-- The position after the first `n` bytes of a text; the text may end before. -/
def Position.after (p : Position) : Nat → List Char → Position
  | _, [] => p
  | n, c :: rest =>
    if n = 0 then p
    else if c = '\n' then Position.after ⟨p.line + 1, 0⟩ (n - 1) rest
    else if n ≤ c.utf8Size then ⟨p.line, p.column + n⟩
    else Position.after ⟨p.line, p.column + c.utf8Size⟩ (n - c.utf8Size) rest

/-- A cause at a place: `ahead` bytes into the unread `rest`. -/
structure Fault where
  cause : Cause
  rest : List Char
  ahead : Nat

/-- A fault where reading has stopped. -/
def Fault.here (cause : Cause) (rest : List Char) : Fault := ⟨cause, rest, 0⟩

/-- A fault about the next character. -/
def Fault.next (cause : Cause) (rest : List Char) : Fault := ⟨cause, rest, 1⟩

/-- Line and column of a fault in the text it was found in. -/
def Fault.position (text : List Char) (f : Fault) : Position :=
  Position.start.after (Text.byteLength text - Text.byteLength f.rest + f.ahead) text

/-- The words for a fault of a text. -/
def Fault.message (text : List Char) (f : Fault) : String :=
  let p := f.position text
  f.cause.message ++ " at line " ++ toString p.line ++ " column " ++ toString p.column

end Tsconfig.Json
