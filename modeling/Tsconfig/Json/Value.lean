/-
# JSON values

A value of a document.  Integers of 64 bits, signed or not, stay integers; every other number is the
nearest binary64 value.  An object is its entries in the order of first insertion.
-/
import Tsconfig.Decimal.Binary64
import Tsconfig.Fields

namespace Tsconfig

/-- A number of a document. -/
inductive Json.Number
  | integer (i : Int)
  | real (x : Binary64)
  deriving DecidableEq

/-- A JSON value. -/
inductive Json
  | null
  | bool (b : Bool)
  | number (n : Json.Number)
  | string (s : String)
  | array (items : List Json)
  | object (fields : List (String × Json))

namespace Json

/-- An integer as a value. -/
def int (i : Int) : Json := .number (.integer i)

/-- A list of texts as a value. -/
def strings (xs : List String) : Json := .array (xs.map .string)

/-- The text of a string value. -/
def asString? : Json → Option String
  | .string s => some s
  | _ => none

/-- The integer of a number that is one. -/
def asInt? : Json → Option Int
  | .number (.integer i) => some i
  | _ => none

/-- What a value is, in one word. -/
def typeName : Json → String
  | .null => "null"
  | .bool _ => "boolean"
  | .number _ => "number"
  | .string _ => "string"
  | .array _ => "array"
  | .object _ => "object"

end Json

end Tsconfig
