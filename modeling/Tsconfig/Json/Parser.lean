/-
# Reading JSON

A document is one value between blanks.  Arrays and objects nest at most `depthLimit` deep.  The
loops over items (`items`) and entries (`members`) are written once, for any reader of an item, so that
typed documents are read by the same rules.
-/
import Tsconfig.Json.Lexeme

namespace Tsconfig.Json

/-- How deep arrays and objects may nest. -/
def depthLimit : Nat := 127

namespace Reader

/-! ## 1. Items and entries -/

/-- The items of an array after its opening bracket, up to `limit` of them.  `first` says that none
has been read. -/
def items {α : Type} (item : Reader α) : Nat → Bool → Reader (List α)
  | 0, _, cs => .error (.next .endOfList cs)
  | limit + 1, first, cs =>
    let next (cs : List Char) : Except Fault (List α × List Char) :=
      match item cs with
      | .error f => .error f
      | .ok (x, rest) =>
        match items item limit false rest with
        | .error f => .error f
        | .ok (xs, rest) => .ok (x :: xs, rest)
    match skipBlanks cs with
    | [] => .error (.next .endOfList [])
    | ']' :: rest => .ok ([], rest)
    | c :: rest =>
      if first then next (c :: rest)
      else if c = ',' then
        match skipBlanks rest with
        | [] => .error (.next .endOfValue [])
        | ']' :: rest => .error (.next .trailingComma (']' :: rest))
        | rest => next rest
      else .error (.next .expectedListCommaOrEnd (c :: rest))

/-- The entries of an object after its opening brace, up to `limit` of them.  `member` takes the
result so far, a key and the text after the key. -/
def members {σ : Type} (member : σ → String → Reader σ) : Nat → Bool → σ → Reader σ
  | 0, _, _, cs => .error (.next .endOfObject cs)
  | limit + 1, first, s, cs =>
    let next (cs : List Char) : Except Fault (σ × List Char) :=
      match string cs with
      | .error f => .error f
      | .ok (key, rest) =>
        match member s key rest with
        | .error f => .error f
        | .ok (s, rest) => members member limit false s rest
    match skipBlanks cs with
    | [] => .error (.next .endOfObject [])
    | '\x7d' :: rest => .ok (s, rest)
    | c :: rest =>
      if first then
        if c = '"' then next rest else .error (.next .keyMustBeString (c :: rest))
      else if c = ',' then
        match skipBlanks rest with
        | [] => .error (.next .endOfValue [])
        | '"' :: rest => next rest
        | '\x7d' :: rest => .error (.next .trailingComma ('\x7d' :: rest))
        | rest => .error (.next .keyMustBeString rest)
      else .error (.next .expectedObjectCommaOrEnd (c :: rest))

/-- The colon between a key and its value. -/
def colon (cs : List Char) : Except Fault (List Char) :=
  match skipBlanks cs with
  | [] => .error (.next .endOfObject [])
  | ':' :: rest => .ok rest
  | rest => .error (.next .expectedColon rest)

/-! ## 2. Values -/

/-- The entry of an object: a key keeps its first place and takes its last value. -/
def entry (value : Reader Json) (fields : Fields Json) (key : String) : Reader (Fields Json) :=
  fun cs =>
    match colon cs with
    | .error f => .error f
    | .ok rest =>
      match value rest with
      | .error f => .error f
      | .ok (v, rest) => .ok (fields.insert key v, rest)

/-- A value that stands for itself after a word. -/
def literal (v : Json) (w : List Char) : Reader Json := fun cs =>
  match word w cs with
  | .error f => .error f
  | .ok rest => .ok (v, rest)

/-- Apply a constructor to what a reader reads. -/
def mapped {α : Type} (f : α → Json) (read : Reader α) : Reader Json := fun cs =>
  match read cs with
  | .error e => .error e
  | .ok (x, rest) => .ok (f x, rest)

/-- A value.  Arrays and objects are left to `container`, which sees the text from the bracket on. -/
def valueWith (container : Reader Json) : Reader Json := fun cs =>
  match skipBlanks cs with
  | [] => .error (.next .endOfValue [])
  | c :: rest =>
    if c = 'n' then literal .null "ull".toList rest
    else if c = 't' then literal (.bool true) "rue".toList rest
    else if c = 'f' then literal (.bool false) "alse".toList rest
    else if c = '-' then mapped .number (number true) rest
    else if c.isDigit then mapped .number (number false) (c :: rest)
    else if c = '"' then mapped .string string rest
    else if c = '[' || c = '\x7b' then container (c :: rest)
    else .error (.next .expectedValue (c :: rest))

/-- An array or object whose parts are read by `inner`. -/
def containerOf (inner : Reader Json) : Reader Json := fun cs =>
  match cs with
  | '[' :: rest => mapped .array (items inner cs.length true) rest
  | '\x7b' :: rest => mapped .object (members (entry inner) cs.length true []) rest
  | rest => .error (.next .expectedValue rest)

/-- A value that may nest `depth` deep. -/
def value : Nat → Reader Json
  | 0 => valueWith fun cs => .error (.next .tooDeep cs)
  | depth + 1 => valueWith (containerOf (value depth))

/-! ## 3. Documents -/

/-- The end of a document. -/
def atEnd {α : Type} (read : Reader α) (cs : List Char) : Except Fault α :=
  match read cs with
  | .error f => .error f
  | .ok (x, rest) =>
    match skipBlanks rest with
    | [] => .ok x
    | rest => .error (.next .trailingCharacters rest)

end Reader

/-- The value of a document. -/
def parse (text : String) : Except Fault Json :=
  Reader.atEnd (Reader.value depthLimit) text.toList

/-- The value of a document, if it is one. -/
def parse? (text : String) : Option Json :=
  match parse text with
  | .ok v => some v
  | .error _ => none

/-- The entries of a document that is an object. -/
def parseObject? (text : String) : Option (Fields Json) :=
  match parse? text with
  | some (.object fields) => some fields
  | _ => none

end Tsconfig.Json
