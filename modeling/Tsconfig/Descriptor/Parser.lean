/-
# Reading a descriptor

A descriptor is an object whose known keys have fixed types.  Each known key may stand there once; a
null value counts as absent.  Other keys are kept as they are, a repeated one with its last value.  A
byte order mark in front of the text is dropped before anything is counted.
-/
import Tsconfig.Descriptor.Basic
import Tsconfig.Json.Parser

namespace Tsconfig.Descriptor

open Json Json.Reader

/-! ## 1. Values of a type -/

/-- Read a value only to say that it is of the wrong type. -/
def found (expected : Expected) {α : Type} (f : α → Found) (read : Reader α) (cs : List Char) :
    Fault :=
  match read cs with
  | .error e => e
  | .ok (x, rest) => .here (.mismatch (f x) expected) rest

/-- A word that stands for a value of the wrong type. -/
def foundWord (expected : Expected) (x : Found) (w cs : List Char) : Fault :=
  match word w cs with
  | .error e => e
  | .ok rest => .here (.mismatch x expected) rest

/-- The fault of a text that starts with no value of the expected type. -/
def mismatch (expected : Expected) : List Char → Fault
  | [] => .next .endOfValue []
  | c :: rest =>
    if c = 'n' then foundWord expected .null "ull".toList rest
    else if c = 't' then foundWord expected (.bool true) "rue".toList rest
    else if c = 'f' then foundWord expected (.bool false) "alse".toList rest
    else if c = '-' then found expected .number (number true) rest
    else if c.isDigit then found expected .number (number false) (c :: rest)
    else if c = '"' then found expected .string string rest
    else if c = '[' then .here (.mismatch .sequence expected) (c :: rest)
    else if c = '\x7b' then .here (.mismatch .map expected) (c :: rest)
    else .next .expectedValue (c :: rest)

/-- A string. -/
def stringValue : Reader String := fun cs =>
  match skipBlanks cs with
  | '"' :: rest => string rest
  | rest => .error (mismatch .string rest)

/-- A truth value. -/
def boolValue : Reader Bool := fun cs =>
  match skipBlanks cs with
  | 't' :: rest => (word "rue".toList rest).map (true, ·)
  | 'f' :: rest => (word "alse".toList rest).map (false, ·)
  | rest => .error (mismatch .boolean rest)

/-- A list of strings. -/
def stringList : Reader (List String) := fun cs =>
  match skipBlanks cs with
  | '[' :: rest => items stringValue cs.length true rest
  | rest => .error (mismatch .sequence rest)

/-- The entries of an object inside a descriptor. -/
def objectValue : Reader (Fields Json) := fun cs =>
  match skipBlanks cs with
  | '\x7b' :: rest => members (entry (value (depthLimit - 2))) cs.length true [] rest
  | rest => .error (mismatch .map rest)

/-- Any value inside a descriptor. -/
def anyValue : Reader Json := value (depthLimit - 1)

/-- A value or null. -/
def optional {α : Type} (read : Reader α) : Reader (Option α) := fun cs =>
  match skipBlanks cs with
  | 'n' :: rest => (word "ull".toList rest).map (none, ·)
  | rest =>
    match read rest with
    | .error f => .error f
    | .ok (x, rest) => .ok (some x, rest)

/-! ## 2. The fields -/

/-- A descriptor while it is read: a known field that has been read is there, if only as null. -/
structure Draft where
  version : Option (Option String) := none
  compilerOptions : Option (Option (Fields Json)) := none
  files : Option (Option (List String)) := none
  filesGlob : Option (Option (List String)) := none
  formatCodeOptions : Option (Option Json) := none
  compileOnSave : Option (Option Bool) := none
  extra : Fields Json := []
  keyOrder : List String := []

/-- The descriptor of a draft.  Compiler options that are missing or null are empty. -/
def Draft.finish (d : Draft) : Descriptor where
  version := d.version.join
  compilerOptions := d.compilerOptions.join.getD []
  files := d.files.join
  filesGlob := d.filesGlob.join
  formatCodeOptions := d.formatCodeOptions.join
  compileOnSave := d.compileOnSave.join
  extra := d.extra
  keyOrder := d.keyOrder

/-- A key that is read twice.  The fault is found after the blanks behind it, and behind the brace if
that is where the object ends. -/
def duplicate (name : String) (cs : List Char) : Fault :=
  match skipBlanks cs with
  | '\x7d' :: rest => .next (.duplicateField name) ('\x7d' :: rest)
  | rest => .here (.duplicateField name) rest

/-- A known field: refused if it was read before, else read and put into the draft. -/
def field {α : Type} (name : String) (old : Option (Option α)) (read : Reader (Option α))
    (put : Option α → Draft) : Reader Draft := fun cs =>
  if old.isSome then .error (duplicate name cs)
  else
    match colon cs with
    | .error f => .error f
    | .ok rest =>
      match read rest with
      | .error f => .error f
      | .ok (x, rest) => .ok (put x, rest)

/-- A key that is read: it comes last in the order, unless it was read before. -/
def Draft.mention (d : Draft) (key : String) : Draft :=
  if d.keyOrder.contains key then d else { d with keyOrder := d.keyOrder ++ [key] }

/-- An entry of a descriptor, after its key. -/
def member (d : Draft) (key : String) : Reader Draft :=
  let m := d.mention key
  match key with
  | "version" =>
    field key d.version (optional stringValue) fun x => { m with version := some x }
  | "compilerOptions" =>
    field key d.compilerOptions (optional objectValue) fun x => { m with compilerOptions := some x }
  | "files" =>
    field key d.files (optional stringList) fun x => { m with files := some x }
  | "filesGlob" =>
    field key d.filesGlob (optional stringList) fun x => { m with filesGlob := some x }
  | "formatCodeOptions" =>
    field key d.formatCodeOptions (optional anyValue) fun x => { m with formatCodeOptions := some x }
  | "compileOnSave" =>
    field key d.compileOnSave (optional boolValue) fun x => { m with compileOnSave := some x }
  | key =>
    fun cs =>
      match entry anyValue d.extra key cs with
      | .error f => .error f
      | .ok (extra, rest) => .ok ({ m with extra }, rest)

/-- The fields of a descriptor. -/
def draft : Reader Draft := fun cs =>
  match skipBlanks cs with
  | '\x7b' :: rest => members member cs.length true {} rest
  | rest => .error (mismatch .descriptor rest)

/-! ## 3. The text -/

/-- The text without a byte order mark in front. -/
def withoutMark (text : String) : List Char :=
  match text.toList with
  | '\ufeff' :: rest => rest
  | cs => cs

/-- The descriptor of a text, or the words for its first fault. -/
def parse (text : String) : Except String Descriptor :=
  match atEnd draft (withoutMark text) with
  | .ok d => .ok d.finish
  | .error f => .error (f.message (withoutMark text))

end Tsconfig.Descriptor
