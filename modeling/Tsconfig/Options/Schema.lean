/-
# The compiler options that are recognised

Each option has a name, a type and, for two of them, a closed set of values (`schema`).  Some names
have older spellings in lower case, which are read without regard to case (`currentName`).  Options
as they stand in a descriptor are checked entry by entry and the first offence is reported (`check`).
-/
import Tsconfig.Json.Value
import Tsconfig.Text.Pieces

namespace Tsconfig.Options

/-- The type of an option's value. -/
inductive Kind
  | boolean
  | string
  | number
  deriving DecidableEq

/-- The name of a type. -/
def Kind.name : Kind → String
  | .boolean => "boolean"
  | .string => "string"
  | .number => "number"

/-- Whether a value has the type. -/
def Kind.accepts : Kind → Json → Bool
  | .boolean, .bool _ => true
  | .string, .string _ => true
  | .number, .number _ => true
  | _, _ => false

/-- What an option takes: a type, and the values of a closed set. -/
structure Spec where
  kind : Kind
  values : Option (List String)
  deriving DecidableEq

/-- The options in the order in which messages list them. -/
def schema : Fields Spec := [
  ("allowNonTsExtensions", ⟨.boolean, none⟩),
  ("charset", ⟨.string, none⟩),
  ("codepage", ⟨.number, none⟩),
  ("declaration", ⟨.boolean, none⟩),
  ("diagnostics", ⟨.boolean, none⟩),
  ("emitBOM", ⟨.boolean, none⟩),
  ("help", ⟨.boolean, none⟩),
  ("locals", ⟨.string, none⟩),
  ("mapRoot", ⟨.string, none⟩),
  ("module", ⟨.string, some ["commonjs", "amd"]⟩),
  ("noEmitOnError", ⟨.boolean, none⟩),
  ("noErrorTruncation", ⟨.boolean, none⟩),
  ("noImplicitAny", ⟨.boolean, none⟩),
  ("noLib", ⟨.boolean, none⟩),
  ("noLibCheck", ⟨.boolean, none⟩),
  ("noResolve", ⟨.boolean, none⟩),
  ("out", ⟨.string, none⟩),
  ("outDir", ⟨.string, none⟩),
  ("preserveConstEnums", ⟨.boolean, none⟩),
  ("removeComments", ⟨.boolean, none⟩),
  ("sourceMap", ⟨.boolean, none⟩),
  ("sourceRoot", ⟨.string, none⟩),
  ("suppressImplicitAnyIndexErrors", ⟨.boolean, none⟩),
  ("target", ⟨.string, some ["es3", "es5", "es6"]⟩),
  ("version", ⟨.boolean, none⟩),
  ("watch", ⟨.boolean, none⟩)]

/-- What an option takes, by its exact name. -/
def spec? (name : String) : Option Spec := schema.get? name

/-! ## Older spellings -/

/-- Older spellings, in lower case, with the current ones. -/
def olderNames : Fields String := [
  ("outdir", "outDir"),
  ("noimplicitany", "noImplicitAny"),
  ("removecomments", "removeComments"),
  ("sourcemap", "sourceMap"),
  ("sourceroot", "sourceRoot"),
  ("maproot", "mapRoot"),
  ("nolib", "noLib")]

/-- A text with the capitals of ASCII made small. -/
def lowered (s : String) : String := String.ofList (s.toList.map Char.toLower)

/-- The current spelling of a name.  A name that is no older spelling stays. -/
def currentName (name : String) : String :=
  (olderNames.get? (lowered name)).getD name

/-! ## The check -/

/-- What is wrong with an entry. -/
inductive Offence
  | unknown (name : String)
  | wrongType (name : String) (expected : Kind) (found : String)
  | wrongValue (name value : String) (allowed : List String)
  deriving DecidableEq

/-- Texts with commas between them. -/
def listed (xs : List String) : String := Text.joinWith ", " xs

/-- The words for an offence.  Options are named as they are spelled in the descriptor. -/
def Offence.message : Offence → String
  | .unknown name =>
    "Unknown option: '" ++ name ++ "'. Valid options are: " ++ listed schema.keys
  | .wrongType name expected found =>
    "Invalid type for option '" ++ name ++ "': expected " ++ expected.name ++ ", got " ++ found
  | .wrongValue name value allowed =>
    "Invalid value '" ++ value ++ "' for option '" ++ name ++ "'. Valid values are: " ++
      listed allowed

/-- The offence of an entry, if it is one. -/
def offence? (name : String) (value : Json) : Option Offence :=
  match spec? (currentName name) with
  | none => some (.unknown name)
  | some spec =>
    if !spec.kind.accepts value then some (.wrongType name spec.kind value.typeName)
    else
      match spec.values, value with
      | some allowed, .string s =>
        if allowed.contains s then none else some (.wrongValue name s allowed)
      | _, _ => none

/-- The first offence among the entries. -/
def check (options : Fields Json) : Option Offence :=
  options.findSome? fun e => offence? e.1 e.2

end Tsconfig.Options
