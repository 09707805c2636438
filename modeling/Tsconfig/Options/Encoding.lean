/-
# Options in a descriptor and in a project

A descriptor names the language target and the module system; a project holds their codes.  Decoding
(`decode`) starts from the defaults, puts every entry over them under its current name, and makes the
output paths absolute.  Encoding puts the names back: the last name of a code (`encode`), or the last
one that a descriptor may hold (`encodeAccepted`).
-/
import Tsconfig.Options.Schema
import Tsconfig.Path.Basic

namespace Tsconfig.Options

/-! ## 1. Codes -/

/-- The language targets.  A code is written back as the last of its names. -/
def targetCodes : Fields Int := [("es3", 0), ("es5", 1), ("es6", 2), ("latest", 2)]

/-- The module systems. -/
def moduleCodes : Fields Int := [("none", 0), ("commonjs", 1), ("amd", 2)]

/-- The codes of an option that has codes. -/
def codes? (name : String) : Option (Fields Int) :=
  if name = "target" then some targetCodes
  else if name = "module" then some moduleCodes
  else none

/-- The code of a name, in capitals or not.  No letter beyond ASCII has a small form that occurs in a
name, so the capitals of ASCII are the only ones that matter. -/
def codeOf? (codes : Fields Int) (name : String) : Option Int := codes.get? (lowered name)

/-- The last name of a code that is accepted. -/
def lastName? (codes : Fields Int) (code : Int) (accepts : String → Bool) : Option String :=
  (codes.reverse.find? fun e => e.2 = code && accepts e.1).map Prod.fst

/-- The name a code is written as: the last accepted one, or the last one if none is accepted. -/
def nameOf? (codes : Fields Int) (code : Int) (accepts : String → Bool) : Option String :=
  (lastName? codes code accepts).or (lastName? codes code fun _ => true)

/-! ## 2. Decoding -/

/-- The options of a project that sets none: ES5 and CommonJS. -/
def defaults : Fields Json := [
  ("target", .int 1),
  ("module", .int 1),
  ("declaration", .bool false),
  ("noImplicitAny", .bool false),
  ("removeComments", .bool true),
  ("noLib", .bool false)]

/-- The options that hold a path. -/
def pathNames : List String := ["outDir", "out"]

/-- Put an entry over the options so far.  A name without a code is dropped. -/
def layer (options : Fields Json) (name : String) (value : Json) : Fields Json :=
  let name := currentName name
  match codes? name with
  | none => options.insert name value
  | some codes =>
    match value.asString?.bind (codeOf? codes) with
    | some code => options.insert name (.int code)
    | none => options

/-- Make a path option absolute, in slashes. -/
def resolvePath (dir : Path) (options : Fields Json) (name : String) : Fields Json :=
  match options.get? name with
  | some (.string path) =>
    options.insert name (.string (WrittenPath.withSlashes (dir.resolve path).written))
  | _ => options

/-- The options of a project in `dir` from those of its descriptor. -/
def decode (raw : Fields Json) (dir : Path) : Fields Json :=
  pathNames.foldl (resolvePath dir) (raw.foldl (fun m e => layer m e.1 e.2) defaults)

/-! ## 3. Encoding -/

/-- Write the code of an option as a name. -/
def nameCode (accepts : String → String → Bool) (options : Fields Json) (name : String) :
    Fields Json :=
  match codes? name, (options.get? name).bind Json.asInt? with
  | some codes, some code =>
    match nameOf? codes code (accepts name) with
    | some n => options.insert name (.string n)
    | none => options
  | _, _ => options

/-- Write the codes of options as names. -/
def nameCodes (accepts : String → String → Bool) (options : Fields Json) : Fields Json :=
  ["target", "module"].foldl (nameCode accepts) options

/-- The options with names for codes. -/
def encode (options : Fields Json) : Fields Json := nameCodes (fun _ _ => true) options

/-- Whether the descriptor may hold a value for an option. -/
def isAccepted (name value : String) : Bool :=
  match (spec? name).bind Spec.values with
  | some allowed => allowed.contains value
  | none => true

/-- The options as they are written to a new descriptor. -/
def encodeAccepted (options : Fields Json) : Fields Json := nameCodes isAccepted options

end Tsconfig.Options
