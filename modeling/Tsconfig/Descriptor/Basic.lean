/-
# The project descriptor

The file `tsconfig.json` of a project: its version, compiler options, files, the patterns that select
them, editor settings, and every other key as it stands.  The order in which keys were read is kept,
so that writing the descriptor back does not move them.
-/
import Tsconfig.Json.Value

namespace Tsconfig

/-- A project descriptor. -/
structure Descriptor where
  version : Option String
  compilerOptions : Fields Json
  files : Option (List String)
  filesGlob : Option (List String)
  formatCodeOptions : Option Json
  compileOnSave : Option Bool
  /-- The keys without a meaning here. -/
  extra : Fields Json
  /-- The top-level keys in the order in which they were read. -/
  keyOrder : List String

namespace Descriptor

/-- The descriptor without any key. -/
def empty : Descriptor := ⟨none, [], none, none, none, none, [], []⟩

/-- The name of a descriptor file. -/
def fileName : String := "tsconfig.json"

/-- The version that a new descriptor is stamped with. -/
def currentVersion : String := "1.4.1"

/-- An entry for a value that is there. -/
def optionalEntry {α : Type} (name : String) (f : α → Json) : Option α → Fields Json
  | none => []
  | some x => [(name, f x)]

/-- The entries of the keys with a meaning, in the order in which a new descriptor has them. -/
def knownFields (d : Descriptor) : Fields Json :=
  optionalEntry "version" .string d.version ++
  [("compilerOptions", .object d.compilerOptions)] ++
  optionalEntry "files" .strings d.files ++
  optionalEntry "filesGlob" .strings d.filesGlob ++
  optionalEntry "formatCodeOptions" id d.formatCodeOptions ++
  optionalEntry "compileOnSave" .bool d.compileOnSave

/-- All entries.  An extra key with the name of a known one takes its place and value. -/
def fields (d : Descriptor) : Fields Json := Fields.insertAll d.knownFields d.extra

end Descriptor

end Tsconfig
