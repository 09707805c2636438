/-
# The files that a file depends on

A reference names a file as it is or without its extension; an import is followed when it starts with a
dot, and never names its extension.  Names are resolved against the directory of the file that holds
them.  A name without a file is dropped, and a file that cannot be read depends on nothing.
-/
import Tsconfig.FileSystem.Lookup
import Tsconfig.Source.References

namespace Tsconfig.Dependency

/-- What reads the names from a text. -/
abbrev Extractor := String → Source.References

/-- The first of some paths that names a file. -/
def firstFile? (fs : FileSystem) (paths : List Path) : Option Path :=
  paths.find? fun p => fs.isFile p.route

/-- The file that a reference names. -/
def ofReference? (fs : FileSystem) (dir : Path) (name : String) : Option Path :=
  let p := dir.resolve name
  firstFile? fs [p, p.withSuffix ".ts", p.withSuffix ".d.ts"]

/-- The file that an import names, if it is followed. -/
def ofImport? (fs : FileSystem) (dir : Path) (name : String) : Option Path :=
  if WrittenPath.isRelative name then
    let p := dir.resolve name
    firstFile? fs [p.withSuffix ".ts", p.withSuffix ".d.ts"]
  else none

/-- The files that the text of a file in `dir` names: references first, then imports. -/
def ofText (fs : FileSystem) (extract : Extractor) (dir : Path) (text : String) : List Path :=
  let names := extract text
  names.files.filterMap (ofReference? fs dir) ++ names.imports.filterMap (ofImport? fs dir)

/-- The files that a file depends on. -/
def direct (fs : FileSystem) (extract : Extractor) (file : Route) : List Path :=
  match fs.readText file with
  | .error _ => []
  | .ok text => ofText fs extract (Path.empty.follow file).parent text

end Tsconfig.Dependency
