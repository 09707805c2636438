/-
# The files below a directory

The files below a directory are listed depth first, the names of a directory in ascending order.  Links
are followed: a link to a file is a file, a link to a directory is entered unless it leads back to a
directory that the way to it has passed, and a link that leads nowhere is left out.  A directory whose
path is too long cannot be opened and counts as empty.
-/
import Tsconfig.FileSystem.Lookup

namespace Tsconfig.Glob

/-- The way from the listed directory to a file. -/
abbrev Way := List WrittenPath

/-- What an entry of a directory is, links followed: a file, or a directory and where it is. -/
inductive Kind
  | file
  | directory (loc : Location)
  | other
  deriving DecidableEq

/-- The path of an entry below a listed directory. -/
def pathBelow (base : Path) (way : Way) : Path := { base with names := base.names ++ way }

/-- What an entry is.  A link is looked up by its whole path from the listed directory on. -/
def kindOf (fs : FileSystem) (base : Path) (way : Way) (loc : Location) : Kind :=
  match fs.get? loc with
  | some (.file _) => .file
  | some .directory => .directory loc
  | some (.link _) =>
    match fs.resolve? (pathBelow base way).route with
    | none => .other
    | some target =>
      match fs.get? target with
      | some (.file _) => .file
      | some .directory => .directory target
      | _ => .other
  | none => .other

/-- Whether the entry at a location is a link. -/
def isLink (fs : FileSystem) (loc : Location) : Bool :=
  match fs.get? loc with
  | some (.link _) => true
  | _ => false

/-- The files below a directory at most `depth` levels deep.  `passed` are the directories on the way
to it, itself first. -/
def listFrom (fs : FileSystem) (base : Path) :
    Nat → List Location → Way → Location → List Way
  | 0, _, _, _ => []
  | depth + 1, passed, way, dir =>
    (fs.namesIn dir).flatMap fun name =>
      let loc := dir ++ [name]
      let way := way ++ [name]
      match kindOf fs base way loc with
      | .file => [way]
      | .other => []
      | .directory target =>
        if (isLink fs loc && passed.contains target) || (pathBelow base way).route.isTooLong then []
        else listFrom fs base depth (target :: passed) way target

/-- The files below the directory that a path names; none if it names no directory. -/
def listFiles (fs : FileSystem) (p : Path) : List Way :=
  match fs.resolve? p.route with
  | none => []
  | some loc =>
    if fs.isDirectory p.route then listFrom fs p fs.depthBound [loc] [] loc else []

end Tsconfig.Glob
