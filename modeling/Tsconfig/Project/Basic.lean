/-
# Resolved projects

A resolved project has its options as codes, the full list of its files, and its editor settings.  Its
location names the directory and the descriptor, in slashes.
-/
import Tsconfig.FormatOptions
import Tsconfig.Descriptor.Basic
import Tsconfig.Path.Basic

namespace Tsconfig

/-- A resolved project. -/
structure Project where
  compilerOptions : Fields Json
  files : List String
  filesGlob : Option (List String)
  formatOptions : FormatOptions
  compileOnSave : Bool

/-- A resolved project and where it is. -/
structure LocatedProject where
  directory : String
  descriptorPath : String
  project : Project

namespace LocatedProject

/-- The location of a project in a directory. -/
def ofDirectory (dir : Path) (project : Project) : LocatedProject :=
  let directory := WrittenPath.dropSlash (WrittenPath.withSlashes dir.written)
  { directory
    descriptorPath := directory ++ "/" ++ Descriptor.fileName
    project }

end LocatedProject

/-- A project as a value.  Patterns are left out where there are none. -/
def Project.toJson (p : Project) : Json :=
  .object ([("compilerOptions", .object p.compilerOptions), ("files", .strings p.files)] ++
    Descriptor.optionalEntry "filesGlob" .strings p.filesGlob ++
    [("formatCodeOptions", p.formatOptions.toJson), ("compileOnSave", .bool p.compileOnSave)])

/-- A location as a value. -/
def LocatedProject.toJson (l : LocatedProject) : Json :=
  .object [
    ("projectFileDirectory", .string l.directory),
    ("projectFilePath", .string l.descriptorPath),
    ("project", l.project.toJson)]

end Tsconfig
