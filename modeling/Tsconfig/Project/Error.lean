/-
# Why a project cannot be had

Each failure has a cause, and from the cause follow its kind, its stable code, its message and its
details.  Paths in messages and details are written in slashes.
-/
import Tsconfig.FileSystem.Lookup
import Tsconfig.Glob.Selection
import Tsconfig.Options.Schema

namespace Tsconfig

/-- What is wrong with the options of a descriptor. -/
inductive OptionsError
  | offence (o : Options.Offence)
  | outUnsupported
  deriving DecidableEq

/-- The words for it. -/
def OptionsError.message : OptionsError → String
  | .offence o => o.message
  | .outUnsupported => "We don't support --out because it will hurt you in the long run."

/-- Why a project cannot be resolved or created. -/
inductive ProjectError
  | noSuchPath (path : WrittenPath)
  | noDescriptor (searchedFrom : WrittenPath)
  | unreadable (path : WrittenPath) (cause : AccessError)
  | malformed (path : WrittenPath) (message : String)
  | badPatterns (path : WrittenPath) (patterns : List String) (cause : Glob.ExpandError)
  | badOptions (path : WrittenPath) (cause : OptionsError)
  | unwritable (path : WrittenPath) (cause : AccessError)
  | nothingThere (path : WrittenPath)
  | descriptorExists (path : WrittenPath)
  deriving DecidableEq

/-- The broad kinds of failure. -/
inductive ErrorKind
  | notFound
  | access
  | malformed
  | patterns
  | options
  | alreadyThere
  | precondition
  deriving DecidableEq

namespace ProjectError

open WrittenPath (withSlashes)

/-- The kind of a failure. -/
def kind : ProjectError → ErrorKind
  | .noSuchPath _ | .noDescriptor _ => .notFound
  | .unreadable _ _ | .unwritable _ _ => .access
  | .malformed _ _ => .malformed
  | .badPatterns _ _ _ => .patterns
  | .badOptions _ _ => .options
  | .descriptorExists _ => .alreadyThere
  | .nothingThere _ => .precondition

/-- The code of a failure, which does not change with its wording. -/
def code : ProjectError → String
  | .noSuchPath _ => "GET_PROJECT_INVALID_PATH"
  | .noDescriptor _ => "GET_PROJECT_NO_PROJECT_FOUND"
  | .unreadable _ _ => "GET_PROJECT_FAILED_TO_OPEN_PROJECT_FILE"
  | .malformed _ _ => "GET_PROJECT_JSON_PARSE_FAILED"
  | .badPatterns _ _ _ => "GET_PROJECT_GLOB_EXPAND_FAILED"
  | .badOptions _ _ => "GET_PROJECT_PROJECT_FILE_INVALID_OPTIONS"
  | .unwritable _ _ => "PROJECT_FILE_WRITE_FAILED"
  | .nothingThere _ => "CREATE_FILE_MUST_EXIST"
  | .descriptorExists _ => "CREATE_PROJECT_ALREADY_EXISTS"

/-- The words for a failure. -/
def message : ProjectError → String
  | .noSuchPath path => "Invalid Path: '" ++ withSlashes path ++ "' does not exist"
  | .noDescriptor start =>
    "No Project Found (searched upward from '" ++ withSlashes start ++ "')"
  | .unreadable path cause =>
    "Failed to read the project file '" ++ withSlashes path ++ "': " ++ cause.message
  | .malformed path message =>
    "Failed to parse the project file '" ++ withSlashes path ++ "': " ++ message
  | .badPatterns path _ cause =>
    "Failed to expand filesGlob in the project file '" ++ withSlashes path ++ "': " ++ cause.message
  | .badOptions path cause =>
    "Project file '" ++ withSlashes path ++ "' contains invalid options: " ++ cause.message
  | .unwritable path cause =>
    "Failed to write the project file '" ++ withSlashes path ++ "': " ++ cause.message
  | .nothingThere path => "To create a project the file must exist: '" ++ withSlashes path ++ "'"
  | .descriptorExists path => "Project file already exists: '" ++ withSlashes path ++ "'"

/-- The words for what caused the failure, where that is a failure of its own. -/
def source? : ProjectError → Option String
  | .unreadable _ cause | .unwritable _ cause => some cause.message
  | .badPatterns _ _ cause => some cause.message
  | _ => none

/-- A path as a detail. -/
def pathDetail (name : String) (path : WrittenPath) : String × Json := (name, .string (withSlashes path))

/-- The particulars of a failure, as a value. -/
def details : ProjectError → Json
  | .noSuchPath path | .nothingThere path => .object [pathDetail "path" path]
  | .noDescriptor start => .object [pathDetail "searchedFrom" start]
  | .descriptorExists path => .object [pathDetail "projectFilePath" path]
  | .unreadable path cause | .unwritable path cause =>
    .object [pathDetail "projectFilePath" path, ("error", .string cause.message)]
  | .malformed path message =>
    .object [pathDetail "projectFilePath" path, ("error", .string message)]
  | .badPatterns path patterns cause =>
    .object [("glob", .strings patterns), pathDetail "projectFilePath" path,
      ("errorMessage", .string cause.message)]
  | .badOptions path cause =>
    .object [pathDetail "projectFilePath" path, ("errorMessage", .string cause.message)]

end ProjectError

end Tsconfig
