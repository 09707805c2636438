/-
# Written paths

What can be read off a written path, and what is done to it, without looking at any file: the pieces
between its slashes, the directory part, the file name and its extension, one path after another, and
the text that is shown of it, with slashes for backslashes.
-/
import Tsconfig.Path.Letters
import Tsconfig.Text.Pieces

namespace Tsconfig.WrittenPath

/-! ## 1. Pieces -/

/-- The pieces of a path between its slashes. -/
def pieces (path : WrittenPath) : List WrittenPath :=
  (Text.pieces (.char '/') path.toList).map ofList

/-- Pieces one after the other with slashes in between. -/
def joined : List WrittenPath → WrittenPath
  | [] => ""
  | [x] => x
  | x :: xs => x ++ "/" ++ joined xs

/-! ## 2. The parts of a path -/

/-- A reversed path without the slashes and dots in front; a last slash stays. -/
def trimReversed : List Letter → List Letter
  | .char '.' :: .char '/' :: rest => if rest.isEmpty then ['/'] else trimReversed ('/' :: rest)
  | .char '/' :: rest => if rest.isEmpty then ['/'] else trimReversed rest
  | cs => cs

/-- The path without its trailing slashes and dots; a slash in front stays. -/
def trimEnd (path : WrittenPath) : WrittenPath :=
  ofList (trimReversed path.toList.reverse).reverse

/-- The last piece of a path, and what stands before it. -/
def lastPiece (path : WrittenPath) : WrittenPath × WrittenPath :=
  let cs := path.toList.reverse
  (ofList (cs.dropWhile (· ≠ .char '/')).reverse, ofList (cs.takeWhile (· ≠ .char '/')).reverse)

/-- The directory part of a path: the path without its last step.  A path without steps has none. -/
def parent? (path : WrittenPath) : Option WrittenPath :=
  let core := trimEnd path
  if core = "/" || core = "" then none
  else some (trimEnd (lastPiece core).1)

/-- The name at the end of a path, unless that is a dot or two. -/
def fileName? (path : WrittenPath) : Option WrittenPath :=
  let name := (lastPiece (trimEnd path)).2
  if name = "" || name = "." || name = ".." then none else some name

/-- A file name cut at its last dot, into its stem and its extension.  A dot in front cuts nothing. -/
def splitName (name : WrittenPath) : WrittenPath × Option WrittenPath :=
  let cs := name.toList.reverse
  match cs.dropWhile (· ≠ .char '.') with
  | _ :: c :: before =>
    (ofList (c :: before).reverse, some (ofList (cs.takeWhile (· ≠ .char '.')).reverse))
  | _ => (name, none)

/-- The path without as many letters at its end as the extension of its file name has. -/
def cutExtension (path : WrittenPath) : WrittenPath :=
  match (fileName? path).bind fun name => (splitName name).2 with
  | none => path
  | some extension => ofList (path.toList.take (path.toList.length - extension.toList.length))

/-- The path with an extension behind the stem of its file name.  A path without a file name stays. -/
def setExtension (path extension : WrittenPath) : WrittenPath :=
  match fileName? path with
  | none => path
  | some name => (lastPiece (trimEnd path)).1 ++ (splitName name).1 ++ "." ++ extension

/-- The path with the extension of its file name replaced.  Where two dots are all that the old
extension leaves, they name the directory above and get no other one. -/
def withExtension (path extension : WrittenPath) : WrittenPath :=
  setExtension (cutExtension path) extension

/-- A path with another one after it, which replaces it if it starts at the root. -/
def join (path other : WrittenPath) : WrittenPath :=
  if other.toList.head? = some (.char '/') then other
  else if path = "" || path.toList.getLast? = some (.char '/') then path ++ other
  else path ++ "/" ++ other

/-! ## 3. Paths that are shown -/

/-- The path as it is shown, with slashes only. -/
def withSlashes (path : WrittenPath) : String :=
  String.ofList (path.shown.toList.map fun c => if c = '\\' then '/' else c)

/-- The text without one slash at its end. -/
def dropSlash (text : String) : String :=
  match text.toList.reverse with
  | '/' :: rest => String.ofList rest.reverse
  | _ => text

/-- Whether a module is named by a path that starts with a dot. -/
def isRelative (specifier : String) : Bool :=
  specifier.toList.head? = some '.'

end Tsconfig.WrittenPath
