/-
# Paths as they are written

A path is written as pieces between slashes.  Cut at the slashes it becomes a `Route`: whether it
starts at the root, its steps, and whether it ends in a slash.  Doubled slashes and single dots inside
mean nothing and are dropped; a dot in front of a relative path and one at the very end are kept,
because the first tells `./a` from `a` and the second asks for a directory.  The size of the written
path is kept as well, because the system refuses a path that is too long.
-/
import Tsconfig.Path.Written

namespace Tsconfig

/-- One step of a path. -/
inductive Step
  | here
  | up
  | into (name : WrittenPath)
  deriving DecidableEq

/-- A path cut at its slashes. -/
structure Route where
  rooted : Bool
  steps : List Step
  /-- Whether the path ends in a slash, after a step. -/
  slash : Bool
  /-- The bytes of the path as it is written. -/
  size : Nat
  deriving DecidableEq

namespace Route

/-- Whether a piece of a path is a name. -/
def isName (piece : WrittenPath) : Bool :=
  piece ≠ "" && piece ≠ "." && piece ≠ ".." && !piece.toList.contains '/'

/-- The step that a piece names. -/
def stepOf (piece : WrittenPath) : Step :=
  if piece = "." then .here else if piece = ".." then .up else .into piece

/-- The steps of the pieces after the first.  Empty pieces are dropped, and so are dots that are not
the last piece with a name. -/
def laterSteps : List WrittenPath → List Step
  | [] => []
  | piece :: rest =>
    if piece = "" then laterSteps rest
    else if piece = "." then
      if rest.all (fun p => p = "" || p = ".") then [.here] else laterSteps rest
    else stepOf piece :: laterSteps rest

/-- The steps of a relative path: a dot in front counts. -/
def relativeSteps : List WrittenPath → List Step
  | [] => []
  | piece :: rest => if piece = "." then .here :: laterSteps rest else laterSteps (piece :: rest)

/-- Cut a path. -/
def parse (path : WrittenPath) : Route :=
  match path.pieces with
  | [] => ⟨false, [], false, path.size⟩
  | [only] => ⟨false, relativeSteps [only], false, path.size⟩
  | first :: rest =>
    let steps := if first = "" then laterSteps rest else relativeSteps (first :: rest)
    ⟨first = "", steps, !steps.isEmpty && rest.getLast? = some (.ofText ""), path.size⟩

/-- The steps without those that stay where they are.  A relative path may start with one. -/
def bareSteps (r : Route) : List Step :=
  if r.rooted then r.steps.filter (· ≠ .here)
  else r.steps.take 1 ++ (r.steps.drop 1).filter (· ≠ .here)

/-- What tells two routes apart: not the dot or the slash that asks for a directory at the end. -/
def key (r : Route) : Bool × List Step := (r.rooted, r.bareSteps)

/-- Whether the route has no step and does not start at the root. -/
def isEmpty (r : Route) : Bool := !r.rooted && r.steps.isEmpty

/-- Whether another route can be written behind the route without a slash in between. -/
def isOpen (r : Route) : Bool := r.isEmpty || r.slash || (r.rooted && r.steps.isEmpty)

/-- The route with another one after it.  A rooted one replaces it. -/
def append (r s : Route) : Route :=
  if s.rooted then s
  else
    let size := if r.isOpen then r.size + s.size else r.size + 1 + s.size
    if s.steps.isEmpty then { r with slash := !r.steps.isEmpty, size }
    else ⟨r.rooted, r.steps ++ s.steps, s.slash, size⟩

/-- The names that the route steps into. -/
def names (r : Route) : List WrittenPath :=
  r.steps.filterMap fun
    | .into name => some name
    | _ => none

/-- Whether one of the names holds a NUL, which no name in a file system does. -/
def hasNul (r : Route) : Bool := r.names.any (·.toList.contains '\x00')

/-- The greatest size of a path that the system takes. -/
def sizeLimit : Nat := 4095

/-- Whether the path is longer than the system takes. -/
def isTooLong (r : Route) : Bool := sizeLimit < r.size

end Route

end Tsconfig
