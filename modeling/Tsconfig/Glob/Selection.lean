/-
# Selecting files by patterns

Patterns are applied in their order: a plain one adds the files that it accepts and that are not
selected yet, one with an exclamation mark in front takes away the selected files that it accepts.  So
the last pattern that applies to a file decides.  A plain pattern looks only below its literal root,
the leading directories of the pattern that hold no glob character; the root may lead out of the base
directory.
-/
import Tsconfig.Glob.Listing
import Tsconfig.Glob.Parser
import Tsconfig.Text.Pieces

namespace Tsconfig.Glob

/-- Why files cannot be selected. -/
inductive ExpandError
  | badPattern (pattern message : String)
  | unlistable (path message : String)
  deriving DecidableEq

/-- The words for an error. -/
def ExpandError.message : ExpandError → String
  | .badPattern pattern message => "invalid glob pattern '" ++ pattern ++ "': " ++ message
  | .unlistable path message => "failed to walk '" ++ path ++ "': " ++ message

/-- The patterns of a project that names neither files nor patterns. -/
def defaultPatterns : List String := ["./**/*.ts", "!./node_modules/**/*.ts"]

/-! ## 1. One pattern -/

/-- A pattern that has been read. -/
structure Rule where
  negated : Bool
  /-- The directories that every accepted file lies below. -/
  root : String
  pattern : Pattern

/-- Whether a piece of a pattern holds a glob character. -/
def isGlobPiece (piece : String) : Bool :=
  piece.toList.any fun c => c = '*' || c = '?' || c = '[' || c = '\x7b'

/-- The leading pieces without a glob character.  The last piece names files and never counts. -/
def fixedRoot (body : String) : String :=
  Text.joinWith "/" (((Text.splitAt '/' body).dropLast).takeWhile fun p => !isGlobPiece p)

/-- The text without the given characters in front. -/
def dropFront (front : String) (text : String) : String :=
  if front.toList.isPrefixOf text.toList then String.ofList (text.toList.drop front.length) else text

/-- The pattern behind an exclamation mark and a dot with a slash. -/
def bodyOf (pattern : String) : String := dropFront "./" (dropFront "!" pattern)

/-- Read a pattern. -/
def Rule.parse (pattern : String) : Except ExpandError Rule :=
  let body := bodyOf pattern
  match Glob.parse body with
  | .error e =>
    .error (.badPattern pattern ("error parsing glob '" ++ body ++ "': " ++ e.message))
  | .ok tokens => .ok ⟨pattern.toList.head? = some '!', fixedRoot body, tokens⟩

/-- Whether a pattern accepts a candidate. -/
def Rule.accepts (r : Rule) (candidate : String) : Bool := Glob.accepts r.pattern candidate

/-! ## 2. The candidates of a pattern -/

/-- A file below a root, as the pattern sees it. -/
def candidate (root : String) (way : Way) : String :=
  let text := WrittenPath.withSlashes (.joined way)
  if root = "" then text else root ++ "/" ++ text

/-- The files below a root of a base directory, as the patterns see them. -/
def candidates (fs : FileSystem) (base : Path) (root : String) : List String :=
  (listFiles fs (base.resolve root)).map (candidate root)

/-! ## 3. Selection -/

/-- Add the files of a list that are not there yet. -/
def addNew (selected : List String) (files : List String) : List String :=
  files.foldl (fun s f => if s.contains f then s else s ++ [f]) selected

/-- Apply a pattern to the files that are selected. -/
def Rule.apply (fs : FileSystem) (base : Path) (selected : List String) (r : Rule) : List String :=
  if r.negated then selected.filter fun f => !r.accepts f
  else addNew selected ((candidates fs base r.root).filter r.accepts)

/-- A selected file as a relative path that starts with a dot. -/
def marked (file : String) : String :=
  if "../".toList.isPrefixOf file.toList then file else "./" ++ file

/-- Read patterns one after the other. -/
def rules : List String → Except ExpandError (List Rule)
  | [] => .ok []
  | p :: ps =>
    match Rule.parse p with
    | .error e => .error e
    | .ok r =>
      match rules ps with
      | .error e => .error e
      | .ok rs => .ok (r :: rs)

/-- The files that patterns select below a base directory. -/
def expand (fs : FileSystem) (base : Path) (patterns : List String) :
    Except ExpandError (List String) :=
  match rules patterns with
  | .error e => .error e
  | .ok rs => .ok ((rs.foldl (Rule.apply fs base) []).map marked)

end Tsconfig.Glob
