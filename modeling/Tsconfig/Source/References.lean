/-
# The files that source text names

Source text names files in two ways: reference directives, `/// <reference path="..." />`, which are
comments and are read from the text as it is; and imports and exports of modules, which are read from
the text without its comments.  The names come in the order of the text.
-/
import Tsconfig.Source.Clauses
import Tsconfig.Source.Comments

namespace Tsconfig.Source

open Text (isBlank isIndent isWord)

/-- The files that a text names. -/
structure References where
  /-- The paths of reference directives. -/
  files : List String
  /-- The modules of imports and exports. -/
  imports : List String
  deriving DecidableEq

/-- A text that names nothing. -/
def References.none : References := ⟨[], []⟩

/-! ## 1. Reference directives -/

/-- The text after a directive's tag up to the name in quotes. -/
def directiveHead? (cs : List Char) : Option (List Char) :=
  after? "///".toList (skipIndent cs)
    |>.bind (fun cs => after? "<reference".toList (skipIndent cs))
    |>.bind afterBlanks?
    |>.bind (after? "path".toList)
    |>.bind (fun cs => after? "=".toList (skipBlanks cs))
    |>.map skipBlanks

/-- A reference directive: its path, and the text after its closing bracket. -/
def directive? (cs : List Char) : Option (List Char × List Char) :=
  match (directiveHead? cs).bind (quotedText? fun c => !isStringQuote c) with
  | none => .none
  | some (path, rest) =>
    match rest.dropWhile (· ≠ '>') with
    | [] => .none
    | _ :: rest => some (path, rest)

/-! ## 2. Imports and exports

A module is named together with the length of the text behind the opening quote, which tells where the
name stands. -/

/-- A module name and where it stands. -/
structure Mention where
  name : List Char
  unread : Nat
  deriving DecidableEq

/-- A character of a module name. -/
def isModuleChar (c : Char) : Bool := !isStringQuote c && c ≠ '\n'

/-- A module name in quotes. -/
def mention? (cs : List Char) : Option (Mention × List Char) :=
  (quotedText? isModuleChar cs).map fun p => (⟨p.1, cs.length - 1⟩, p.2)

/-- A character between `import` and `from`. -/
def isBindingChar (c : Char) : Bool :=
  isIdentifier c || c = '*' || c = '\x7b' || c = '\x7d' || c = ',' || isBlank c

/-- The text without its trailing blanks. -/
def trimBlanks (cs : List Char) : List Char := (cs.reverse.dropWhile isBlank).reverse

/-- Whether a text is blanks, bindings and blanks, at least one character of each. -/
def isBindings (cs : List Char) : Bool :=
  cs.all isBindingChar && 3 ≤ cs.length &&
    cs.head?.any isBlank && cs.getLast?.any isBlank

/-- Whether a text can stand between the keyword and the quote: blanks, or bindings and `from`. -/
def isImportHead (cs : List Char) : Bool :=
  if cs.all isBlank then !cs.isEmpty
  else
    let head := trimBlanks cs
    let n := head.length - "from".length
    head.drop n = "from".toList && isBindings (head.take n)

/-- The text after the keyword of an import or export declaration. -/
def importKeyword? (cs : List Char) : Option (List Char) :=
  (after? "import".toList cs).or (after? "export".toList cs)

/-- An import or export declaration with a module name behind it. -/
def importFrom? (cs : List Char) : Option (Mention × List Char) :=
  match importKeyword? (skipIndent cs) with
  | none => .none
  | some cs =>
    if isImportHead (cs.takeWhile fun c => !isStringQuote c) then
      mention? (cs.dropWhile fun c => !isStringQuote c)
    else .none

/-- The text after an `export` with blanks behind it, or the text as it is. -/
def skipExport (cs : List Char) : List Char :=
  ((after? "export".toList cs).bind afterBlanks?).getD cs

/-- The text after an identifier. -/
def afterIdentifier? (cs : List Char) : Option (List Char) :=
  match cs with
  | [] => .none
  | c :: rest => if isIdentifier c then some (rest.dropWhile isIdentifier) else .none

/-- The text of an `import x = require(` declaration from the module name on. -/
def requireHead? (cs : List Char) : Option (List Char) :=
  after? "import".toList (skipExport (skipIndent cs))
    |>.bind afterBlanks?
    |>.bind afterIdentifier?
    |>.bind (fun cs => after? "=".toList (skipBlanks cs))
    |>.bind (fun cs => after? "require".toList (skipBlanks cs))
    |>.bind (fun cs => after? "(".toList (skipBlanks cs))
    |>.map skipBlanks

/-- An `import x = require("...")` declaration. -/
def importRequire? (cs : List Char) : Option (Mention × List Char) :=
  match (requireHead? cs).bind mention? with
  | none => .none
  | some (m, rest) => (after? ")".toList (skipBlanks rest)).map fun rest => (m, rest)

/-- Put a mention into a list at its place in the text. -/
def insertMention (m : Mention) : List Mention → List Mention
  | [] => [m]
  | x :: xs => if x.unread < m.unread then m :: x :: xs else x :: insertMention m xs

/-- The module names of a text without comments, in order. -/
def mentions (cs : List Char) : List Mention :=
  (clauses importRequire? cs).foldl (fun ms m => insertMention m ms) (clauses importFrom? cs)

/-! ## 3. All of them -/

/-- The files that a text names. -/
def references (text : String) : References where
  files := (clauses directive? text.toList).map String.ofList
  imports := (mentions (withoutComments text.toList)).map fun m => String.ofList m.name

end Tsconfig.Source
