/-
# Reading a line of source text

The small readers that the directives and declarations of source text are made of.  Each takes the
unread text and answers the rest, if the text starts as it should.  Clauses start at the start of a
line (`clauses`); a clause that goes on over line ends hides the line starts inside it.
-/
import Tsconfig.Text.Blank
import Tsconfig.Text.Word

namespace Tsconfig.Source

open Text (isBlank isIndent isWord)

/-! ## 1. Parts of a clause -/

/-- The rest after the given characters. -/
def after? : List Char → List Char → Option (List Char)
  | [], rest => some rest
  | _ :: _, [] => none
  | c :: cs, d :: rest => if c = d then after? cs rest else none

/-- The text after its leading blanks. -/
def skipBlanks (cs : List Char) : List Char := cs.dropWhile isBlank

/-- The text after its leading blanks, of which there is one at least. -/
def afterBlanks? : List Char → Option (List Char)
  | [] => none
  | c :: rest => if isBlank c then some (skipBlanks rest) else none

/-- The text after the indent of its line. -/
def skipIndent (cs : List Char) : List Char := cs.dropWhile isIndent

/-- A single or double quote. -/
def isStringQuote (c : Char) : Bool := c = '"' || c = '\x27'

/-- A character of an identifier. -/
def isIdentifier (c : Char) : Bool := isWord c || c = '$'

/-- A text between quotes, of characters that `inside` accepts, one at least.  The two quotes need not
be the same. -/
def quotedText? (inside : Char → Bool) : List Char → Option (List Char × List Char)
  | [] => none
  | q :: cs =>
    if isStringQuote q then
      match cs.takeWhile inside, cs.dropWhile inside with
      | _ :: _, q :: rest => if isStringQuote q then some (cs.takeWhile inside, rest) else none
      | _, _ => none
    else none

/-! ## 2. Clauses at line starts -/

/-- The text after its first line end. -/
def nextLine? (cs : List Char) : Option (List Char) :=
  match cs.dropWhile (· ≠ '\n') with
  | [] => none
  | _ :: rest => some rest

/-- The clauses that start at the first `n` line starts, the first of them where the text starts.
After a clause reading goes on at the next line start behind it. -/
def clausesUpTo {α : Type} (clause : List Char → Option (α × List Char)) :
    Nat → List Char → List α
  | 0, _ => []
  | n + 1, cs =>
    let onward (rest : List Char) : List α :=
      match nextLine? rest with
      | none => []
      | some line => clausesUpTo clause n line
    match clause cs with
    | some (x, rest) => x :: onward rest
    | none => onward cs

/-- The clauses of a text; there are no more line starts than characters, and one. -/
def clauses {α : Type} (clause : List Char → Option (α × List Char)) (cs : List Char) : List α :=
  clausesUpTo clause (cs.length + 1) cs

end Tsconfig.Source
