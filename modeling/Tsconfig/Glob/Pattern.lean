/-
# Glob patterns

A pattern is a sequence of tokens: characters, `?`, `*`, classes, alternatives, and `**` in its three
places: in front, at the end, and between two slashes.  Patterns match bytes, so `?` takes one byte of
a character that has several.  A slash is matched by a slash, a class that holds it, or `**`.

A token matches by what it leaves: `Token.rests t s` are the rests of `s` after a part that `t`
matches.  A pattern accepts a text when the empty rest is among those it leaves.
-/

namespace Tsconfig.Glob

/-- One token of a pattern. -/
inductive Token
  /-- A character, as itself. -/
  | literal (c : Char)
  /-- `?`: one byte that is no slash. -/
  | any
  /-- `*`: bytes that are no slashes. -/
  | star
  /-- `**/` in front: nothing, or everything up to some slash. -/
  | treeStart
  /-- `/**` at the end: a slash and everything behind it. -/
  | treeEnd
  /-- `/**/`: a slash, or everything between two slashes and both. -/
  | tree
  /-- A class of characters, given by ranges. -/
  | class (negated : Bool) (ranges : List (Char × Char))
  /-- Alternatives between braces. -/
  | alternatives (branches : List (List Token))

/-- A pattern. -/
abbrev Pattern := List Token

/-! ## 1. Bytes -/

/-- The bytes of a character. -/
def bytesOf (c : Char) : List UInt8 := String.utf8EncodeChar c

/-- The bytes of a text. -/
def textBytes (s : String) : List UInt8 := s.toList.flatMap bytesOf

/-- The slash as a byte. -/
def slash : UInt8 := 47

/-- The byte ranges of a range of characters.  Characters of several bytes are taken byte by byte, and
the range goes from the last byte of the first one to the first byte of the last one. -/
def byteRanges (r : Char × Char) : List (UInt8 × UInt8) :=
  if r.1 = r.2 then (bytesOf r.1).map fun b => (b, b)
  else
    (bytesOf r.1).dropLast.map (fun b => (b, b)) ++
      ((bytesOf r.1).getLast?.toList.zip (bytesOf r.2).head?.toList) ++
      (bytesOf r.2).tail.map fun b => (b, b)

/-- Whether a byte lies in a class. -/
def inClass (negated : Bool) (ranges : List (Char × Char)) (b : UInt8) : Bool :=
  (ranges.flatMap byteRanges).any (fun r => r.1 ≤ b && b ≤ r.2) != negated

/-! ## 2. Rests -/

/-- The rest after the given bytes. -/
def afterBytes : List UInt8 → List UInt8 → List (List UInt8)
  | [], s => [s]
  | _ :: _, [] => []
  | b :: bs, c :: s => if b = c then afterBytes bs s else []

/-- The rests after any number of bytes that are no slashes. -/
def afterNames : List UInt8 → List (List UInt8)
  | [] => [[]]
  | b :: s => (b :: s) :: if b = slash then [] else afterNames s

/-- The rests behind each slash. -/
def afterSlashes : List UInt8 → List (List UInt8)
  | [] => []
  | b :: s => if b = slash then s :: afterSlashes s else afterSlashes s

/-- All rests. -/
def allRests : List UInt8 → List (List UInt8)
  | [] => [[]]
  | b :: s => (b :: s) :: allRests s

/-- The rest after one byte of a kind. -/
def afterOne (accepts : UInt8 → Bool) : List UInt8 → List (List UInt8)
  | [] => []
  | b :: s => if accepts b then [s] else []

mutual

/-- Whether a token is made of empty alternatives only. -/
def Token.isVoid : Token → Bool
  | .alternatives branches => branchesVoid branches
  | _ => false

/-- Whether all tokens of a sequence are void. -/
def sequenceVoid : List Token → Bool
  | [] => true
  | t :: ts => t.isVoid && sequenceVoid ts

/-- Whether all branches are void. -/
def branchesVoid : List (List Token) → Bool
  | [] => true
  | ts :: rest => sequenceVoid ts && branchesVoid rest

end

mutual

/-- What a token leaves of a text.  Void branches do not count, unless all are void. -/
def Token.rests : Token → List UInt8 → List (List UInt8)
  | .literal c, s => afterBytes (bytesOf c) s
  | .any, s => afterOne (· ≠ slash) s
  | .star, s => afterNames s
  | .treeStart, s => s :: afterSlashes s
  | .treeEnd, s => (afterBytes [slash] s).flatMap allRests
  | .tree, s => (afterBytes [slash] s).flatMap fun s => s :: afterSlashes s
  | .class negated ranges, s => afterOne (inClass negated ranges) s
  | .alternatives branches, s => if branchesVoid branches then [s] else branchesRests branches s

/-- What a sequence leaves of any of some texts. -/
def sequenceRests : List Token → List (List UInt8) → List (List UInt8)
  | [], texts => texts
  | t :: ts, texts => sequenceRests ts (texts.flatMap t.rests).eraseDups

/-- What the branches leave of a text. -/
def branchesRests : List (List Token) → List UInt8 → List (List UInt8)
  | [], _ => []
  | ts :: rest, s =>
    if sequenceVoid ts then branchesRests rest s
    else sequenceRests ts [s] ++ branchesRests rest s

end

/-! ## 3. Acceptance -/

/-- Whether a pattern is `**` alone, which accepts everything. -/
def isEverything : Pattern → Bool
  | [.treeStart] => true
  | _ => false

/-- Whether a pattern accepts a text. -/
def accepts (p : Pattern) (text : String) : Bool :=
  isEverything p || (sequenceRests p [textBytes text]).contains []

end Tsconfig.Glob
