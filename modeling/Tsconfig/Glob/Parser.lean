/-
# Reading a glob pattern

A pattern is read character by character.  Outside of classes a backslash takes the next character as
itself, a brace opens alternatives, a bracket a class.  `**` stands for a tree only next to slashes, the
ends of the pattern and the ends of alternatives, and is two stars elsewhere.  The state holds the
tokens of the branch that is being read and the alternatives that are open around it.
-/
import Tsconfig.Glob.Pattern

namespace Tsconfig.Glob

/-- Why a pattern is refused. -/
inductive Problem
  | unclosedClass
  | invalidRange (low high : Char)
  | unopenedAlternatives
  | unclosedAlternatives
  | danglingEscape
  deriving DecidableEq

/-- The words for a problem. -/
def Problem.message : Problem → String
  | .unclosedClass => "unclosed character class; missing ']'"
  | .invalidRange low high =>
    "invalid range; '" ++ String.singleton low ++ "' > '" ++ String.singleton high ++ "'"
  | .unopenedAlternatives =>
    "unopened alternate group; missing '\x7b' (maybe escape '\x7d' with '[\x7d]'?)"
  | .unclosedAlternatives =>
    "unclosed alternate group; missing '\x7d' (maybe escape '\x7b' with '[\x7b]'?)"
  | .danglingEscape => "dangling '\\'"

/-! ## 1. The state -/

/-- Alternatives that are open: the tokens in front of them, and the branches that are complete. -/
structure Group where
  before : List Token
  branches : List (List Token)

/-- What has been read: the tokens of the branch, the open alternatives around it, and the last
character. -/
structure State where
  tokens : List Token := []
  groups : List Group := []
  last : Option Char := none

namespace State

/-- Add a token to the branch. -/
def push (s : State) (t : Token) : State := { s with tokens := s.tokens ++ [t] }

/-- Note the character that was read. -/
def reading (s : State) (c : Char) : State := { s with last := some c }

/-- Open alternatives. -/
def openGroup (s : State) : State :=
  { s with tokens := [], groups := ⟨s.tokens, []⟩ :: s.groups }

/-- Begin the next branch, or take the comma as itself outside of alternatives. -/
def nextBranch (s : State) : State :=
  match s.groups with
  | [] => s.push (.literal ',')
  | g :: gs =>
    { s with tokens := [], groups := { g with branches := g.branches ++ [s.tokens] } :: gs }

/-- Close the alternatives that were opened last. -/
def closeGroup (s : State) : Except Problem State :=
  match s.groups with
  | [] => .error .unopenedAlternatives
  | g :: gs =>
    .ok { s with
      tokens := g.before ++ [.alternatives (g.branches ++ [s.tokens])]
      groups := gs }

/-- Two stars that are no tree. -/
def pushStars (s : State) : State := (s.push .star).push .star

/-- Put a tree in place of the last token, unless that is a tree at its end already. -/
def pushTree (s : State) (t : Token) : State :=
  match s.tokens.getLast? with
  | some .treeStart => s
  | some .treeEnd => s
  | _ => { s with tokens := s.tokens.dropLast ++ [t] }

/-- Whether `**` can continue a tree: after a slash, or where a branch of alternatives begins. -/
def treeMayFollow (s : State) : Bool :=
  s.last = some '/' || (!s.groups.isEmpty && (s.last = some ',' || s.last = some '\x7b'))

/-- Take `**` with a slash behind it. -/
def starsSlash (s : State) : State :=
  if s.tokens.isEmpty then s.push .treeStart
  else if s.treeMayFollow then s.pushTree .tree
  else s.pushStars.push (.literal '/')

/-- Take `**` with anything but a slash behind it. -/
def stars (s : State) (next : Option Char) : State :=
  if s.tokens.isEmpty then
    match next with
    | none => s.push .treeStart
    | some _ => s.pushStars
  else if s.treeMayFollow then
    match next with
    | none => s.pushTree .treeEnd
    | some c =>
      if !s.groups.isEmpty && (c = ',' || c = '\x7d') then s.pushTree .treeEnd else s.pushStars
  else s.pushStars

end State

/-! ## 2. Classes -/

/-- A class while it is read: its ranges so far, whether nothing has been read, and whether a dash
waits for the end of its range. -/
structure ClassState where
  negated : Bool
  ranges : List (Char × Char) := []
  fresh : Bool := true
  waiting : Bool := false

namespace ClassState

/-- Add a character as its own range. -/
def add (c : ClassState) (x : Char) : ClassState :=
  { c with ranges := c.ranges ++ [(x, x)], fresh := false, waiting := false }

/-- End the last range with a character. -/
def endRange (c : ClassState) (x : Char) : Except Problem ClassState :=
  match c.ranges.getLast? with
  | none => .ok (c.add x)
  | some (low, _) =>
    if x < low then .error (.invalidRange low x)
    else
      .ok { c with ranges := c.ranges.dropLast ++ [(low, x)], fresh := false, waiting := false }

/-- Take a character that does not close the class. -/
def take (c : ClassState) (x : Char) : Except Problem ClassState :=
  if x = '-' then
    if c.fresh then .ok (c.add x)
    else if c.waiting then c.endRange x
    else .ok { c with waiting := true }
  else if c.waiting then c.endRange x
  else .ok (c.add x)

/-- The class as a token.  A dash that waited stands for itself. -/
def token (c : ClassState) : Token :=
  .class c.negated (if c.waiting then c.ranges ++ [('-', '-')] else c.ranges)

end ClassState

/-! ## 3. The pattern -/

mutual

/-- Read a pattern from a state on. -/
def read (s : State) : List Char → Except Problem State
  | [] => .ok s
  | '?' :: rest => read ((s.push .any).reading '?') rest
  | '[' :: '!' :: rest => readClass s { negated := true } rest
  | '[' :: '^' :: rest => readClass s { negated := true } rest
  | '[' :: rest => readClass s { negated := false } rest
  | '\x7b' :: rest => read (s.openGroup.reading '\x7b') rest
  | '\x7d' :: rest =>
    match s.closeGroup with
    | .error e => .error e
    | .ok s => read (s.reading '\x7d') rest
  | ',' :: rest => read (s.nextBranch.reading ',') rest
  | '\\' :: [] => .error .danglingEscape
  | '\\' :: c :: rest => read ((s.push (.literal c)).reading c) rest
  | '*' :: '*' :: '/' :: rest => read (s.starsSlash.reading '/') rest
  | '*' :: '*' :: rest => read ((s.stars rest.head?).reading '*') rest
  | '*' :: rest => read ((s.push .star).reading '*') rest
  | c :: rest => read ((s.push (.literal c)).reading c) rest

/-- Read a class. -/
def readClass (s : State) (c : ClassState) : List Char → Except Problem State
  | [] => .error .unclosedClass
  | x :: rest =>
    if x = ']' && !c.fresh then read ((s.push c.token).reading ']') rest
    else
      match c.take x with
      | .error e => .error e
      | .ok c => readClass s c rest

end

/-- The pattern of a text. -/
def parse (text : String) : Except Problem Pattern :=
  match read {} text.toList with
  | .error e => .error e
  | .ok s => if s.groups.isEmpty then .ok s.tokens else .error .unclosedAlternatives

end Tsconfig.Glob
