/-
# A file system as a value

Directories, files and links at locations.  A location is the list of names from the root, with no
link on the way; the root itself is always a directory and has no entry.  Names are told by their
bytes, whether these are text or not (`WrittenPath`), and are kept exactly; bytes are lost only where a
path is shown.  Every change answers a new
value, and says in a lemma what it does to `get?`, so that "nothing else has changed" is a statement
about two values.
-/
import Tsconfig.Path.Basic

namespace Tsconfig

/-- What a file holds: text, or bytes that are no text. -/
inductive Contents
  | text (s : String)
  | binary (bytes : List UInt8)
  deriving DecidableEq

/-- The contents that some bytes make: text if they are UTF-8. -/
def Contents.ofBytes (bytes : List UInt8) : Contents :=
  match String.fromUTF8? ⟨bytes.toArray⟩ with
  | some s => .text s
  | none => .binary bytes

/-- What is found at a location. -/
inductive Entry
  | directory
  | file (contents : Contents)
  | link (target : WrittenPath)
  deriving DecidableEq

/-- The names from the root to an entry. -/
abbrev Location := List WrittenPath

/-- The entries by location, and the directory that relative paths start from, which is written with
names only. -/
structure FileSystem where
  entries : List (Location × Entry)
  workingDirectory : Location
  isPlain : workingDirectory.all Route.isName = true := by decide
  deriving DecidableEq

namespace FileSystem

/-! ## 1. Looking at a location -/

/-- The first entry of a location in a list. -/
def entryAt : List (Location × Entry) → Location → Option Entry
  | [], _ => none
  | (l, e) :: rest, loc => if l = loc then some e else entryAt rest loc

/-- The entry at a location. -/
def get? (fs : FileSystem) (loc : Location) : Option Entry :=
  if loc = [] then some .directory else entryAt fs.entries loc

/-- Put a name into an ordered list of names. -/
def insertName (name : WrittenPath) : List WrittenPath → List WrittenPath
  | [] => [name]
  | x :: xs => if name.bytes ≤ x.bytes then name :: x :: xs else x :: insertName name xs

/-- Names in ascending order of their bytes. -/
def sortNames (names : List WrittenPath) : List WrittenPath := names.foldr insertName []

/-- The name of a location in a directory, if it lies directly in it. -/
def nameIn? (dir loc : Location) : Option WrittenPath :=
  if loc.dropLast = dir then loc.getLast? else none

/-- The names in a directory, in ascending order. -/
def namesIn (fs : FileSystem) (dir : Location) : List WrittenPath :=
  sortNames (fs.entries.filterMap fun e => nameIn? dir e.1)

/-- The length of the longest location. -/
def height (fs : FileSystem) : Nat :=
  (fs.entries.map fun e => e.1.length).foldl max 0

/-- The names of all entries. -/
def allNames (fs : FileSystem) : List WrittenPath :=
  fs.entries.filterMap fun e => e.1.getLast?

/-! ## 2. Changing a location -/

/-- Set the entry of a location in a list, in place if it is there. -/
def setEntry : List (Location × Entry) → Location → Entry → List (Location × Entry)
  | [], loc, e => [(loc, e)]
  | (l, old) :: rest, loc, e =>
    if l = loc then (l, e) :: rest else (l, old) :: setEntry rest loc e

/-- Put an entry at a location. -/
def put (fs : FileSystem) (loc : Location) (e : Entry) : FileSystem :=
  { fs with entries := setEntry fs.entries loc e }

/-- Take the entry at a location away. -/
def erase (fs : FileSystem) (loc : Location) : FileSystem :=
  { fs with entries := fs.entries.filter fun e => e.1 ≠ loc }

/-- Take everything at and below a location away. -/
def eraseTree (fs : FileSystem) (loc : Location) : FileSystem :=
  { fs with entries := fs.entries.filter fun e => !loc.isPrefixOf e.1 }

theorem entryAt_setEntry (es : List (Location × Entry)) (loc other : Location) (e : Entry) :
    entryAt (setEntry es loc e) other = if loc = other then some e else entryAt es other := by
  induction es with
  | nil => simp [setEntry, entryAt]
  | cons x rest ih =>
    obtain ⟨l, old⟩ := x
    by_cases hl : l = loc
    · subst hl; simp [setEntry, entryAt]; split <;> simp_all
    · simp only [setEntry, hl, if_false, entryAt, ih]
      by_cases ho : l = other
      · subst ho; simp [Ne.symm hl]
      · simp [ho]

theorem entryAt_filter_ne (es : List (Location × Entry)) (loc other : Location) :
    entryAt (es.filter fun e => e.1 ≠ loc) other =
      if other = loc then none else entryAt es other := by
  induction es with
  | nil => simp [entryAt]
  | cons x rest ih =>
    obtain ⟨l, old⟩ := x
    by_cases hl : l = loc
    · subst hl
      simp only [ne_eq, decide_not, List.filter_cons, decide_true, Bool.not_true] at ih ⊢
      simp only [Bool.false_eq_true, if_false, ih, entryAt]
      by_cases ho : l = other
      · simp [ho]
      · simp [ho]
    · simp only [ne_eq, decide_not, List.filter_cons, hl, decide_false, Bool.not_false,
        if_true, entryAt] at ih ⊢
      by_cases ho : l = other
      · subst ho; simp [hl]
      · simp [ho, ih]

theorem get?_put (fs : FileSystem) {loc : Location} (h : loc ≠ []) (e : Entry) (other : Location) :
    (fs.put loc e).get? other = if loc = other then some e else fs.get? other := by
  unfold get? put
  by_cases ho : other = []
  · subst ho; simp [h]
  · simp [ho, entryAt_setEntry]

theorem get?_erase (fs : FileSystem) (loc other : Location) (h : other ≠ []) :
    (fs.erase loc).get? other = if other = loc then none else fs.get? other := by
  unfold get? erase
  simp only [h, if_false]
  exact entryAt_filter_ne fs.entries loc other

end FileSystem

end Tsconfig
