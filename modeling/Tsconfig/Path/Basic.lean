/-
# Lexically normal paths

A `Path` has a root or not, and names: no dot, no double dot, no empty piece.  Routes are resolved
onto it step by step, and a double dot removes the last name, if there is one, so that nothing climbs
above the root.  Resolution does not look at any file.

A path is written exactly (`Path.written`); its text is what is shown of that (`Path.text`), where names
that are not UTF-8 are lost.
-/
import Tsconfig.Path.Route
import Tsconfig.Path.Written

namespace Tsconfig

/-- A path without dots. -/
structure Path where
  rooted : Bool
  names : List WrittenPath
  deriving DecidableEq

namespace Path

/-- The root. -/
def root : Path := ⟨true, []⟩

/-- The relative path without a name. -/
def empty : Path := ⟨false, []⟩

/-- The path as it is written. -/
def written (p : Path) : WrittenPath :=
  (if p.rooted then "/" else "") ++ WrittenPath.joined p.names

/-- The path as it is shown. -/
def text (p : Path) : String := p.written.shown

/-- The path as a route. -/
def route (p : Path) : Route :=
  ⟨p.rooted, p.names.map .into, false, p.written.size⟩

/-- The path without its last name. -/
def parent (p : Path) : Path := { p with names := p.names.dropLast }

/-- The path with a name after it. -/
def child (p : Path) (name : WrittenPath) : Path := { p with names := p.names ++ [name] }

/-- The path with `suffix` put to its last name. -/
def withSuffix (p : Path) (suffix : WrittenPath) : Path :=
  match p.names.getLast? with
  | none => p.child suffix
  | some name => p.parent.child (name ++ suffix)

/-! ## Resolution -/

/-- Take one step. -/
def step (p : Path) : Step → Path
  | .here => p
  | .up => p.parent
  | .into name => p.child name

/-- Take steps one after the other. -/
def along (p : Path) (steps : List Step) : Path := steps.foldl step p

/-- Resolve a route against a path.  A rooted route does not depend on it. -/
def follow (p : Path) (r : Route) : Path :=
  (if r.rooted then root else p).along r.steps

/-- Resolve a written path against a path. -/
def resolve (p : Path) (path : WrittenPath) : Path := p.follow (Route.parse path)

/-- A written path, resolved against nothing. -/
def ofText (path : WrittenPath) : Path := empty.resolve path

@[simp] theorem along_into (p : Path) (names : List WrittenPath) :
    p.along (names.map .into) = { p with names := p.names ++ names } := by
  induction names generalizing p with
  | nil => simp [along]
  | cons n ns ih =>
    have h := ih (p.child n)
    simp only [along, List.map_cons, List.foldl_cons, step] at h ⊢
    rw [h]
    simp [child]

/-- A path from the root resolves to itself. -/
theorem follow_route (p q : Path) (h : q.rooted = true) : p.follow q.route = q := by
  simp only [follow, route, h, if_true, along_into, root]
  cases q
  simp_all

/-- A path resolves to itself against nothing. -/
@[simp] theorem empty_follow_route (p : Path) : empty.follow p.route = p := by
  obtain ⟨rooted, names⟩ := p
  cases rooted <;> simp [follow, route, empty, root]

/-- A path is told apart by its names. -/
@[simp] theorem key_route (p : Path) : p.route.key = (p.rooted, p.names.map .into) := by
  have h (xs : List Step) (hx : ∀ s ∈ xs, s ≠ .here) : xs.filter (· ≠ .here) = xs := by
    simpa using hx
  have hn : ∀ s ∈ p.names.map Step.into, s ≠ .here := by simp
  obtain ⟨rooted, names⟩ := p
  cases rooted
  · simp only [Route.key, Route.bareSteps, route]
    rw [h _ fun s hs => hn s (List.mem_of_mem_drop hs)]
    simp only [Bool.false_eq_true, if_false, List.take_append_drop]
  · simp only [Route.key, Route.bareSteps, route, if_true]
    rw [h _ hn]

/-! ## From one path to another -/

/-- The number of leading names that two lists share. -/
def sharedLength : List WrittenPath → List WrittenPath → Nat
  | x :: xs, y :: ys => if x = y then sharedLength xs ys + 1 else 0
  | _, _ => 0

/-- The way from a folder to a target: one double dot for each part of the folder outside the common
part, the root counting as one, then the rest of the target. -/
def way (folder target : Path) : WrittenPath :=
  if folder.rooted = target.rooted then
    let n := sharedLength folder.names target.names
    .joined (.replicate (folder.names.length - n) (".." : WrittenPath) ++ target.names.drop n)
  else if target.rooted then target.written
  else .joined (.replicate (folder.names.length + 1) (".." : WrittenPath) ++ target.names)

/-- The way from a folder to a target as it is shown, in slashes and with `./` in front of one that
starts with no dot. -/
def relativeText (folder target : Path) : String :=
  let text := WrittenPath.withSlashes (way folder target)
  if WrittenPath.isRelative text then text else "./" ++ text

end Path

end Tsconfig
