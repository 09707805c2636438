/-
# Looking up paths

A route is followed from the root or the working directory, one step at a time.  A link on the way is
replaced by its target, at most 40 times in one lookup, and a double dot leaves the directory that the
steps so far have reached.  A path of more than 4095 bytes is refused before any step.  The end of a
route is an entry that is no link, or a free name in a directory (`End`), or the lookup is refused
(`AccessError`).
-/
import Tsconfig.FileSystem.Basic

namespace Tsconfig

/-- Why the system refuses an access. -/
inductive AccessError
  | notFound
  | notDirectory
  | isDirectory
  | busy
  | nameTooLong
  | tooManyLinks
  | nulInName
  | notText
  deriving DecidableEq

/-- The words of the system. -/
def AccessError.message : AccessError → String
  | .notFound => "No such file or directory (os error 2)"
  | .notDirectory => "Not a directory (os error 20)"
  | .isDirectory => "Is a directory (os error 21)"
  | .busy => "Device or resource busy (os error 16)"
  | .nameTooLong => "File name too long (os error 36)"
  | .tooManyLinks => "Too many levels of symbolic links (os error 40)"
  | .nulInName => "file name contained an unexpected NUL byte"
  | .notText => "stream did not contain valid UTF-8"

namespace FileSystem

/-- How many links one lookup follows. -/
def linkLimit : Nat := 40

/-- The greatest length of a name in bytes. -/
def nameLimit : Nat := 255

/-- Where a route ends. -/
inductive End
  | entry (loc : Location)
  | free (dir : Location) (name : WrittenPath)
  deriving DecidableEq

/-- What a lookup is for: an entry that is there, or a file that is opened and made if need be. -/
inductive Purpose
  | find
  | create
  deriving DecidableEq

/-! ## 1. Following steps -/

/-- Follow steps from a location.  A slash after the last one asks for a directory, and a file that is
to be opened cannot be one.  `jump` takes over at a link, with the place it lies in, its target and the
steps after it. -/
def along (fs : FileSystem) (purpose : Purpose) (slash : Bool)
    (jump : Location → Route → List Step → Except AccessError End) :
    Location → List Step → Except AccessError End
  | loc, [] =>
    if slash && fs.get? loc ≠ some .directory then .error .notDirectory else .ok (.entry loc)
  | loc, step :: rest =>
    match fs.get? loc with
    | some .directory =>
      match step with
      | .here => fs.along purpose slash jump loc rest
      | .up => fs.along purpose slash jump loc.dropLast rest
      | .into name =>
        if purpose = .create && slash && rest.isEmpty then .error .isDirectory
        else if nameLimit < name.size then .error .nameTooLong
        else
          match fs.get? (loc ++ [name]) with
          | none => if rest.isEmpty && !slash then .ok (.free loc name) else .error .notFound
          | some (.link target) => jump loc (Route.parse target) rest
          | some _ => fs.along purpose slash jump (loc ++ [name]) rest
    | _ => .error .notDirectory

/-- Follow steps through at most `links` links. -/
def walk (fs : FileSystem) (purpose : Purpose) :
    Nat → Location → List Step → Bool → Except AccessError End
  | 0, loc, steps, slash => fs.along purpose slash (fun _ _ _ => .error .tooManyLinks) loc steps
  | links + 1, loc, steps, slash =>
    fs.along purpose slash
      (fun loc target rest =>
        if target.isEmpty then .error .notFound
        else
          fs.walk purpose links (if target.rooted then [] else loc) (target.steps ++ rest)
            (slash || (rest.isEmpty && target.slash)))
      loc steps

/-! ## 2. Routes -/

/-- The location that a route starts from. -/
def origin (fs : FileSystem) (r : Route) : Location :=
  if r.rooted then [] else fs.workingDirectory

/-- What is wrong with a route before any step is taken. -/
def refusal? (r : Route) : Option AccessError :=
  if r.hasNul then some .nulInName
  else if r.isTooLong then some .nameTooLong
  else if r.isEmpty then some .notFound
  else none

/-- Where a route ends, all links followed. -/
def locate (fs : FileSystem) (purpose : Purpose) (r : Route) : Except AccessError End :=
  match refusal? r with
  | some e => .error e
  | none => fs.walk purpose linkLimit (fs.origin r) r.steps r.slash

/-- The location of the entry that a route names. -/
def resolve? (fs : FileSystem) (r : Route) : Option Location :=
  match fs.locate .find r with
  | .ok (.entry loc) => some loc
  | _ => none

/-- The entry that a route names, links followed. -/
def find? (fs : FileSystem) (r : Route) : Option Entry :=
  (fs.resolve? r).bind fs.get?

/-- Whether a route names an entry. -/
def isEntry (fs : FileSystem) (r : Route) : Bool := (fs.find? r).isSome

/-- Whether a route names a file. -/
def isFile (fs : FileSystem) (r : Route) : Bool :=
  match fs.find? r with
  | some (.file _) => true
  | _ => false

/-- Whether a route names a directory. -/
def isDirectory (fs : FileSystem) (r : Route) : Bool :=
  match fs.find? r with
  | some .directory => true
  | _ => false

/-- The text of the file that a route names. -/
def readText (fs : FileSystem) (r : Route) : Except AccessError String :=
  match fs.locate .find r with
  | .error e => .error e
  | .ok (.free _ _) => .error .notFound
  | .ok (.entry loc) =>
    match fs.get? loc with
    | some (.file (.text s)) => .ok s
    | some (.file (.binary _)) => .error .notText
    | some .directory => .error .isDirectory
    | _ => .error .notFound

/-! ## 3. Paths -/

/-- The working directory as a path. -/
def workingPath (fs : FileSystem) : Path := ⟨true, fs.workingDirectory⟩

/-- A written path made absolute and lexically normal. -/
def absolute (fs : FileSystem) (path : WrittenPath) : Path := fs.workingPath.resolve path

/-- The directory that a path designates: itself if it is one, its parent if not. -/
def directoryOf (fs : FileSystem) (p : Path) : Path :=
  if fs.isDirectory p.route then p else p.parent

/-- The directory that a written path designates, as it is shown. -/
def writtenDirectoryOf (fs : FileSystem) (path : WrittenPath) : String :=
  (if fs.isDirectory (Route.parse path) then path else path.parent?.getD path).shown

/-- A path and the paths above it, itself first. -/
def ancestors (p : Path) : List Path :=
  (List.range (p.names.length + 1)).map fun n => { p with names := p.names.take (p.names.length - n) }

/-- The nearest of a path and the paths above it in which a route names a file. -/
def nearestWith? (fs : FileSystem) (p : Path) (name : Route) : Option Path :=
  (ancestors p).find? fun dir => fs.isFile (dir.route.append name)

/-- More steps than any route to an entry has that follows at most `linkLimit` links: between two
links it only goes down. -/
def depthBound (fs : FileSystem) : Nat := (linkLimit + 1) * (fs.height + 1)

/-- More than the number of different paths that name an entry. -/
def pathBound (fs : FileSystem) : Nat :=
  Nat.pow (fs.allNames.length + 2) (fs.depthBound + fs.workingDirectory.length + 1)

end FileSystem

end Tsconfig
