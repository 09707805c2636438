/-
# Running a command

A command runs on a file system and answers what it prints, its exit code, and the file system as it
is left.  Results go to the standard output, failures and debug lines to the standard error; nothing
but failures and JSON is printed in quiet mode.  A failure is printed with its context in front and its
source behind it.
-/
import Tsconfig.Command.Arguments
import Tsconfig.Json.Printer
import Tsconfig.Project.Loader

namespace Tsconfig.Command

/-- The name and version of the program. -/
def versionLine : String := "tsproj 0.1.0"

/-- How much is printed. -/
inductive Verbosity
  | quiet
  | normal
  | debug
  deriving DecidableEq

/-- How much the settings ask for.  Quiet wins over debug. -/
def Settings.verbosity (s : Settings) : Verbosity :=
  if s.quiet then .quiet else if s.debug then .debug else .normal

/-! ## 1. Output -/

/-- Lines for the two outputs. -/
structure Output where
  out : List String := []
  err : List String := []
  deriving DecidableEq

namespace Output

/-- One output after the other. -/
def append (a b : Output) : Output := ⟨a.out ++ b.out, a.err ++ b.err⟩

instance : Append Output := ⟨append⟩

/-- A line that is always printed. -/
def line (text : String) : Output := { out := [text] }

/-- A line that is printed unless all is quiet. -/
def print (v : Verbosity) (text : String) : Output :=
  if v = .quiet then {} else line text

/-- A line for debugging. -/
def debug (v : Verbosity) (text : String) : Output :=
  if v = .debug then { err := ["[debug] " ++ text] } else {}

end Output

/-- Lines as text, each with its end. -/
def linesText (lines : List String) : String :=
  Text.joinWith "" (lines.map (· ++ "\n"))

/-- Items one a line, each behind a mark. -/
def markedLines (items : List String) (mark : String) : String :=
  Text.joinWith "\n" (items.map (mark ++ ·))

/-! ## 2. Requests -/

/-- What came of a request: its output, and what stopped it, as a chain of messages. -/
structure Result where
  output : Output
  failure : Option (List String)
  files : FileSystem

/-- The blanks of a level in printed JSON. -/
def jsonIndent : Nat := 2

/-- A resolved project: as JSON, or its descriptor and its files relative to its directory. -/
def locationOutput (v : Verbosity) (json : Bool) (l : LocatedProject) : Output :=
  if json then .line (l.toJson.pretty jsonIndent)
  else
    let dir := Path.ofText l.directory
    let files := l.project.files.map fun f : String => Path.relativeText dir (Path.ofText f)
    Output.print v l.descriptorPath ++
      (if files.isEmpty then {} else Output.print v (markedLines files "  ")) ++
      Output.debug v (toString files.length ++ " file(s) in project")

/-- The messages of a failure behind its context. -/
def failureOf (context : String) (e : ProjectError) : List String :=
  context :: e.message :: e.source?.toList

/-- The directory that a request runs in. -/
def workingPath (s : Settings) (fs : FileSystem) : Path :=
  match s.cwd with
  | some dir => fs.workingPath.resolve dir
  | none => fs.workingPath

/-- The path that a request is about: the working directory if none is given. -/
def targetPath (s : Settings) (fs : FileSystem) (path : Option String) : Path :=
  match path with
  | some p => (workingPath s fs).resolve p
  | none => workingPath s fs

/-- A path in slashes between quotes. -/
def quotedPath (p : Path) : String := "'" ++ WrittenPath.withSlashes p.written ++ "'"

/-- The options that the parameters of `init` make. -/
def initOptions (fs : FileSystem) (target : Path) (languageTarget moduleKind : Option String)
    (declaration noImplicitAny : Bool) : Fields Json :=
  let raw := Options.encode Options.defaults
  let raw := match languageTarget with
    | some t => raw.insert "target" (.string t)
    | none => raw
  let raw := match moduleKind with
    | some m => raw.insert "module" (.string m)
    | none => raw
  let raw := if declaration then raw.insert "declaration" (.bool true) else raw
  let raw := if noImplicitAny then raw.insert "noImplicitAny" (.bool true) else raw
  Options.decode raw (fs.directoryOf target)

/-- Run a request. -/
def runRequest (s : Settings) (fs : FileSystem) : Request → Result
  | .resolve path json =>
    let target := targetPath s fs path
    match Loader.standard.load fs target.written with
    | (.ok l, fs) => ⟨locationOutput s.verbosity json l, none, fs⟩
    | (.error e, fs) =>
      ⟨{}, some (failureOf ("Failed to resolve project for " ++ quotedPath target) e), fs⟩
  | .init path languageTarget moduleKind declaration noImplicitAny =>
    let target := targetPath s fs path
    let options := initOptions fs target languageTarget moduleKind declaration noImplicitAny
    match Loader.standard.create fs target.written (some options) with
    | (.ok l, fs) =>
      ⟨Output.print s.verbosity ("Created " ++ l.descriptorPath) ++
        locationOutput s.verbosity false l, none, fs⟩
    | (.error e, fs) =>
      ⟨{}, some (failureOf ("Failed to create project for " ++ quotedPath target) e), fs⟩
  | .default file json =>
    let target := targetPath s fs (some file)
    match Loader.standard.single fs target.written with
    | .ok l => ⟨locationOutput s.verbosity json l, none, fs⟩
    | .error e =>
      ⟨{}, some (failureOf ("Failed to build default project for " ++ quotedPath target) e), fs⟩
  | .validate path =>
    let target := targetPath s fs path
    match Loader.standard.load fs target.written with
    | (.ok l, fs) => ⟨Output.print s.verbosity ("ok: " ++ l.descriptorPath), none, fs⟩
    | (.error e, fs) =>
      ⟨Output.debug s.verbosity ("details: " ++ e.details.compact),
        some [e.message ++ " [" ++ e.code ++ "]"], fs⟩
  | .completion _ => ⟨{}, none, fs⟩

/-! ## 3. The program -/

/-- What the program answers: printed text with an exit code, or guidance on its use, whose wording is
left to the caller. -/
inductive Reply
  | printed (exit : Nat) (out err : String)
  | guidance (exit : Nat)
  deriving DecidableEq

/-- The reply to a command line that is not run. -/
def stopReply : Stop → Reply
  | .help => .guidance 0
  | .version => .printed 0 (linesText [versionLine]) ""
  | .misuse => .guidance 2

/-- The reply for a result. -/
def resultReply (r : Result) : Reply :=
  match r.failure with
  | none => .printed 0 (linesText r.output.out) (linesText r.output.err)
  | some messages =>
    .printed 1 (linesText r.output.out)
      (linesText (r.output.err ++ ["error: " ++ Text.joinWith ": " messages]))

/-- Run a command line. -/
def run (fs : FileSystem) (args : List String) : Reply × FileSystem :=
  match parse args with
  | .error s => (stopReply s, fs)
  | .ok (_, .completion _) => (.guidance 0, fs)
  | .ok (settings, request) =>
    let r := runRequest settings fs request
    (resultReply r, r.files)

end Tsconfig.Command
