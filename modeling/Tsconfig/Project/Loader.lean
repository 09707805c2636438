/-
# Resolving and creating projects

The project that owns a path is the one of the nearest descriptor above it (`load`).  Its
descriptor is read, its patterns are expanded into files and the descriptor is written back if that
changes its text, its options are checked and decoded, and its files are closed under their
dependencies.  A new project gets a descriptor and is then resolved (`create`), and a single
file is a project without any descriptor (`single`).

What expands patterns and what reads names from source text are parameters (`Loader`).
-/
import Tsconfig.Dependency.Files
import Tsconfig.Descriptor.Store
import Tsconfig.Glob.Selection
import Tsconfig.Options.Encoding
import Tsconfig.Project.Basic

namespace Tsconfig

/-- What a project is resolved with. -/
structure Loader where
  /-- Expand patterns below a base directory. -/
  expand : FileSystem → Path → List String → Except Glob.ExpandError (List String)
  /-- Read the names of files from source text. -/
  extract : Dependency.Extractor

/-- The resolver that lists directories and reads references and imports. -/
def Loader.standard : Loader := ⟨Glob.expand, Source.references⟩

namespace Loader

open Descriptor (Outcome)

/-! ## 1. Files -/

/-- A written path made absolute, if it names an entry. -/
def existing? (fs : FileSystem) (path : WrittenPath) : Option Path :=
  let p := fs.absolute path
  if fs.isEntry p.route then some p else none

/-- The first occurrences in a list. -/
def firsts (seen : List String) : List String → List String
  | [] => []
  | x :: xs => if x ∈ seen then firsts seen xs else x :: firsts (x :: seen) xs

/-- Paths as texts in slashes, each once. -/
def fileTexts (files : List Path) : List String :=
  firsts [] (files.map fun p => WrittenPath.withSlashes p.written)

/-! ## 2. The steps of resolving -/

/-- The nearest file of a name, from a written directory upwards. -/
def nearestFile (fs : FileSystem) (start name : WrittenPath) : Except ProjectError WrittenPath :=
  match fs.nearestWith? (fs.absolute start) (Route.parse name) with
  | none => .error (.noDescriptor start)
  | some dir => .ok (dir.written.join name)

/-- The same, as it is shown. -/
def findFile (fs : FileSystem) (start name : WrittenPath) : Except ProjectError String :=
  (nearestFile fs start name).map WrittenPath.shown

/-- The nearest directory with a descriptor, from the directory that a path designates upwards. -/
def findDirectory (fs : FileSystem) (p : Path) : Except ProjectError Path :=
  let start := fs.directoryOf p
  match fs.nearestWith? start (Route.parse Descriptor.fileName) with
  | none => .error (.noDescriptor start.written)
  | some dir => .ok dir

/-- A descriptor that names neither files nor patterns gets the default patterns. -/
def withDefaultPatterns (d : Descriptor) : Descriptor :=
  if d.files.isNone && d.filesGlob.isNone then { d with filesGlob := some Glob.defaultPatterns }
  else d

/-- Expand the patterns of a descriptor, if it has any, into its files, and write it back if that
changes its text. -/
def expandFiles (r : Loader) (fs : FileSystem) (dir : Path) (text : String) (d : Descriptor) :
    Outcome Descriptor :=
  let path := (dir.child Descriptor.fileName).written
  match d.filesGlob with
  | none => (.ok d, fs)
  | some patterns =>
    match r.expand fs dir patterns with
    | .error cause => (.error (.badPatterns path patterns cause), fs)
    | .ok files =>
      let d := { d with files := some files }
      match Descriptor.update fs path d text with
      | (.error e, fs) => (.error e, fs)
      | (.ok _, fs) => (.ok d, fs)

/-- What is wrong with the options of a descriptor. -/
def optionsError? (options : Fields Json) : Option OptionsError :=
  match Options.check options with
  | some o => some (.offence o)
  | none => if options.contains "out" then some .outUnsupported else none

/-- The project of a descriptor whose files are known. -/
def projectOf (r : Loader) (fs : FileSystem) (dir : Path) (d : Descriptor) : Project where
  compilerOptions := Options.decode d.compilerOptions dir
  files := fileTexts
    (Dependency.closePaths fs r.extract ((d.files.getD []).map fun f : String => dir.resolve f))
  filesGlob := d.filesGlob
  formatOptions := FormatOptions.ofSetting d.formatCodeOptions
  compileOnSave := d.compileOnSave.getD true

/-- The project of a directory with a descriptor. -/
def resolveIn (r : Loader) (fs : FileSystem) (dir : Path) : Outcome LocatedProject :=
  let path := (dir.child Descriptor.fileName).written
  match Descriptor.read fs path with
  | .error e => (.error e, fs)
  | .ok (text, d) =>
    match r.expandFiles fs dir text (withDefaultPatterns d) with
    | (.error e, fs) => (.error e, fs)
    | (.ok d, fs) =>
      match optionsError? d.compilerOptions with
      | some cause => (.error (.badOptions path cause), fs)
      | none => (.ok (.ofDirectory dir (r.projectOf fs dir d)), fs)

/-! ## 3. The entry points -/

/-- The project that owns a path. -/
def load (r : Loader) (fs : FileSystem) (path : WrittenPath) : Outcome LocatedProject :=
  match existing? fs path with
  | none => (.error (.noSuchPath path), fs)
  | some p =>
    match findDirectory fs p with
    | .error e => (.error e, fs)
    | .ok dir => r.resolveIn fs dir

/-- The descriptor of a new project. -/
def newDescriptor (options : Option (Fields Json)) : Descriptor :=
  { Descriptor.empty with
    version := some Descriptor.currentVersion
    compilerOptions := Options.encodeAccepted (options.getD Options.defaults)
    filesGlob := some Glob.defaultPatterns }

/-- Create a project for a path, and resolve it. -/
def create (r : Loader) (fs : FileSystem) (path : WrittenPath)
    (options : Option (Fields Json)) : Outcome LocatedProject :=
  match existing? fs path with
  | none => (.error (.nothingThere path), fs)
  | some p =>
    let file := (fs.directoryOf p).child Descriptor.fileName
    if fs.isEntry file.route then (.error (.descriptorExists file.written), fs)
    else
      match Descriptor.save fs file.written (newDescriptor options) with
      | (.error e, fs) => (.error e, fs)
      | (.ok (), fs) => r.load fs p.written

/-- The project of a single file, without any descriptor. -/
def single (r : Loader) (fs : FileSystem) (path : WrittenPath) :
    Except ProjectError LocatedProject :=
  match existing? fs path with
  | none => .error (.noSuchPath path)
  | some p =>
    .ok (.ofDirectory (fs.directoryOf p)
      { compilerOptions := Options.defaults
        files := fileTexts (Dependency.closePaths fs r.extract [p])
        filesGlob := none
        formatOptions := FormatOptions.defaults
        compileOnSave := true })

end Loader

end Tsconfig
