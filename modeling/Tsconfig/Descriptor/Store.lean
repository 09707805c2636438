/-
# Descriptors in files

A descriptor is read from a file and written to it in its canonical text.  Writing goes through a
temporary file beside it, which then takes the name of the descriptor, so that no half-written
descriptor is ever there; if a step fails, the temporary file is removed.
-/
import Tsconfig.Descriptor.Canonical
import Tsconfig.Descriptor.Parser
import Tsconfig.FileSystem.Change
import Tsconfig.Project.Error

namespace Tsconfig.Descriptor

/-- The extension of the temporary file. -/
def temporaryExtension : String := "json.tmp"

/-- The descriptor of a text that was read from a path. -/
def parseAt (path : WrittenPath) (text : String) : Except ProjectError Descriptor :=
  match parse text with
  | .ok d => .ok d
  | .error message => .error (.malformed path message)

/-- Read a descriptor: the text of the file and what it says. -/
def read (fs : FileSystem) (path : WrittenPath) : Except ProjectError (String × Descriptor) :=
  match fs.readText (Route.parse path) with
  | .error cause => .error (.unreadable path cause)
  | .ok text =>
    match parseAt path text with
    | .error e => .error e
    | .ok d => .ok (text, d)

/-- What came of a change: the result, and the file system as it is left. -/
abbrev Outcome (α : Type) := Except ProjectError α × FileSystem

/-- The path of the temporary file. -/
def temporaryPath (path : WrittenPath) : WrittenPath := path.withExtension temporaryExtension

/-- Write a text to a file by way of the temporary file. -/
def replaceFile (fs : FileSystem) (path : WrittenPath) (text : String) : Outcome Unit :=
  let temporary := temporaryPath path
  match fs.createFile (Route.parse temporary) (.text text) with
  | .error cause => (.error (.unwritable temporary cause), fs.removeFile (Route.parse temporary))
  | .ok written =>
    match written.rename (Route.parse temporary) (Route.parse path) with
    | .error cause =>
      (.error (.unwritable path cause), written.removeFile (Route.parse temporary))
    | .ok done => (.ok (), done)

/-- Write a descriptor. -/
def save (fs : FileSystem) (path : WrittenPath) (d : Descriptor) : Outcome Unit :=
  replaceFile fs path d.canonical

/-- Write a descriptor unless `current` is its text already.  The answer is whether it was written. -/
def update (fs : FileSystem) (path : WrittenPath) (d : Descriptor) (current : String) :
    Outcome Bool :=
  if d.canonical = current then (.ok false, fs)
  else
    match save fs path d with
    | (.error e, fs) => (.error e, fs)
    | (.ok (), fs) => (.ok true, fs)

end Tsconfig.Descriptor
