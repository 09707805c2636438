/-
# Changing files

Creating a file follows links, so it may write through one; removing and renaming act on the name
itself and leave what a link points to alone.  A refused change answers the cause and no new value.
The second half builds trees for a start: directories with their parents, files, links.
-/
import Tsconfig.FileSystem.Lookup

namespace Tsconfig.FileSystem

/-! ## 1. One entry -/

/-- Open a file for writing, emptied or new, and write it. -/
def createFile (fs : FileSystem) (r : Route) (contents : Contents) :
    Except AccessError FileSystem :=
  match fs.locate .create r with
  | .error e => .error e
  | .ok (.free dir name) => .ok (fs.put (dir ++ [name]) (.file contents))
  | .ok (.entry loc) =>
    match fs.get? loc with
    | some (.file _) => .ok (fs.put loc (.file contents))
    | _ => .error .isDirectory

/-- The name that a route ends in, not followed, with the directory it lies in. -/
def nameOf (fs : FileSystem) (r : Route) : Except AccessError (Location × WrittenPath) :=
  match refusal? r with
  | some e => .error e
  | none =>
    match fs.walk .find linkLimit (fs.origin r) r.steps.dropLast false with
    | .error e => .error e
    | .ok (.free _ _) => .error .notFound
    | .ok (.entry dir) =>
      match fs.get? dir, r.steps.getLast? with
      | some .directory, some (.into name) =>
        if nameLimit < name.size then .error .nameTooLong else .ok (dir, name)
      | some .directory, _ => .error .busy
      | _, _ => .error .notDirectory

/-- Take away a file or link.  What cannot be removed stays. -/
def removeFile (fs : FileSystem) (r : Route) : FileSystem :=
  match fs.nameOf r with
  | .error _ => fs
  | .ok (dir, name) =>
    match fs.get? (dir ++ [name]) with
    | some (.file _) | some (.link _) => if r.slash then fs else fs.erase (dir ++ [name])
    | _ => fs

/-- Give a file or link another name, in place of the file or link that has it. -/
def rename (fs : FileSystem) (source target : Route) : Except AccessError FileSystem :=
  match fs.nameOf source with
  | .error e => .error e
  | .ok (dir, name) =>
    match fs.nameOf target with
    | .error e => .error e
    | .ok (dir', name') =>
      match fs.get? (dir ++ [name]) with
      | none => .error .notFound
      | some .directory => .error .isDirectory
      | some e =>
        if source.slash || target.slash then .error .notDirectory
        else
          match fs.get? (dir' ++ [name']) with
          | some .directory => .error .isDirectory
          | _ =>
            if dir ++ [name] = dir' ++ [name'] then .ok fs
            else .ok ((fs.put (dir' ++ [name']) e).erase (dir ++ [name]))

/-! ## 2. Building a tree -/

/-- Make the directories that the names lead to, from a route on. -/
def makeDirectoriesFrom (fs : FileSystem) (r : Route) : List Step → FileSystem
  | [] => fs
  | step :: rest =>
    let r := { r with steps := r.steps ++ [step] }
    let fs :=
      match fs.locate .find r with
      | .ok (.free dir name) => fs.put (dir ++ [name]) .directory
      | _ => fs
    fs.makeDirectoriesFrom r rest

/-- Make a directory and the ones above it. -/
def makeDirectories (fs : FileSystem) (r : Route) : FileSystem :=
  fs.makeDirectoriesFrom ⟨r.rooted, [], false, r.size⟩ r.steps

/-- Make the directory that a route's last step lies in. -/
def makeParents (fs : FileSystem) (r : Route) : FileSystem :=
  fs.makeDirectories ⟨r.rooted, r.steps.dropLast, false, r.size⟩

/-- Write a file, with the directories above it. -/
def writeFile (fs : FileSystem) (r : Route) (contents : Contents) : FileSystem :=
  let fs := fs.makeParents r
  match fs.createFile r contents with
  | .ok fs => fs
  | .error _ => fs

/-- Make a link, with the directories above it. -/
def makeLink (fs : FileSystem) (r : Route) (target : WrittenPath) : FileSystem :=
  let fs := fs.makeParents r
  match fs.nameOf r with
  | .error _ => fs
  | .ok (dir, name) =>
    match fs.get? (dir ++ [name]) with
    | none => fs.put (dir ++ [name]) (.link target)
    | some _ => fs

/-- Take away whatever has a name, a directory with its contents. -/
def remove (fs : FileSystem) (r : Route) : FileSystem :=
  match fs.nameOf r with
  | .error _ => fs
  | .ok (dir, name) => fs.eraseTree (dir ++ [name])

/-- A file system with one directory, in which work is done. -/
def fresh (workingDirectory : Location)
    (isPlain : workingDirectory.all Route.isName = true := by decide) : FileSystem :=
  { entries := (List.range workingDirectory.length).map fun n =>
      (workingDirectory.take (n + 1), .directory)
    workingDirectory
    isPlain }

end Tsconfig.FileSystem
