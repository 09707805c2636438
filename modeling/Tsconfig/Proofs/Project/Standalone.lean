/-
# A descriptor that adds nothing

A source file can be resolved without a descriptor, as a project of its own (`single`), or through the
descriptor of its directory (`load`).  The two ways share only the closing of files under their
dependencies.  **Where the descriptor lists just this file and sets nothing, they answer the same**, and
the file system stays as it is (`load_eq_single`).

Three things make it so.  The descriptor in the directory of the file is the nearest one, so the project
is located where the file is (`findDirectory_of_read`); without patterns nothing is expanded and nothing
is written; and the last name of a path, resolved against its directory, is the path again
(`Path.parent_resolve`), so that both close the same list.
-/
import Mathlib.Data.List.Basic
import Tsconfig.Proofs.Path.Pieces
import Tsconfig.Proofs.Project.Loading

namespace Tsconfig

namespace Path

variable {p : Path} {name : WrittenPath}

/-- The last name of a plain path leads from its directory back to it. -/
theorem parent_resolve (h : p.IsPlain) (hlast : p.names.getLast? = some name) :
    p.parent.resolve name = p := by
  have hname : Route.isName name = true := h.isName name (List.mem_of_getLast? hlast)
  obtain ⟨hne, _, _, hslash⟩ := Route.isName_iff.mp hname
  have hrelative : name.toList.head? ≠ some (.char '/') := fun hhead => hslash (List.mem_of_head? hhead)
  rw [resolve_of_relative hrelative, WrittenPath.pieces_of_not_mem hslash,
    enterAll_of_isName (by simpa using hname)]
  have hnames : p.names.dropLast ++ [name] = p.names := List.dropLast_append_getLast? name hlast
  simp only [parent, hnames]

end Path

namespace Loader

open Descriptor FileSystem

/-- A descriptor that lists one file and sets nothing that a project shows.  Its version and its keys
without a meaning are left open. -/
structure ListsOnly (d : Descriptor) (name : String) : Prop where
  files : d.files = some [name]
  filesGlob : d.filesGlob = none
  compilerOptions : d.compilerOptions = []
  formatCodeOptions : d.formatCodeOptions = none
  compileOnSave : d.compileOnSave = none

section

variable {r : Loader} {fs : FileSystem} {path : WrittenPath} {name text : String} {p dir : Path}
  {d : Descriptor}

/-- A descriptor that is read in the directory of a path is the one that owns the path. -/
theorem findDirectory_of_read (hdir : dir.IsPlain) (hp : fs.directoryOf p = dir)
    (hread : Descriptor.read fs (dir.child fileName).written = .ok (text, d)) :
    findDirectory fs p = .ok dir := by
  have hplain : (dir.child fileName).IsPlain := hdir.child (by decide)
  obtain ⟨htext, _⟩ := read_eq_ok.mp hread
  rw [Path.parse_written hplain, readText_eq_ok] at htext
  obtain ⟨e, he, hfile⟩ := htext
  rw [findDirectory_eq_ok, hp]
  refine nearestWith?_self ?_
  rw [Path.append_parse hdir (by decide)]
  exact isFile_iff.mpr ⟨e, he, _, hfile⟩

/-- **A descriptor that lists one file and sets nothing is as good as none.** -/
theorem load_eq_single (hentry : fs.isEntry (fs.absolute path).route = true)
    (hnot : fs.isDirectory (fs.absolute path).route = false)
    (hname : (fs.absolute path).names.getLast? = some (.ofText name))
    (hread : Descriptor.read fs ((fs.absolute path).parent.child fileName).written = .ok (text, d))
    (hlists : ListsOnly d name) :
    ∃ l, r.load fs path = (.ok l, fs) ∧ r.single fs path = .ok l := by
  have hplain := isPlain_absolute fs path
  have hexisting : existing? fs path = some (fs.absolute path) := existing?_eq_some.mpr ⟨rfl, hentry⟩
  have hdir : fs.directoryOf (fs.absolute path) = (fs.absolute path).parent := by
    rw [directoryOf, hnot]
    rfl
  have hexpand : r.expandFiles fs (fs.absolute path).parent text (withDefaultPatterns d) = (.ok d, fs) := by
    have hsame : withDefaultPatterns d = d := by
      rw [withDefaultPatterns, hlists.files]
      rfl
    rw [hsame, expandFiles_of_none hlists.filesGlob]
  have hoptions : optionsError? d.compilerOptions = none := by
    rw [hlists.compilerOptions]
    rfl
  refine ⟨_, load_eq_ok.mpr ⟨_, _, hexisting, findDirectory_of_read hplain.parent hdir hread,
    resolveIn_of_read hread hexpand hoptions⟩, ?_⟩
  have hfiles : ((d.files.getD []).map fun f : String => (fs.absolute path).parent.resolve f) =
      [fs.absolute path] := by
    rw [hlists.files, Option.getD_some, List.map_cons, List.map_nil, Path.parent_resolve hplain hname]
  simp only [single, hexisting, hdir, projectOf, hfiles, hlists.compilerOptions, hlists.filesGlob,
    hlists.formatCodeOptions, hlists.compileOnSave]
  rfl

end

/-- A descriptor that lists one file, with a version and a key without a meaning. -/
def standaloneText : String := "\x7b\"x\": [null], \"files\": [\"a.ts\"], \"version\": \"2\"\x7d"

/-- A file that imports another one, beside a descriptor that lists the first one only and is a link to a
file elsewhere. -/
def standaloneTree : FileSystem where
  entries := [
    (["w"], .directory),
    (["w", "src"], .directory),
    (["w", "src", "a.ts"], .file (.text "import \"./b\";")),
    (["w", "src", "b.ts"], .file (.text "")),
    (["w", "src", "tsconfig.json"], .link "../shared.json"),
    (["w", "shared.json"], .file (.text standaloneText))]
  workingDirectory := []
  isPlain := isPlain_nil

/-- The path may be relative and hold dots; the names that it drops need not exist. -/
theorem load_eq_single_linked : ∃ l,
    standard.load standaloneTree "w/lib/../src/./a.ts" = (.ok l, standaloneTree) ∧
      standard.single standaloneTree "w/lib/../src/./a.ts" = .ok l ∧
      l.descriptorPath = "/w/src/tsconfig.json" ∧
      l.project.files = ["/w/src/a.ts", "/w/src/b.ts"] := by
  have hreads : readsWith standaloneText (fun d =>
      decide (d.files = some ["a.ts"] ∧ d.filesGlob = none ∧ d.compilerOptions.isEmpty = true ∧
        d.formatCodeOptions.isNone = true ∧ d.compileOnSave = none)) = true := by
    decide +kernel
  obtain ⟨d, hparse, hp⟩ := exists_of_readsWith hreads
  obtain ⟨hfiles, hglob, hoptions, hformat, hsave⟩ := of_decide_eq_true hp
  have htext : standaloneTree.readText (Route.parse
      ((standaloneTree.absolute "w/lib/../src/./a.ts").parent.child fileName).written) = .ok standaloneText :=
    readText_eq_ok.mpr ⟨["w", "shared.json"], by decide +kernel, by decide +kernel⟩
  obtain ⟨l, hload, hsingle⟩ := @load_eq_single standard standaloneTree "w/lib/../src/./a.ts" "a.ts" _ d
    (by decide +kernel) (by decide +kernel) (by decide +kernel) (read_eq_ok.mpr ⟨htext, hparse⟩)
    ⟨hfiles, hglob, List.isEmpty_iff.mp hoptions, Option.isNone_iff_eq_none.mp hformat, hsave⟩
  have hshown : ((standard.single standaloneTree "w/lib/../src/./a.ts").toOption.any fun l =>
      decide (l.descriptorPath = "/w/src/tsconfig.json" ∧
        l.project.files = ["/w/src/a.ts", "/w/src/b.ts"])) = true := by
    decide +kernel
  rw [hsingle] at hshown
  exact ⟨l, hload, hsingle, of_decide_eq_true hshown⟩

end Loader

end Tsconfig
