/-
# The paths that a project names

The files of a project, its output directory, its directory and its descriptor are paths that have been
resolved, and then shown with slashes for backslashes.  So a text that names one starts at the root,
and it is **unchanged by resolving it again just when the parts of the path are names** (`Shows`): a
backslash may bring out a dot or two, or nothing between two slashes.  This holds of every project that
a run finds (`hasPaths_of_load`), of that of a single file (`hasPaths_of_single`) and of the location of
any directory but the root, whose text is empty (`hasLocation_ofDirectory`); together
(`paths_shown`).  Where no name holds a backslash the parts are what is shown of the names
(`Path.parts_of_not_mem`).
-/
import Tsconfig.Proofs.Dependency.Files
import Tsconfig.Proofs.Options.Encodings
import Tsconfig.Proofs.Project.Stages

namespace Tsconfig

open Descriptor (fileName)

/-! ## 1. What a text shows -/

/-- A text that is that of a path from the root: it is normal just when the names are names, but for one
empty name, which does not show. -/
structure Shows (text : String) (p : Path) : Prop where
  shown : p.written = text
  starts : text.toList.head? = some '/'
  normal : Path.IsNormal text ↔ p.HasNames ∨ p.names = [.ofText ""]

section

variable {p dir : Path} {text : String}

theorem shows_of_written (hr : p.rooted = true) (hs : ∀ name ∈ p.names, .char '/' ∉ name.toList)
    (ht : p.written = text) : Shows text p := by
  refine ⟨ht, ?_, Path.isNormal_iff hr hs ht⟩
  rw [← WrittenPath.head?_ofText, ← ht, Path.toList_written hr, List.head?_cons]

/-- A plain path in slashes shows its parts. -/
theorem Path.IsPlain.shows (h : p.IsPlain) : Shows (WrittenPath.withSlashes p.written) p.parts :=
  shows_of_written h.rooted (Path.not_mem_parts h.isName.not_mem) p.written_parts

/-- The parts of a directory without an empty last one. -/
def Path.located (dir : Path) : Path := dir.parts.dropEmpty

theorem rooted_located (h : dir.IsPlain) : dir.located.rooted = true := by
  unfold Path.located Path.dropEmpty
  split <;> exact h.rooted

theorem not_mem_located (h : dir.IsPlain) : ∀ name ∈ dir.located.names, .char '/' ∉ name.toList := by
  have hparts := Path.not_mem_parts h.isName.not_mem
  unfold Path.located Path.dropEmpty
  split
  · exact fun name hmem => hparts name (List.dropLast_subset _ hmem)
  · exact hparts

/-- The location of a project shows a directory, and the descriptor in it. -/
structure HasLocation (l : LocatedProject) (dir : Path) : Prop where
  directory : dir.names ≠ [] → Shows l.directory dir.located
  descriptorPath : Shows l.descriptorPath (dir.located.child fileName)

theorem hasLocation_ofDirectory (h : dir.IsPlain) (project : Project) :
    HasLocation (.ofDirectory dir project) dir := by
  have hr := rooted_located h
  have hs := not_mem_located h
  constructor
  · intro hne
    exact shows_of_written hr hs (LocatedProject.directory_ofDirectory h hne project)
  · have hchild : ∀ name ∈ (dir.located.child fileName).names, .char '/' ∉ name.toList := by
      intro name hmem
      rcases List.mem_append.mp hmem with hmem | hmem
      · exact hs name hmem
      · obtain rfl := List.mem_singleton.mp hmem
        decide
    exact shows_of_written hr hchild (LocatedProject.descriptorPath_eq h project)

end

namespace Loader

open FileSystem

/-! ## 2. The files -/

section

variable {files : List Path} {text : String}

/-- The first occurrences are the items that have not been seen. -/
theorem firsts_eq (seen xs : List String) : firsts seen xs = Dependency.unseen id seen xs := by
  induction xs generalizing seen with
  | nil => rfl
  | cons x xs ih =>
    rw [firsts, Dependency.unseen, ih, ih]
    rfl

theorem exists_of_mem_fileTexts (h : text ∈ fileTexts files) :
    ∃ p ∈ files, WrittenPath.withSlashes p.written = text := by
  rw [fileTexts, firsts_eq] at h
  exact List.mem_map.mp (Dependency.of_mem_unseen h).1

end

/-! ## 3. The paths of a project -/

/-- The paths of a project: its location shows a directory, its files show paths of a list, and its
output directory shows a path that is given. -/
structure HasPaths (l : LocatedProject) (dir : Path) (files : List Path) (given : String → Prop) :
    Prop where
  location : HasLocation l dir
  files : ∀ text ∈ l.project.files, ∃ p ∈ files, Shows text p.parts
  outDir : ∀ text, l.project.compilerOptions.get? "outDir" = some (.string text) →
    ∃ s, given s ∧ Shows text (dir.resolve s).parts

/-- What the options of a descriptor give as output directory. -/
def GivesOutDir (options : Fields Json) (s : String) : Prop :=
  ∃ name, (name, .string s) ∈ options ∧ Options.currentName name = "outDir"

section

variable {r : Loader} {fs fs' : FileSystem} {path : WrittenPath} {l : LocatedProject} {p dir : Path}
  {files : List Path} {text : String}

/-- The files that are found from plain paths show plain paths. -/
theorem exists_shows (h : ∀ p ∈ files, p.IsPlain)
    (hmem : text ∈ fileTexts (Dependency.closePaths fs r.extract files)) :
    ∃ p ∈ Dependency.closePaths fs r.extract files, Shows text p.parts := by
  obtain ⟨found, heq, hfound⟩ := @Dependency.closePaths_eq fs r.extract files h
  obtain ⟨p, hp, rfl⟩ := exists_of_mem_fileTexts hmem
  have hplain : p.IsPlain := by
    rw [heq] at hp
    rcases List.mem_append.mp hp with hp | hp
    · exact h p hp
    · exact hfound p hp
  exact ⟨p, hp, hplain.shows⟩

/-- Expanding the patterns changes nothing about the options. -/
theorem compilerOptions_of_expandFiles {d d' : Descriptor}
    (h : r.expandFiles fs dir text (withDefaultPatterns d) = (.ok d', fs')) :
    d'.compilerOptions = d.compilerOptions := by
  obtain ⟨patterns, hdefault⟩ := withDefaultPatterns_eq d
  rw [hdefault] at h
  cases patterns with
  | none =>
    rw [expandFiles_of_none rfl] at h
    simp only [Prod.mk.injEq, Except.ok.injEq] at h
    rw [← h.1]
  | some patterns =>
    cases hfiles : r.expand fs dir patterns with
    | error cause => simp [expandFiles, hfiles] at h
    | ok files =>
      rw [expandFiles_of_some rfl hfiles] at h
      split at h
      · simp only [Prod.mk.injEq, Except.ok.injEq] at h
        rw [← h.1]
      · split at h
        · simp at h
        · simp only [Prod.mk.injEq, Except.ok.injEq] at h
          rw [← h.1]

/-- **The paths of a project that a run finds** show the directory that owns the path, the files that
are found from those of the descriptor, and the output directory that it gives. -/
theorem hasPaths_of_load (h : r.load fs path = (.ok l, fs')) : ∃ dir text d d', Owns fs path dir ∧
    Descriptor.read fs (dir.child fileName).written = .ok (text, d) ∧
    r.expandFiles fs dir text (withDefaultPatterns d) = (.ok d', fs') ∧
    HasPaths l dir
      (Dependency.closePaths fs' r.extract ((d'.files.getD []).map fun f : String => dir.resolve f))
      (GivesOutDir d.compilerOptions) := by
  obtain ⟨p, dir, hp, hfind, hrun⟩ := load_eq_ok.mp h
  have howns : Owns fs path dir := owns_iff.mpr ⟨p, hp, hfind⟩
  obtain ⟨text, d, d', hread, hexpand, _, rfl⟩ := resolveIn_eq_ok hrun
  have hplain := howns.isPlain
  refine ⟨dir, text, d, d', howns, hread, hexpand, hasLocation_ofDirectory hplain _, ?_, ?_⟩
  · intro file hfile
    refine exists_shows ?_ hfile
    intro q hq
    obtain ⟨s, _, rfl⟩ := List.mem_map.mp hq
    exact hplain.resolve s
  · intro out hout
    obtain ⟨name, given, hmem, hname, rfl⟩ :=
      Options.exists_path_of_mem_decode (Fields.mem_of_get? hout) (by decide)
    rw [compilerOptions_of_expandFiles hexpand] at hmem
    exact ⟨given, ⟨name, hmem, hname⟩, (hplain.resolve given).shows⟩

/-- The paths of the project of a single file, which has no output directory. -/
theorem hasPaths_of_single (h : r.single fs path = .ok l) : ∃ p, existing? fs path = some p ∧
    HasPaths l (fs.directoryOf p) (Dependency.closePaths fs r.extract [p]) (fun _ => False) := by
  unfold single at h
  cases hp : existing? fs path with
  | none => simp [hp] at h
  | some p =>
    simp only [hp, Except.ok.injEq] at h
    subst h
    have hplain := isPlain_existing? hp
    refine ⟨p, rfl, hasLocation_ofDirectory (isPlain_directoryOf fs hplain) _, ?_, ?_⟩
    · intro file hfile
      refine exists_shows ?_ hfile
      intro q hq
      obtain rfl := List.mem_singleton.mp hq
      exact hplain
    · intro text htext
      have hnone : Options.defaults.get? "outDir" = none := by decide
      simp [LocatedProject.ofDirectory, hnone] at htext

end

/-- **The paths that projects name** start at the root and are normal as far as their parts are names:
those of a project that a run finds, those of the project of a single file, and the location of any
directory. -/
theorem paths_shown (r : Loader) (fs : FileSystem) :
    (∀ path l fs', r.load fs path = (.ok l, fs') → ∃ dir text d d', Owns fs path dir ∧
      Descriptor.read fs (dir.child fileName).written = .ok (text, d) ∧
      r.expandFiles fs dir text (withDefaultPatterns d) = (.ok d', fs') ∧
      HasPaths l dir
        (Dependency.closePaths fs' r.extract ((d'.files.getD []).map fun f : String => dir.resolve f))
        (GivesOutDir d.compilerOptions)) ∧
    (∀ path l, r.single fs path = .ok l → ∃ p, existing? fs path = some p ∧
      HasPaths l (fs.directoryOf p) (Dependency.closePaths fs r.extract [p]) (fun _ => False)) ∧
    ∀ dir project, dir.IsPlain → HasLocation (.ofDirectory dir project) dir :=
  ⟨fun _ _ _ h => hasPaths_of_load h, fun _ _ h => hasPaths_of_single h,
    fun _ project h => hasLocation_ofDirectory h project⟩

/-- A directory with a project that gives a file and an output directory with dots. -/
def dottedTree : FileSystem where
  entries := [
    (["p"], .directory),
    (["p", "tsconfig.json"], .file (.text
      "\x7b\"files\": [\"../a/./x.ts\"], \"compilerOptions\": \x7b\"outDir\": \"b/../c\"\x7d\x7d"))]
  workingDirectory := []
  isPlain := isPlain_nil

theorem paths_shown_dotted :
    (∃ l fs', standard.load dottedTree "p" = (.ok l, fs') ∧ ∃ dir files given,
      Owns dottedTree "p" dir ∧ HasPaths l dir files given) ∧
    (∃ l, standard.single dottedTree "p" = .ok l ∧ ∃ dir files, HasPaths l dir files fun _ => False) ∧
    ∀ project, HasLocation (.ofDirectory Path.root project) Path.root := by
  obtain ⟨hload, hsingle, hlocation⟩ := paths_shown .standard dottedTree
  refine ⟨?_, ?_, fun project => hlocation Path.root project Path.isPlain_root⟩
  · obtain ⟨l, hl⟩ : ∃ l, standard.load dottedTree "p" = (.ok l, dottedTree) :=
      exists_of_isOk (by decide +kernel)
    obtain ⟨dir, _, _, _, howns, _, _, hpaths⟩ := hload "p" l dottedTree hl
    exact ⟨l, dottedTree, hl, dir, _, _, howns, hpaths⟩
  · have hok : (standard.single dottedTree "p").isOk = true := by decide +kernel
    cases hl : standard.single dottedTree "p" with
    | error e => simp [hl, Except.isOk, Except.toBool] at hok
    | ok l =>
      obtain ⟨p, _, hpaths⟩ := hsingle "p" l hl
      exact ⟨l, rfl, _, _, hpaths⟩

/-- A project whose descriptor gives a file and an output directory with dots between backslashes. -/
def backslashTree : FileSystem where
  entries := [(["tsconfig.json"], .file (.text
    "\x7b\"files\": [\"sub\\\\..\\\\x.ts\"], \"compilerOptions\": \x7b\"outDir\": \"b\\\\.\\\\c\"\x7d\x7d"))]
  workingDirectory := []
  isPlain := isPlain_nil

/-- Backslashes bring out the dots of files, output directories and directories, and the directory of a
project in the root is an empty text. -/
theorem paths_shown_backslash :
    (∃ l fs', standard.load backslashTree "." = (.ok l, fs') ∧ "/sub/../x.ts" ∈ l.project.files ∧
      (l.project.compilerOptions.get? "outDir").bind Json.asString? = some "/b/./c") ∧
    (∀ project, Path.IsPlain ⟨true, ["a\\..\\b"]⟩ ∧
      (LocatedProject.ofDirectory ⟨true, ["a\\..\\b"]⟩ project).directory = "/a/../b") ∧
    (∀ project, (LocatedProject.ofDirectory Path.root project).directory = "") ∧
    ∀ text ∈ ["/sub/../x.ts", "/b/./c", "/a/../b", ""], ¬ Path.IsNormal text := by
  refine ⟨?_, ?_, fun _ => rfl, ?_⟩
  · obtain ⟨l, hl⟩ : ∃ l, standard.load backslashTree "." = (.ok l, backslashTree) :=
      exists_of_isOk (by decide +kernel)
    have hpaths : ((standard.load backslashTree ".").1.toOption.any fun l =>
        decide ("/sub/../x.ts" ∈ l.project.files ∧
          (l.project.compilerOptions.get? "outDir").bind Json.asString? = some "/b/./c")) = true := by
      decide +kernel
    rw [hl] at hpaths
    exact ⟨l, backslashTree, hl, of_decide_eq_true hpaths⟩
  · exact fun project => ⟨⟨rfl, by simp [Path.HasNames, Route.isName]⟩, rfl⟩
  · unfold Path.IsNormal
    decide

end Loader

end Tsconfig
