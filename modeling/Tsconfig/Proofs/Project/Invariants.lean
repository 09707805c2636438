/-
# What holds of every resolved project

The files of a project are the first occurrences of what its descriptor lists, and behind them what the
closure adds, each written from the root without a backslash (`fileTexts_append`,
`exists_shows`).  Its options are typed (`Options.typed_decode`).  The descriptor that a run leaves is
read, whatever numbers it holds, and lists the files from which the project has been closed
(`exists_read_expanded`).  Together (`load_invariants`).
-/
import Tsconfig.Proofs.Descriptor.Reread
import Tsconfig.Proofs.Options.Typed
import Tsconfig.Proofs.Project.Paths

namespace Tsconfig.Loader

open Descriptor FileSystem

/-! ## 1. Files -/

theorem fileTexts_eq (files : List Path) :
    fileTexts files = (files.map fun p => WrittenPath.withSlashes p.written).eraseDups := by
  rw [fileTexts, firsts_eq, Dependency.unseen_id]
  simp

theorem nodup_fileTexts (files : List Path) : (fileTexts files).Nodup := by
  have h : ((Dependency.unseen id [] (files.map fun p => WrittenPath.withSlashes p.written)).map id).Nodup :=
    Dependency.nodup_unseen _ _
  rwa [← firsts_eq, List.map_id] at h

/-- The files that are listed come first. -/
theorem fileTexts_append (files found : List Path) :
    fileTexts files <+: fileTexts (files ++ found) := by
  simp only [fileTexts, firsts_eq, List.map_append, Dependency.unseen_append]
  exact List.prefix_append _ _

/-- **The files of a project**: the ones that are listed come first, none is there twice, and each is
written from the root without a backslash. -/
theorem files_of_closure {fs : FileSystem} {extract : Dependency.Extractor} {files : List Path}
    (h : ∀ p ∈ files, p.IsPlain) :
    fileTexts files <+: fileTexts (Dependency.closePaths fs extract files) ∧
      ∀ text ∈ fileTexts (Dependency.closePaths fs extract files),
        text.toList.head? = some '/' ∧ '\\' ∉ text.toList := by
  obtain ⟨found, heq, hfound⟩ := @Dependency.closePaths_eq fs extract files h
  rw [heq]
  refine ⟨fileTexts_append files found, ?_⟩
  intro text hmem
  obtain ⟨p, hp, rfl⟩ := exists_of_mem_fileTexts hmem
  have hplain : p.IsPlain := (List.mem_append.mp hp).elim (h p) (hfound p)
  exact ⟨hplain.shows.starts, WrittenPath.not_mem_withSlashes p.written⟩

/-! ## 2. The descriptor that a run leaves -/

section

variable {r : Loader} {fs fs' : FileSystem} {path : WrittenPath} {text : String} {dir : Path} {D : Location}
  {d d' : Descriptor}

/-- A text that has been written to the descriptor of a path is read there. -/
theorem Owns.read_replaceFile (h : Owns fs path dir) (hfree : NoTemporary fs path)
    (hsave : replaceFile fs (dir.child fileName).written text = (.ok (), fs')) (hparse : parse text = .ok d) :
    Descriptor.read fs' (dir.child fileName).written = .ok (text, d) := by
  obtain ⟨hok, D, hD, hdir, hleads, _⟩ := h.exists_place
  have hspare := hfree dir D h hD
  have hspot : fs.get? (D ++ [.ofText fileName]) ≠ some .directory := hleads.not_directory hdir (by decide)
  obtain ⟨_, rfl⟩ := eq_savedIn_of_replaceFile h.isPlain hD hdir hspare hspot hsave
  have hrep : Replaces fs (savedIn fs D text) D fileName (.text text) :=
    ⟨replaced_savedIn hspare, hleads, hspot⟩
  exact read_savedIn hrep h.isPlain hD hdir hok hparse

/-- **The descriptor is read after its patterns have been expanded**, with the files that they have been
expanded into. -/
theorem exists_read_expanded (h : Reads fs path dir text d) (hfree : NoTemporary fs path)
    (hx : r.expandFiles fs dir text (withDefaultPatterns d) = (.ok d', fs')) :
    ∃ text' back, Descriptor.read fs' (dir.child fileName).written = .ok (text', back) ∧
      back.files = d'.files := by
  cases hp : patternsOf d with
  | none =>
    obtain ⟨hsame, hg⟩ := withDefaultPatterns_of_none hp
    rw [hsame, expandFiles_of_none hg] at hx
    simp only [Prod.mk.injEq, Except.ok.injEq] at hx
    obtain ⟨rfl, rfl⟩ := hx
    exact ⟨text, d, h.read, rfl⟩
  | some patterns =>
    cases hfiles : r.expand fs dir patterns with
    | error cause => simp [expandFiles_of_error hp hfiles] at hx
    | ok files =>
      obtain ⟨f, hparse⟩ := exists_parse_canonical
        ((wellFormed_of_parse h.parse).expanded patterns files)
        fun n hn => isStored_of_parse h.parse n hn
      by_cases hc : (d.expanded patterns files).canonical = text
      · -- The text is there already, and so it is what has been read.
        rw [expandFiles_of_eq hp hfiles hc] at hx
        simp only [Prod.mk.injEq, Except.ok.injEq] at hx
        obtain ⟨rfl, rfl⟩ := hx
        rw [hc] at hparse
        refine ⟨text, d, h.read, ?_⟩
        rw [Except.ok.inj (h.parse.symm.trans hparse)]
        rfl
      · cases hsave : replaceFile fs (dir.child fileName).written (d.expanded patterns files).canonical with
        | mk res fs₁ =>
          rw [expandFiles_of_ne hp hfiles hc hsave] at hx
          cases res with
          | error e => simp [Except.map] at hx
          | ok u =>
            simp only [Except.map, Prod.mk.injEq, Except.ok.injEq] at hx
            obtain ⟨rfl, rfl⟩ := hx
            exact ⟨_, _, h.owns.read_replaceFile hfree hsave hparse, rfl⟩

end

/-! ## 3. The project -/

/-- **What holds of every resolved project.**  Where the name of the temporary file is free, a run that
succeeds leaves a descriptor that is read in the directory of the project.  The first occurrences of its
files, resolved and in slashes, are the first files of the project.  No file is there twice, each is
written from the root without a backslash, and the options are typed. -/
theorem load_invariants {r : Loader} {fs fs' : FileSystem} {path : WrittenPath} {l : LocatedProject}
    (hfree : NoTemporary fs path) (h : r.load fs path = (.ok l, fs')) :
    ∃ dir text d, Owns fs path dir ∧ l = .ofDirectory dir l.project ∧
      Descriptor.read fs' (dir.child fileName).written = .ok (text, d) ∧
      ((d.files.getD []).map fun file : String =>
        WrittenPath.withSlashes (dir.resolve file).written).eraseDups <+: l.project.files ∧
      l.project.files.Nodup ∧
      (∀ file ∈ l.project.files, file.toList.head? = some '/' ∧ '\\' ∉ file.toList) ∧
      Options.Typed l.project.compilerOptions := by
  obtain ⟨p, dir, hp, hdir, hin⟩ := load_eq_ok.mp h
  have howns : Owns fs path dir := owns_iff.mpr ⟨p, hp, hdir⟩
  obtain ⟨text, d, d', hread, hexpand, hopt, rfl⟩ := resolveIn_eq_ok hin
  obtain ⟨text', back, hback, hfiles⟩ := exists_read_expanded ((reads_iff howns).mpr hread) hfree hexpand
  have hplain : ∀ q ∈ (d'.files.getD []).map fun f : String => dir.resolve f, q.IsPlain := by
    intro q hq
    obtain ⟨file, _, rfl⟩ := List.mem_map.mp hq
    exact howns.isPlain.resolve file
  obtain ⟨hlisted, hwritten⟩ := @files_of_closure fs' r.extract _ hplain
  refine ⟨dir, text', back, howns, rfl, hback, ?_, nodup_fileTexts _, hwritten, ?_⟩
  · rw [fileTexts_eq, List.map_map] at hlisted
    rw [hfiles]
    exact hlisted
  · obtain ⟨hcheck, hout⟩ := optionsError?_eq_none.mp hopt
    exact Options.typed_decode hcheck hout dir

/-- A project with an older spelling, a repeated pattern, and a number that is read as another one when it
has been written. -/
def olderTree : FileSystem where
  entries := [
    (["a.ts"], .file (.text "")),
    (["tsconfig.json"], .file (.text ("\x7b\"filesGlob\": [\"a.ts\", \"./a.ts\"], \"compilerOptions\":" ++
      " \x7b\"outdir\": \"b\", \"target\": \"es6\"\x7d, \"x\": 1.7976931348623155e308\x7d")))]
  workingDirectory := []
  isPlain := isPlain_nil

theorem load_invariants_older : NoTemporary olderTree "." ∧
    ∃ l fs', standard.load olderTree "." = (.ok l, fs') ∧ fs' ≠ olderTree ∧
      (∃ text d, Descriptor.read fs' (Path.root.child fileName).written = .ok (text, d)) ∧
      l.project.files.Nodup ∧ Options.Typed l.project.compilerOptions ∧
      (l.project.compilerOptions.get? "target").bind Json.asInt? = some 2 ∧
      l.project.compilerOptions.contains "outDir" = true := by
  have howns : Owns olderTree "." Path.root :=
    ⟨by decide +kernel, by unfold HasDescriptor; decide +kernel, [], [], by decide +kernel, by simp⟩
  have hfree : NoTemporary olderTree "." :=
    noTemporary_of_owns howns (by decide +kernel : _ = some []) (by decide +kernel)
  have hrun : ((standard.load olderTree ".").1.isOk = true ∧ (standard.load olderTree ".").2 ≠ olderTree) ∧
      ((standard.load olderTree ".").1.toOption.any fun l =>
        decide ((l.project.compilerOptions.get? "target").bind Json.asInt? = some 2 ∧
          l.project.compilerOptions.contains "outDir" = true)) = true := by
    decide +kernel
  obtain ⟨⟨hok, hchanged⟩, hoptions⟩ := hrun
  obtain ⟨l, hl⟩ := exists_of_isOk ⟨hok, rfl⟩
  rw [hl] at hoptions
  obtain ⟨dir, text, d, hdir, _, hread, _, hnodup, _, htyped⟩ := load_invariants hfree hl
  obtain rfl := howns.unique hdir
  exact ⟨hfree, l, _, hl, hchanged, ⟨text, d, hread⟩, hnodup, htyped, of_decide_eq_true hoptions⟩

end Tsconfig.Loader
