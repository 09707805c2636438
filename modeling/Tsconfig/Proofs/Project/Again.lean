/-
# Resolving a project again

A run that resolves a project may have rewritten the descriptor.  The next one finds what the first
one has left: the same directory, a descriptor that is read back as the one that was written, and
patterns that select the same files, so it writes nothing and answers the same (`load_again`).

The one thing that may come between is a descriptor that was a link.  It has become a file, a lookup
that went through the link now follows one link less, and a path that the system refused may lead to
the descriptor for the first time.  If a run meets such a path it sees a file more than the run before
it (`load_again_differs`).  `MeetsNoNewFile` says that there is none; a descriptor that was a file needs
no such condition.
-/
import Tsconfig.Proofs.Glob.Listing
import Tsconfig.Proofs.Project.Loading

namespace Tsconfig.Loader

open Descriptor FileSystem

/-! ## 1. What the first run leaves -/

/-- What a run looks up has not become a file: no descriptor above the path, and no entry that the
listing of a pattern meets. -/
structure MeetsNoNewFile (fs fs' : FileSystem) (p dir : Path) (patterns : List String) : Prop where
  above : ∀ q ∈ ancestors (fs.directoryOf p),
    fs'.isFile (q.route.append (Route.parse fileName)) = true →
      fs.isFile (q.route.append (Route.parse fileName)) = true
  below : ∀ root ∈ Glob.roots patterns, Glob.NoNewFile fs fs' (dir.resolve root)

section

variable {fs fs' : FileSystem} {path : WrittenPath} {text : String} {p dir : Path} {D : Location}
  {d : Descriptor}
  {l : LocatedProject} {c : Contents}

/-- A descriptor that was a file may be replaced by any other one. -/
theorem meetsNoNewFile_of_holdsFile (h : Replaces fs fs' D fileName c)
    (hspot : fs.HoldsFile (D ++ [.ofText fileName])) (patterns : List String) :
    MeetsNoNewFile fs fs' p dir patterns := by
  refine ⟨fun q _ hq => h.of_isFile hq hspot, ?_⟩
  intro root _ e _ he
  simp only [Glob.isFileAt, decide_eq_true_eq] at he ⊢
  exact Glob.kindOf_file_of_holdsFile h hspot he

theorem findDirectory_replaced (h : Replaces fs fs' D fileName c)
    (habove : ∀ q ∈ ancestors (fs.directoryOf p),
      fs'.isFile (q.route.append (Route.parse fileName)) = true →
        fs.isFile (q.route.append (Route.parse fileName)) = true)
    (hdir : findDirectory fs p = .ok dir) : findDirectory fs' p = .ok dir := by
  rw [findDirectory_eq_ok] at hdir ⊢
  rw [h.directoryOf, ← hdir]
  unfold nearestWith?
  have hsame (qs : List Path) (hq : ∀ q ∈ qs,
      fs'.isFile (q.route.append (Route.parse fileName)) =
        fs.isFile (q.route.append (Route.parse fileName))) :
      qs.find? (fun q => fs'.isFile (q.route.append (Route.parse fileName))) =
        qs.find? (fun q => fs.isFile (q.route.append (Route.parse fileName))) := by
    induction qs with
    | nil => simp
    | cons q qs ih =>
      rw [List.find?_cons, List.find?_cons, hq q List.mem_cons_self,
        ih fun x hx => hq x (List.mem_cons_of_mem q hx)]
  refine hsame _ fun q hq => ?_
  rw [Bool.eq_iff_iff]
  exact ⟨habove q hq, h.isFile⟩

/-! ## 2. The second run -/

/-- What a run for a path finds: the path itself, the directory that owns it and where that is, and
the text of its descriptor with what it says. -/
structure Finds (fs : FileSystem) (path : WrittenPath) (p dir : Path) (D : Location) (text : String)
    (d : Descriptor) : Prop where
  existing : existing? fs path = some p
  owner : findDirectory fs p = .ok dir
  place : fs.resolve? dir.route = some D
  read : Descriptor.read fs (dir.child fileName).written = .ok (text, d)

/-- A run that succeeds has found all that. -/
theorem exists_finds {r : Loader} (h : r.load fs path = (.ok l, fs')) :
    ∃ p dir D text d, Finds fs path p dir D text d := by
  obtain ⟨p, dir, hp, hdir, hin⟩ := load_eq_ok.mp h
  obtain ⟨text, d, _, hread, _⟩ := resolveIn_eq_ok hin
  obtain ⟨_, D, hD, _⟩ := exists_descriptor (isPlain_existing? hp) hdir
  exact ⟨p, dir, D, text, d, hp, hdir, hD, hread⟩

/-- **Resolving a project again answers the same and changes nothing**, if the name of the temporary
file was free, the numbers of the descriptor read back, and the descriptor was a file or the run meets
no path that leads to it for the first time. -/
theorem load_again (h : standard.load fs path = (.ok l, fs')) (hf : Finds fs path p dir D text d)
    (hfree : fs.get? (D ++ [temporaryName]) = none) (hn : ∀ n ∈ d.numbers, n.ReadsBack)
    (hmet : fs.HoldsFile (D ++ [.ofText fileName]) ∨
      MeetsNoNewFile fs fs' p dir ((withDefaultPatterns d).filesGlob.getD [])) :
    standard.load fs' path = (.ok l, fs') := by
  have hplain : dir.IsPlain := isPlain_findDirectory (isPlain_existing? hf.existing) hf.owner
  obtain ⟨hok, D', hD', hget, hleads, hold⟩ :=
    exists_descriptor (isPlain_existing? hf.existing) hf.owner
  obtain rfl : D = D' := Option.some.inj (hf.place.symm.trans hD')
  -- The first run found what is named in `hf`.
  obtain ⟨p', dir', hp', hdir', hin⟩ := load_eq_ok.mp h
  obtain rfl : p = p' := Option.some.inj (hf.existing.symm.trans hp')
  obtain rfl : dir = dir' := Except.ok.inj (hf.owner.symm.trans hdir')
  obtain ⟨text', d', written, hread', hexpand, hopt, rfl⟩ := resolveIn_eq_ok hin
  obtain ⟨rfl, rfl⟩ : text = text' ∧ d = d' := by
    simpa using hf.read.symm.trans hread'
  rcases expandFiles_eq_ok hexpand with rfl | ⟨patterns, files, hg, hfiles, hwritten, hsave⟩
  · exact h
  · have hspot : fs.get? (D ++ [.ofText fileName]) ≠ some .directory ∧
        fs.get? (D ++ [.ofText fileName]) ≠ none := by
      rcases hold with ⟨c, hc⟩ | ⟨target, hx⟩
      · simp [hc]
      · simp [hx]
    obtain ⟨hlong, rfl⟩ := eq_savedIn_of_replaceFile hplain hf.place hget hfree hspot.1 hsave
    have hrep : Replaces fs (savedIn fs D written.canonical) D fileName
        (.text written.canonical) := ⟨replaced_savedIn hfree, hleads, hspot.1⟩
    have hloc : (savedIn fs D written.canonical).entries.map Prod.fst = fs.entries.map Prod.fst :=
      locations_savedIn hfree hspot.2
    have hmet' : MeetsNoNewFile fs (savedIn fs D written.canonical) p dir patterns := by
      rcases hmet with hfile | hmet
      · exact meetsNoNewFile_of_holdsFile hrep hfile patterns
      · rwa [hg, Option.getD_some] at hmet
    -- What was written is read back.
    obtain ⟨given, hgiven⟩ := withDefaultPatterns_eq d
    have hform : written = { d with files := some files, filesGlob := some patterns } := by
      have hgiven' : given = some patterns := by rw [hgiven] at hg; exact hg
      rw [hwritten, hgiven, hgiven']
    have hwf : written.WellFormed := by
      rw [hform]
      exact (wellFormed_of_parse ((read_eq_ok.mp hf.read).2)).withFiles _ _
    have hparse := parse_canonical hwf (hform ▸ hn)
    -- The second run reads it, selects the same files and finds its text as it would write it.
    obtain ⟨back, hback⟩ : ∃ back, back = { written with keyOrder := written.entries.keys } :=
      ⟨_, rfl⟩
    rw [← hback] at hparse
    have hread := read_savedIn hrep hplain hf.place hget hok hparse
    have hpatterns : back.filesGlob = some patterns := by rw [hback, hform]
    have hfull : { back with files := some files } = back := by rw [hback, hform]
    have htext : back.canonical = written.canonical := by
      rw [hback]
      exact canonical_keyOrder written
    have hfiles' : standard.expand (savedIn fs D written.canonical) dir patterns = .ok files :=
      (Glob.expand_replaced hrep hloc hmet'.below).trans hfiles
    have hexpand' : standard.expandFiles (savedIn fs D written.canonical) dir written.canonical
        (withDefaultPatterns back) = (.ok back, savedIn fs D written.canonical) := by
      rw [withDefaultPatterns_of_isSome (by simp [hpatterns]),
        expandFiles_of_some hpatterns hfiles', hfull, if_pos htext]
    have hopt' : optionsError? back.compilerOptions = none := by rw [hback]; exact hopt
    have hproject : standard.projectOf (savedIn fs D written.canonical) dir back =
        standard.projectOf (savedIn fs D written.canonical) dir written := by rw [hback]; rfl
    rw [load_eq_ok]
    refine ⟨p, dir, existing?_replaced hrep hf.existing,
      findDirectory_replaced hrep hmet'.above hf.owner, ?_⟩
    rw [resolveIn_of_read hread hexpand' hopt', hproject]

end

/-! ## 3. A descriptor that is a link -/

/-- A tree whose descriptor is a link to a file with a pattern, and some more entries. -/
def linkedTree (pattern : String) (more : List (Location × Entry)) : FileSystem where
  entries :=
    (["real.json"], .file (.text ("\x7b\"filesGlob\": [\"" ++ pattern ++ "\"]\x7d"))) ::
    (["tsconfig.json"], .link "real.json") :: more
  workingDirectory := []
  isPlain := isPlain_nil

/-- The tree after a run that has written a text to the descriptor. -/
def savedTree (text pattern : String) (more : List (Location × Entry)) : FileSystem :=
  { linkedTree pattern more with
    entries :=
      (["real.json"], .file (.text ("\x7b\"filesGlob\": [\"" ++ pattern ++ "\"]\x7d"))) ::
      (["tsconfig.json"], .file (.text text)) :: more }

/-- What a run for the root of a tree finds. -/
theorem finds_root {fs : FileSystem} {e : Location} {text : String} {d : Descriptor}
    (hp : existing? fs "." = some Path.root)
    (hdir : fs.nearestWith? (fs.directoryOf Path.root) (Route.parse fileName) = some Path.root)
    (hD : fs.resolve? Path.root.route = some [])
    (he : fs.resolve? (Route.parse (Path.root.child fileName).written) = some e)
    (hc : fs.get? e = some (.file (.text text))) (hparse : parse text = .ok d) :
    Finds fs "." Path.root Path.root [] text d := by
  have htext := readText_of_resolve? he hc
  exact ⟨hp, findDirectory_eq_ok.mpr hdir, hD,
    read_eq_ok.mpr ⟨htext, hparse⟩⟩

/-- A tree whose pattern names one file. -/
def plainTree : FileSystem := linkedTree "a.ts" [(["a.ts"], .file (.text ""))]

/-- What the first run leaves of it. -/
def plainTreeSaved : FileSystem :=
  savedTree ("\x7b\n    \"filesGlob\": [\n        \"a.ts\"\n    ],\n    \"compilerOptions\": \x7b\x7d," ++
    "\n    \"files\": [\n        \"./a.ts\"\n    ]\n\x7d") "a.ts" [(["a.ts"], .file (.text ""))]

theorem load_again_linked : ∃ l fs', standard.load plainTree "." = (.ok l, fs') ∧
    fs' ≠ plainTree ∧ standard.load fs' "." = (.ok l, fs') := by
  have hreads : readsWith "\x7b\"filesGlob\": [\"a.ts\"]\x7d" (fun d =>
      decide (d.filesGlob = some ["a.ts"] ∧ ∀ n ∈ d.numbers, n.ReadsBack)) = true := by
    decide +kernel
  obtain ⟨d, hparse, hp⟩ := exists_of_readsWith hreads
  obtain ⟨hglob, hn⟩ := of_decide_eq_true hp
  obtain ⟨l, hl⟩ : ∃ l, standard.load plainTree "." = (.ok l, plainTreeSaved) :=
    exists_of_isOk (by decide +kernel)
  have hfinds : Finds plainTree "." Path.root Path.root [] _ d :=
    finds_root (by decide +kernel) (by decide +kernel) (by decide +kernel) (e := ["real.json"])
      (by decide +kernel) (by decide +kernel) hparse
  have hpatterns : (withDefaultPatterns d).filesGlob.getD [] = ["a.ts"] := by
    rw [withDefaultPatterns_of_isSome (by simp [hglob]), hglob, Option.getD_some]
  have hmet : MeetsNoNewFile plainTree plainTreeSaved Path.root Path.root ["a.ts"] := by
    refine ⟨by decide +kernel, ?_⟩
    unfold Glob.NoNewFile
    decide +kernel
  exact ⟨l, _, hl, by decide +kernel,
    load_again hl hfinds (by decide +kernel) hn (.inr (hpatterns ▸ hmet))⟩

/-- A tree whose pattern names a link that leads to the descriptor through forty links, when the
descriptor counts as none. -/
def loopedTree : FileSystem := linkedTree "a" [
  (["l"], .link "."),
  (["a"], .link (String.join (List.replicate 39 "l/") ++ "tsconfig.json"))]

/-- What the first run leaves of it. -/
def loopedTreeSaved : FileSystem :=
  savedTree ("\x7b\n    \"filesGlob\": [\n        \"a\"\n    ],\n    \"compilerOptions\": \x7b\x7d," ++
    "\n    \"files\": []\n\x7d") "a" [
    (["l"], .link "."),
    (["a"], .link (String.join (List.replicate 39 "l/") ++ "tsconfig.json"))]

/-- The second run lists a file that the first one has not found, and writes. -/
theorem load_again_differs : ∃ l fs' d text, standard.load loopedTree "." = (.ok l, fs') ∧
    Finds loopedTree "." Path.root Path.root [] text d ∧
    loopedTree.get? ([] ++ [temporaryName]) = none ∧ (∀ n ∈ d.numbers, n.ReadsBack) ∧
    (standard.load fs' ".").2 ≠ fs' := by
  have hreads : readsWith "\x7b\"filesGlob\": [\"a\"]\x7d"
      (fun d => decide (∀ n ∈ d.numbers, n.ReadsBack)) = true := by decide +kernel
  obtain ⟨d, hparse, hp⟩ := exists_of_readsWith hreads
  have hn := of_decide_eq_true hp
  obtain ⟨l, hl⟩ : ∃ l, standard.load loopedTree "." = (.ok l, loopedTreeSaved) :=
    exists_of_isOk (by decide +kernel)
  have hfinds : Finds loopedTree "." Path.root Path.root [] _ d :=
    finds_root (by decide +kernel) (by decide +kernel) (by decide +kernel) (e := ["real.json"])
      (by decide +kernel) (by decide +kernel) hparse
  exact ⟨l, _, d, _, hl, hfinds, by decide +kernel, hn, by decide +kernel⟩

end Tsconfig.Loader
