/-
# What a creation leaves that fails

A creation writes a descriptor and then resolves the project that it has made.  What fails in front of
the writing, and a descriptor that cannot be written, leave the tree as it was.  What fails behind it
undoes nothing: the new descriptor stays, as it was written or with its files (`Leftover`), and a second
creation is refused because of it.

A link under the name of the temporary file is removed even where nothing is written through it, and a
descriptor that is a link to a directory may lead the run astray; both are left out here
(`create_failed`).
-/
import Tsconfig.Proofs.Project.Footprint

namespace Tsconfig.Loader

open Descriptor FileSystem

/-! ## 1. Failures by where they come from -/

section

variable {r : Loader} {fs : FileSystem} {path : WrittenPath} {text : String} {dir : Path} {d : Descriptor}
  {e : ProjectError}

theorem unwritable_of_replaceFile (h : (replaceFile fs path text).1 = .error e) :
    ∃ p cause, e = .unwritable p cause := by
  unfold replaceFile at h
  simp only at h
  split at h
  · exact ⟨_, _, (Except.error.inj h).symm⟩
  · split at h
    · exact ⟨_, _, (Except.error.inj h).symm⟩
    · simp at h

/-- A failure that only a creation has: there is no entry, or there is a descriptor. -/
def OfCreation (e : ProjectError) : Prop := e.kind = .precondition ∨ e.kind = .alreadyThere

theorem not_ofCreation_read (h : Descriptor.read fs path = .error e) : ¬ OfCreation e := by
  unfold Descriptor.read at h
  split at h
  · obtain rfl := Except.error.inj h
    simp [OfCreation, ProjectError.kind]
  · next text _ =>
    unfold parseAt at h
    cases hparse : parse text with
    | ok d => simp [hparse] at h
    | error message =>
      simp only [hparse] at h
      obtain rfl := Except.error.inj h
      simp [OfCreation, ProjectError.kind]

theorem not_ofCreation_expandFiles (h : (r.expandFiles fs dir text d).1 = .error e) :
    ¬ OfCreation e := by
  cases hg : d.filesGlob with
  | none => simp [expandFiles_of_none hg] at h
  | some patterns =>
    cases hx : r.expand fs dir patterns with
    | error cause =>
      simp only [expandFiles, hg, hx] at h
      obtain rfl := Except.error.inj h
      simp [OfCreation, ProjectError.kind]
    | ok files =>
      rw [expandFiles_of_some hg hx] at h
      split at h
      · simp at h
      · split at h
        · next hsave =>
          obtain rfl := Except.error.inj h
          obtain ⟨p, cause, rfl⟩ := unwritable_of_replaceFile (congrArg Prod.fst hsave)
          simp [OfCreation, ProjectError.kind]
        · simp at h

/-- A run does not fail as only a creation does. -/
theorem not_ofCreation_load (h : (r.load fs path).1 = .error e) : ¬ OfCreation e := by
  unfold load at h
  split at h
  · obtain rfl := Except.error.inj h
    simp [OfCreation, ProjectError.kind]
  · next p _ =>
    split at h
    · next hfind =>
      obtain rfl := Except.error.inj h
      unfold findDirectory at hfind
      simp only at hfind
      split at hfind
      · obtain rfl := Except.error.inj hfind
        simp [OfCreation, ProjectError.kind]
      · simp at hfind
    · next dir _ =>
      unfold resolveIn at h
      simp only at h
      split at h
      · next hread =>
        obtain rfl := Except.error.inj h
        exact not_ofCreation_read hread
      · split at h
        · next hx =>
          obtain rfl := Except.error.inj h
          exact not_ofCreation_expandFiles (congrArg Prod.fst hx)
        · split at h
          · obtain rfl := Except.error.inj h
            simp [OfCreation, ProjectError.kind]
          · simp at h

end

/-! ## 2. What is left -/

/-- What a creation leaves that fails behind the writing: the descriptor, as it was written or with the
files of its patterns, and no temporary file.  Nothing else is changed. -/
structure Leftover (r : Loader) (fs fs' : FileSystem) (path : WrittenPath) (D : Location)
    (options : Option (Fields Json)) : Prop where
  descriptor : fs'.get? (D ++ [.ofText fileName]) = some (.file (.text (newDescriptor options).canonical)) ∨
    ∃ d patterns files, parse (newDescriptor options).canonical = .ok d ∧
      patternsOf d = some patterns ∧
      r.expand (created fs path options) (targetOf fs path) patterns = .ok files ∧
      fs'.get? (D ++ [.ofText fileName]) = some (.file (.text (d.expanded patterns files).canonical))
  temporary : fs'.get? (D ++ [temporaryName]) = none
  elsewhere : ∀ loc, loc ≠ D ++ [.ofText fileName] → loc ≠ D ++ [temporaryName] →
    fs'.get? loc = fs.get? loc

section

variable {r : Loader} {fs fs' : FileSystem} {path : WrittenPath} {D : Location}
  {options : Option (Fields Json)} {e : ProjectError}

/-- The tree in which a descriptor has been saved has it, and no temporary file. -/
theorem leftover_savedIn
    (hcreated : created fs path options = savedIn fs D (newDescriptor options).canonical) :
    Leftover r fs (created fs path options) path D options := by
  rw [hcreated]
  refine ⟨.inl ?_, ?_, fun loc hf ht => ?_⟩
  · rw [get?_savedIn (by simp), if_neg (temporaryName_ne_fileName D).symm, if_pos rfl]
  · rw [get?_savedIn (by simp), if_pos rfl]
  · by_cases hloc : loc = []
    · simp [hloc, get?]
    · rw [get?_savedIn hloc, if_neg ht, if_neg hf]

/-- So has the tree in which it was written again with its files. -/
theorem leftover_of_replaced
    (hcreated : created fs path options = savedIn fs D (newDescriptor options).canonical)
    {d : Descriptor} {patterns files : List String}
    (hparse : parse (newDescriptor options).canonical = .ok d) (hp : patternsOf d = some patterns)
    (hx : r.expand (created fs path options) (targetOf fs path) patterns = .ok files)
    (h : Replaced (created fs path options) fs' (D ++ [.ofText fileName])
      (.text (d.expanded patterns files).canonical)) : Leftover r fs fs' path D options := by
  have hsaved := leftover_savedIn (r := r) hcreated
  refine ⟨.inr ⟨d, patterns, files, hparse, hp, hx, h.file⟩, ?_, fun loc hf ht => ?_⟩
  · rw [h.elsewhere _ (temporaryName_ne_fileName D), hsaved.temporary]
  · rw [h.elsewhere _ hf, hsaved.elsewhere loc hf ht]

section

variable (hD : fs.resolve? (targetOf fs path).route = some D) (hdir : fs.get? D = some .directory)
  (hspare : fs.Spare (D ++ [temporaryName])) (hleads : fs.LeadsToFile D fileName)
  (hlong : ((targetOf fs path).child temporaryName).route.isTooLong = false)
  (hcreated : created fs path options = savedIn fs D (newDescriptor options).canonical)
include hD hdir hspare hleads hlong hcreated

/-- The run behind a creation reads the new descriptor. -/
theorem reads_created {dir : Path} {text : String} {d : Descriptor}
    (h : Reads (created fs path options) (fs.absolute path).written dir text d) :
    dir = targetOf fs path ∧ (created fs path options).resolve? dir.route = some D ∧
      (newDescriptor options).canonical = text := by
  rw [hcreated] at h ⊢
  obtain ⟨rfl, hplace⟩ := owner_savedIn (isPlain_absolute fs path) hD hdir hspare hleads hlong h.owns
  refine ⟨rfl, hplace, ?_⟩
  obtain ⟨hok, D', hD', hdir', _⟩ := h.owns.exists_place
  obtain rfl : D = D' := Option.some.inj (hplace.symm.trans hD')
  have hfile : (savedIn fs D (newDescriptor options).canonical).get? (D ++ [.ofText fileName]) =
      some (.file (.text (newDescriptor options).canonical)) := by
    rw [get?_savedIn (by simp), if_neg (temporaryName_ne_fileName D).symm, if_pos rfl]
  obtain ⟨loc, hloc, htext⟩ := readText_eq_ok.mp h.readText
  obtain rfl : D ++ [.ofText fileName] = loc :=
    Option.some.inj ((resolve?_child_file hplace hdir' hok (by decide) ⟨_, hfile⟩).symm.trans hloc)
  simpa using hfile.symm.trans htext

/-- **The run behind a creation undoes nothing if it fails**, and it does not fail to write. -/
theorem leftover_of_load
    (h : (r.load (created fs path options) (fs.absolute path).written).1 = .error e) :
    (∀ p cause, e ≠ .unwritable p cause) ∧
      Leftover r fs (r.load (created fs path options) (fs.absolute path).written).2 path D options := by
  have hsaved : Leftover r fs (created fs path options) path D options := leftover_savedIn hcreated
  rcases fails_or_ready r (created fs path options) (fs.absolute path).written with
    ⟨e', hfails, hkind⟩ | ⟨dir, text, d, hreads, hr⟩
  · have hrun := load_of_fails hfails hkind
    have hleft : (r.load (created fs path options) (fs.absolute path).written).2 =
        created fs path options := by rw [hrun]
    rw [hrun] at h
    obtain rfl := Except.error.inj h
    rw [hleft]
    refine ⟨?_, hsaved⟩
    rintro p cause rfl
    cases hfails with
    | unwritable hreads _ _ _ htoo =>
      obtain ⟨rfl, _⟩ := reads_created hD hdir hspare hleads hlong hcreated hreads
      simp [hlong] at htoo
  · obtain ⟨rfl, hplace, rfl⟩ := reads_created hD hdir hspare hleads hlong hcreated hreads
    obtain ⟨hbad, hgood, hleaves⟩ := load_of_ready hreads hplace hsaved.temporary hr
    refine ⟨?_, ?_⟩
    · rintro p cause rfl
      cases hopt : optionsError? d.compilerOptions with
      | none =>
        obtain ⟨l, hl⟩ := hgood hopt
        simp [hl] at h
      | some wrong => simp [hbad wrong hopt] at h
    · cases hp : patternsOf d with
      | none => rwa [hleaves.listed hp]
      | some patterns =>
        obtain ⟨files, hx, hwritten | ⟨hsame, _⟩⟩ := hleaves.expanded patterns hp
        · exact leftover_of_replaced hcreated hreads.parse hp hx hwritten
        · rwa [hsame]

end

/-- **What a creation leaves that fails.**  Without an entry, or where there is a descriptor, the tree is
as it was.  With no link in the way, so it is if the descriptor could not be written; after any other
failure the descriptor is there. -/
theorem create_failed (h : (r.create fs path options).1 = .error e) :
    (OfCreation e → (r.create fs path options).2 = fs) ∧
    ∀ D, fs.resolve? (targetOf fs path).route = some D →
      (∀ target, fs.get? (D ++ [temporaryName]) ≠ some (.link target)) →
      fs.LeadsToFile D fileName →
        ((∃ p cause, e = .unwritable p cause) → (r.create fs path options).2 = fs) ∧
        (¬ OfCreation e → (∀ p cause, e ≠ .unwritable p cause) →
          Leftover r fs (r.create fs path options).2 path D options) := by
  cases hentry : fs.isEntry (fs.absolute path).route with
  | false =>
    rw [create_of_no_entry r options hentry] at h ⊢
    obtain rfl := Except.error.inj h
    exact ⟨fun _ => rfl, fun _ _ _ _ => ⟨fun _ => rfl, fun hnot => absurd (.inl rfl) hnot⟩⟩
  | true =>
    obtain ⟨hplain, D, hD, hdir⟩ := exists_target hentry
    cases hnew : fs.isEntry ((targetOf fs path).child fileName).route with
    | true =>
      rw [create_of_descriptor r options hentry hnew] at h ⊢
      obtain rfl := Except.error.inj h
      exact ⟨fun _ => rfl, fun _ _ _ _ => ⟨fun _ => rfl, fun hnot => absurd (.inr rfl) hnot⟩⟩
    | false =>
      cases hsave : Descriptor.save fs ((targetOf fs path).child fileName).written
        (newDescriptor options) with
      | mk res fs₁ =>
        have hcreated : created fs path options = fs₁ := by rw [created, hsave]
        cases res with
        | error e' =>
          rw [create_of_refused hentry hnew hsave] at h ⊢
          obtain rfl := Except.error.inj h
          obtain ⟨p, cause, rfl⟩ := unwritable_of_replaceFile (congrArg Prod.fst hsave)
          refine ⟨by simp [OfCreation, ProjectError.kind], fun D' hD' hlink hleads => ?_⟩
          obtain rfl : D = D' := Option.some.inj (hD.symm.trans hD')
          refine ⟨fun _ => ?_, fun _ hnot => absurd rfl (hnot p cause)⟩
          rcases replaceFile_cases hplain hD hdir hlink (hleads.not_directory hdir (by decide)) with
            ⟨_, _, hrefused⟩ | ⟨_, _, hsaved⟩
          · exact (congrArg Prod.snd (hsave.symm.trans hrefused))
          · have := hsave.symm.trans hsaved
            simp at this
        | ok _ =>
          rw [create_of_saved hentry hnew hsave, ← hcreated] at h ⊢
          refine ⟨fun hof => absurd hof (not_ofCreation_load h), fun D' hD' hlink hleads => ?_⟩
          obtain rfl : D = D' := Option.some.inj (hD.symm.trans hD')
          obtain ⟨hspare, hlong, hfs⟩ := eq_savedIn_of_save hplain hD hdir hlink hleads hsave
          obtain ⟨hnot, hleft⟩ := leftover_of_load hD hdir hspare hleads hlong (hcreated.trans hfs) h
          constructor
          · rintro ⟨p, cause, he⟩
            exact absurd he (hnot p cause)
          · intro _ _
            exact hleft

end

/-- Options that are refused once the descriptor has been read back. -/
def outOptions : Fields Json := [("out", .string "x.js")]

/-- The tree after a creation with these options. -/
def refusedTree : FileSystem :=
  { sourceTree with
    entries := [
      (["a.ts"], .file (.text "")),
      (["tsconfig.json"], .file (.text ("\x7b\n    \"version\": \"1.4.1\",\n" ++
        "    \"compilerOptions\": \x7b\n        \"out\": \"x.js\"\n    \x7d,\n" ++
        "    \"filesGlob\": [\n        \"./**/*.ts\",\n" ++
        "        \"!./node_modules/**/*.ts\"\n    ],\n" ++
        "    \"files\": [\n        \"./a.ts\"\n    ]\n\x7d")))] }

theorem create_outOptions :
    (standard.create sourceTree "a.ts" (some outOptions)).1 =
        .error (.badOptions "/tsconfig.json" .outUnsupported) ∧
      (standard.create sourceTree "a.ts" (some outOptions)).2 = refusedTree := by
  have hrun : failure? (standard.create sourceTree "a.ts" (some outOptions)).1 =
        some (.badOptions "/tsconfig.json" .outUnsupported) ∧
      (standard.create sourceTree "a.ts" (some outOptions)).2 = refusedTree := by decide +kernel
  exact ⟨eq_error_of_failure? hrun.1, hrun.2⟩

theorem create_failed_leftover :
    Leftover .standard sourceTree refusedTree "a.ts" [] (some outOptions) := by
  obtain ⟨hrun, hleft⟩ := create_outOptions
  have hlink : ∀ target, sourceTree.get? ([] ++ [temporaryName]) ≠ some (.link target) := by
    have hfree : sourceTree.get? ([] ++ [temporaryName]) = none := by decide +kernel
    intro target
    rw [hfree]
    simp
  have hleads : sourceTree.LeadsToFile [] fileName := leadsToFile_of_none (by decide +kernel)
  rw [← hleft]
  exact ((create_failed hrun).2 [] (by decide +kernel) hlink hleads).2
    (by simp [OfCreation, ProjectError.kind]) (by simp)

/-- A creation fails, the descriptor stays, and the next creation is refused because of it.  A link under
the name of the temporary file is gone though nothing was written, and where the creation goes astray the
descriptor of another directory is changed. -/
theorem create_failed_remains :
    ((∃ e, (standard.create sourceTree "a.ts" (some outOptions)).1 = .error e) ∧
      (standard.create sourceTree "a.ts" (some outOptions)).2 ≠ sourceTree ∧
      (standard.create (standard.create sourceTree "a.ts" (some outOptions)).2 "a.ts" none).1 =
        .error (.descriptorExists "/tsconfig.json")) ∧
    ((∃ p cause, (standard.create (staleTree (.link ".")) "sub" none).1 =
        .error (.unwritable p cause)) ∧
      (standard.create (staleTree (.link ".")) "sub" none).2 ≠ staleTree (.link ".")) ∧
    ((∃ e, (standard.create turningTree "a/way" none).1 = .error e) ∧
      (standard.create turningTree "a/way" none).2.get? ["a", "tsconfig.json"] ≠
        turningTree.get? ["a", "tsconfig.json"]) := by
  obtain ⟨hrun, hleft⟩ := create_outOptions
  have hlink : failure? (standard.create (staleTree (.link ".")) "sub" none).1 =
        some (.unwritable "/sub/tsconfig.json.tmp" .isDirectory) ∧
      (standard.create (staleTree (.link ".")) "sub" none).2 ≠ staleTree (.link ".") := by
    decide +kernel
  have hturn : failure? (standard.create turningTree "a/way" none).1 =
        some (.badOptions "/a/tsconfig.json" .outUnsupported) ∧
      (standard.create turningTree "a/way" none).2.get? ["a", "tsconfig.json"] ≠
        turningTree.get? ["a", "tsconfig.json"] := by
    decide +kernel
  refine ⟨?_, ⟨⟨_, _, eq_error_of_failure? hlink.1⟩, hlink.2⟩,
    ⟨_, eq_error_of_failure? hturn.1⟩, hturn.2⟩
  rw [hleft]
  exact ⟨⟨_, hrun⟩, by decide +kernel, eq_error_of_failure? (by decide +kernel)⟩

end Tsconfig.Loader
