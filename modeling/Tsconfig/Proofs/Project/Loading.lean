/-
# What a successful run has done

A run that resolves a project has found a path, a directory, a descriptor and the files of its
patterns, one after the other (`load_eq_ok`, `resolveIn_eq_ok`, `expandFiles_eq_ok`).  The directory is
plain, and its descriptor is a file or a link that leads to one (`exists_descriptor`), so the
descriptor may be saved over it.  What has been saved is read back (`read_savedIn`).
-/
import Tsconfig.Project.Loader
import Tsconfig.Proofs.Descriptor.RoundTrip
import Tsconfig.Proofs.Descriptor.Saved

namespace Tsconfig.Loader

open Descriptor FileSystem

section

variable {r : Loader} {fs fs' : FileSystem} {path : WrittenPath} {p dir : Path} {l : LocatedProject}
  {text : String} {d : Descriptor}

/-! ## 1. Steps -/

theorem load_eq_ok : r.load fs path = (.ok l, fs') ↔ ∃ p dir, existing? fs path = some p ∧
    findDirectory fs p = .ok dir ∧ r.resolveIn fs dir = (.ok l, fs') := by
  unfold load
  cases hp : existing? fs path with
  | none => simp
  | some p =>
    cases hd : findDirectory fs p with
    | error e => simp [hd]
    | ok dir => simp [hd]

/-- A run that is known to succeed and what it leaves. -/
theorem exists_of_isOk (h : (r.load fs path).1.isOk = true ∧ (r.load fs path).2 = fs') :
    ∃ l, r.load fs path = (.ok l, fs') := by
  obtain ⟨hok, rfl⟩ := h
  cases hres : (r.load fs path).1 with
  | error e => simp [hres, Except.isOk, Except.toBool] at hok
  | ok l => exact ⟨l, by rw [← hres]⟩

theorem resolveIn_of_read {d' : Descriptor}
    (hread : Descriptor.read fs (dir.child fileName).written = .ok (text, d))
    (hexpand : r.expandFiles fs dir text (withDefaultPatterns d) = (.ok d', fs'))
    (hopt : optionsError? d'.compilerOptions = none) :
    r.resolveIn fs dir = (.ok (.ofDirectory dir (r.projectOf fs' dir d')), fs') := by
  simp only [resolveIn, hread, hexpand, hopt]

theorem resolveIn_eq_ok (h : r.resolveIn fs dir = (.ok l, fs')) : ∃ text d d',
    Descriptor.read fs (dir.child fileName).written = .ok (text, d) ∧
      r.expandFiles fs dir text (withDefaultPatterns d) = (.ok d', fs') ∧
      optionsError? d'.compilerOptions = none ∧ l = .ofDirectory dir (r.projectOf fs' dir d') := by
  simp only [resolveIn] at h
  split at h
  · simp at h
  · next text d hread =>
    split at h
    · simp at h
    · next d' fs₁ hexpand =>
      split at h
      · simp at h
      · next hopt =>
        simp only [Prod.mk.injEq, Except.ok.injEq] at h
        obtain ⟨rfl, rfl⟩ := h
        exact ⟨text, d, d', hread, hexpand, hopt, rfl⟩

/-- Expanding the patterns of a descriptor puts the files in and writes it unless that is its text
already. -/
theorem expandFiles_of_some {patterns files : List String} (hg : d.filesGlob = some patterns)
    (hfiles : r.expand fs dir patterns = .ok files) :
    r.expandFiles fs dir text d =
      if { d with files := some files }.canonical = text then (.ok { d with files := some files }, fs)
      else
        match replaceFile fs (dir.child fileName).written { d with files := some files }.canonical with
        | (.error e, fs) => (.error e, fs)
        | (.ok (), fs) => (.ok { d with files := some files }, fs) := by
  unfold expandFiles
  simp only
  split
  · next hnone => simp [hg] at hnone
  · next other hother =>
    obtain rfl : other = patterns := by simpa [hg] using hother.symm
    simp only [hfiles, update, save]
    by_cases hc : ({ d with files := some files } : Descriptor).canonical = text
    · simp only [if_pos hc]
    · simp only [if_neg hc]
      cases hsave : replaceFile fs (dir.child fileName).written
        ({ d with files := some files } : Descriptor).canonical with
      | mk res fs₁ => cases res <;> simp only

theorem expandFiles_of_none (hg : d.filesGlob = none) :
    r.expandFiles fs dir text d = (.ok d, fs) := by
  simp only [expandFiles, hg]

theorem expandFiles_eq_ok {d' : Descriptor} (h : r.expandFiles fs dir text d = (.ok d', fs')) :
    fs' = fs ∨ ∃ patterns files, d.filesGlob = some patterns ∧
      r.expand fs dir patterns = .ok files ∧ d' = { d with files := some files } ∧
      replaceFile fs (dir.child fileName).written d'.canonical = (.ok (), fs') := by
  rcases Option.eq_none_or_eq_some d.filesGlob with hg | ⟨patterns, hg⟩
  · rw [expandFiles_of_none hg] at h
    simp only [Prod.mk.injEq] at h
    exact .inl h.2.symm
  · cases hfiles : r.expand fs dir patterns with
    | error cause => simp [expandFiles, hg, hfiles] at h
    | ok files =>
      rw [expandFiles_of_some hg hfiles] at h
      split at h
      · simp only [Prod.mk.injEq] at h
        exact .inl h.2.symm
      · split at h
        · simp at h
        · next fs₁ hsave =>
          simp only [Prod.mk.injEq, Except.ok.injEq] at h
          obtain ⟨rfl, rfl⟩ := h
          exact .inr ⟨patterns, files, hg, hfiles, rfl, hsave⟩

/-- A descriptor without files and patterns gets the default patterns, and no descriptor gets or
loses anything else. -/
theorem withDefaultPatterns_eq (d : Descriptor) : ∃ patterns,
    withDefaultPatterns d = { d with filesGlob := patterns } := by
  unfold withDefaultPatterns
  split
  · exact ⟨_, rfl⟩
  · exact ⟨d.filesGlob, rfl⟩

theorem withDefaultPatterns_of_isSome (h : d.filesGlob.isSome) : withDefaultPatterns d = d := by
  unfold withDefaultPatterns
  rw [if_neg]
  simp [Option.isNone_eq_false_iff.mpr h]

/-! ## 2. The descriptor -/

theorem read_eq_ok : Descriptor.read fs path = .ok (text, d) ↔
    fs.readText (Route.parse path) = .ok text ∧ parse text = .ok d := by
  unfold Descriptor.read parseAt
  cases fs.readText (Route.parse path) with
  | error cause => simp
  | ok text' =>
    simp only [Except.ok.injEq]
    constructor
    · intro h
      cases hparse : parse text' with
      | error message => simp [hparse] at h
      | ok d' =>
        simp only [hparse, Except.ok.injEq, Prod.mk.injEq] at h
        obtain ⟨rfl, rfl⟩ := h
        exact ⟨rfl, hparse⟩
    · rintro ⟨rfl, hparse⟩
      simp only [hparse]

theorem existing?_eq_some :
    existing? fs path = some p ↔ fs.absolute path = p ∧ fs.isEntry p.route = true := by
  unfold existing?
  simp only [Option.ite_none_right_eq_some, Option.some.injEq]
  constructor
  · rintro ⟨hentry, rfl⟩
    exact ⟨rfl, hentry⟩
  · rintro ⟨rfl, hentry⟩
    exact ⟨hentry, rfl⟩

theorem isPlain_existing? (hp : existing? fs path = some p) : p.IsPlain :=
  (existing?_eq_some.mp hp).1 ▸ isPlain_absolute fs path

/-- The text of the path that is found names the same entry. -/
theorem existing?_written (hp : existing? fs path = some p) : existing? fs p.written = some p :=
  existing?_eq_some.mpr ⟨absolute_written fs (isPlain_existing? hp), (existing?_eq_some.mp hp).2⟩

theorem findDirectory_eq_ok : findDirectory fs p = .ok dir ↔
    fs.nearestWith? (fs.directoryOf p) (Route.parse fileName) = some dir := by
  simp only [findDirectory]
  cases fs.nearestWith? (fs.directoryOf p) (Route.parse fileName) <;> simp

theorem isPlain_findDirectory (hp : p.IsPlain) (hdir : findDirectory fs p = .ok dir) :
    dir.IsPlain :=
  isPlain_nearestWith? fs (isPlain_directoryOf fs hp) (findDirectory_eq_ok.mp hdir)

/-- **The directory that is found holds a descriptor**, which is a file or a link that leads to
one. -/
theorem exists_descriptor (hp : p.IsPlain) (hdir : findDirectory fs p = .ok dir) :
    refusal? (dir.child fileName).route = none ∧ ∃ D, fs.resolve? dir.route = some D ∧
      fs.get? D = some .directory ∧ fs.LeadsToFile D fileName ∧
      (fs.HoldsFile (D ++ [.ofText fileName]) ∨
        ∃ target, fs.get? (D ++ [.ofText fileName]) = some (.link target)) := by
  have hplain := isPlain_findDirectory hp hdir
  have hfile : fs.isFile (dir.child fileName).route = true := by
    rw [← Path.append_parse hplain (by decide)]
    have hfind := findDirectory_eq_ok.mp hdir
    unfold nearestWith? at hfind
    simpa using List.find?_some hfind
  obtain ⟨e, he, hholds⟩ := isFile_iff.mp hfile
  obtain ⟨D, m, hD, hget, hreach⟩ := resolve?_child hplain.rooted he
  refine ⟨(resolve?_eq_some.mp he).1, D, hD, hget, leadsToFile_of_reaches hreach hholds, ?_⟩
  cases hreach with
  | into _ _ _ _ hrest =>
    cases hrest
    exact .inl hholds
  | link _ _ hx _ _ => exact .inr ⟨_, hx⟩

end

/-! ## 3. After saving -/

section

variable {fs fs' : FileSystem} {path : WrittenPath} {text : String} {p dir : Path} {D : Location}
  {d : Descriptor}
  {c : Contents}

theorem existing?_replaced (h : Replaces fs fs' D fileName c) (hp : existing? fs path = some p) :
    existing? fs' path = some p := by
  rw [existing?_eq_some, h.absolute]
  exact (existing?_eq_some.mp hp).imp_right h.isEntry

/-- The text that was saved is read. -/
theorem read_savedIn (h : Replaces fs fs' D fileName (.text text)) (hplain : dir.IsPlain)
    (hD : fs.resolve? dir.route = some D) (hdir : fs.get? D = some .directory)
    (hok : refusal? (dir.child fileName).route = none) (hparse : parse text = .ok d) :
    Descriptor.read fs' (dir.child fileName).written = .ok (text, d) := by
  obtain ⟨hD', hdir'⟩ := h.directory.mpr ⟨hD, hdir⟩
  have hres := resolve?_child_file hD' hdir' hok (by decide) ⟨_, h.replaced.file⟩
  have htext : fs'.readText (Route.parse (dir.child fileName).written) = .ok text := by
    rw [Path.parse_written (hplain.child (by decide))]
    exact readText_of_resolve? hres h.replaced.file
  exact read_eq_ok.mpr ⟨htext, hparse⟩

end

end Tsconfig.Loader
