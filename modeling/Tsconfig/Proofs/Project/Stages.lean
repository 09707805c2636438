/-
# How far a run gets

A run for a path finds the directory that owns it (`Owns`), reads the descriptor there (`Reads`),
expands its patterns and writes it back (`Ready`), and checks its options.  Each of these stages may
fail, and `Fails` says when and how, one constructor for each failure, each with what the stages in
front of it have found.  A run ends in an error exactly if that failure is the one (`load_outcome`).

A run that does not get to the options leaves the file system as it was.  One that does leaves the
canonical text of the expanded descriptor behind (`Leaves`), whatever becomes of the options.

Nothing in the tree can prevent the descriptor from being written but the length of the path of the
temporary file.
-/
import Tsconfig.Proofs.Descriptor.Object
import Tsconfig.Proofs.Project.Creation

namespace Tsconfig.Loader

open Descriptor FileSystem

/-! ## 1. The directory that owns a path -/

/-- A directory has a file under the name of a descriptor, or a link to one. -/
def HasDescriptor (fs : FileSystem) (dir : Path) : Prop :=
  fs.isFile (dir.child fileName).route = true

/-- The directory is the nearest one with a descriptor, from the directory that the path designates
upwards. -/
structure Owns (fs : FileSystem) (path : WrittenPath) (dir : Path) : Prop where
  entry : fs.isEntry (fs.absolute path).route = true
  descriptor : HasDescriptor fs dir
  nearest : ∃ nearer farther,
    ancestors (fs.directoryOf (fs.absolute path)) = nearer ++ dir :: farther ∧
      ∀ q ∈ nearer, ¬ HasDescriptor fs q

/-- Nothing has the name of the temporary file in the directory that owns the path. -/
def NoTemporary (fs : FileSystem) (path : WrittenPath) : Prop :=
  ∀ dir D, Owns fs path dir → fs.resolve? dir.route = some D → fs.get? (D ++ [temporaryName]) = none

section

variable {fs : FileSystem} {path : WrittenPath} {p dir : Path} {e : ProjectError}

theorem existing?_eq_none : existing? fs path = none ↔ fs.isEntry (fs.absolute path).route = false := by
  simp [existing?]

theorem existing?_of_isEntry (h : fs.isEntry (fs.absolute path).route = true) :
    existing? fs path = some (fs.absolute path) :=
  existing?_eq_some.mpr ⟨rfl, h⟩

/-- What the search for a descriptor asks of a directory. -/
theorem isFile_append_iff (hp : p.IsPlain) (h : dir ∈ ancestors (fs.directoryOf p)) :
    fs.isFile (dir.route.append (Route.parse fileName)) = true ↔ HasDescriptor fs dir := by
  have hdir : dir.IsPlain := isPlain_of_mem_ancestors (isPlain_directoryOf fs hp) h
  rw [Path.append_parse hdir (by decide), HasDescriptor]

theorem findDirectory_eq_ok_iff (hp : p.IsPlain) : findDirectory fs p = .ok dir ↔
    HasDescriptor fs dir ∧ ∃ nearer farther, ancestors (fs.directoryOf p) = nearer ++ dir :: farther ∧
      ∀ q ∈ nearer, ¬ HasDescriptor fs q := by
  have hiff (q : Path) := @isFile_append_iff fs p q hp
  rw [findDirectory_eq_ok, nearestWith?, List.find?_eq_some_iff_append]
  constructor
  · rintro ⟨hdir, nearer, farther, hsplit, hno⟩
    rw [hsplit] at hiff
    refine ⟨(hiff dir (by simp)).mp hdir, nearer, farther, hsplit, fun q hq hhas => ?_⟩
    have hnot := hno q hq
    rw [(hiff q (by simp [hq])).mpr hhas] at hnot
    simp at hnot
  · rintro ⟨hdir, nearer, farther, hsplit, hno⟩
    rw [hsplit] at hiff
    refine ⟨(hiff dir (by simp)).mpr hdir, nearer, farther, hsplit, fun q hq => ?_⟩
    rw [Bool.not_eq_true', Bool.eq_false_iff]
    exact fun hfile => hno q hq ((hiff q (by simp [hq])).mp hfile)

theorem findDirectory_eq_error_iff (hp : p.IsPlain) : findDirectory fs p = .error e ↔
    (∀ q ∈ ancestors (fs.directoryOf p), ¬ HasDescriptor fs q) ∧
      .noDescriptor (fs.directoryOf p).written = e := by
  have hnone : fs.nearestWith? (fs.directoryOf p) (Route.parse fileName) = none ↔
      ∀ q ∈ ancestors (fs.directoryOf p), ¬ HasDescriptor fs q := by
    rw [nearestWith?, List.find?_eq_none]
    exact forall₂_congr fun _ hq => not_congr (isFile_append_iff hp hq)
  rw [← hnone, findDirectory]
  cases fs.nearestWith? (fs.directoryOf p) (Route.parse fileName) <;> simp

theorem owns_iff : Owns fs path dir ↔
    ∃ p, existing? fs path = some p ∧ findDirectory fs p = .ok dir := by
  have hplain := isPlain_absolute fs path
  constructor
  · intro h
    exact ⟨_, existing?_of_isEntry h.entry,
      (findDirectory_eq_ok_iff hplain).mpr ⟨h.descriptor, h.nearest⟩⟩
  · rintro ⟨p, hp, hdir⟩
    obtain ⟨rfl, hentry⟩ := existing?_eq_some.mp hp
    obtain ⟨hhas, hnearest⟩ := (findDirectory_eq_ok_iff hplain).mp hdir
    exact ⟨hentry, hhas, hnearest⟩

theorem Owns.unique {dir' : Path} (h : Owns fs path dir) (h' : Owns fs path dir') : dir = dir' := by
  obtain ⟨p, hp, hdir⟩ := owns_iff.mp h
  obtain ⟨p', hp', hdir'⟩ := owns_iff.mp h'
  obtain rfl : p = p' := Option.some.inj (hp.symm.trans hp')
  exact Except.ok.inj (hdir.symm.trans hdir')

/-- It is enough to look into the one directory that owns the path. -/
theorem noTemporary_of_owns (h : Owns fs path dir) {D : Location} (hD : fs.resolve? dir.route = some D)
    (hfree : fs.get? (D ++ [temporaryName]) = none) : NoTemporary fs path := by
  intro dir' D' h' hD'
  obtain rfl := h.unique h'
  obtain rfl : D = D' := Option.some.inj (hD.symm.trans hD')
  exact hfree

theorem Owns.isPlain (h : Owns fs path dir) : dir.IsPlain := by
  obtain ⟨p, hp, hdir⟩ := owns_iff.mp h
  exact isPlain_findDirectory (isPlain_existing? hp) hdir

/-- Behind a directory that owns a path the run goes on in that directory. -/
theorem load_of_owns (r : Loader) (h : Owns fs path dir) : r.load fs path = r.resolveIn fs dir := by
  obtain ⟨p, hp, hdir⟩ := owns_iff.mp h
  simp only [load, hp, hdir]

/-- **The directory that owns a path is a place in the tree**, in which the descriptor is a file or a
link that leads to one. -/
theorem Owns.exists_place (h : Owns fs path dir) :
    refusal? (dir.child fileName).route = none ∧ ∃ D, fs.resolve? dir.route = some D ∧
      fs.get? D = some .directory ∧ fs.LeadsToFile D fileName ∧
      (fs.HoldsFile (D ++ [.ofText fileName]) ∨
        ∃ target, fs.get? (D ++ [.ofText fileName]) = some (.link target)) := by
  obtain ⟨p, hp, hdir⟩ := owns_iff.mp h
  exact exists_descriptor (isPlain_existing? hp) hdir

end

/-! ## 2. The stages -/

/-- The patterns that the files of a descriptor are found with: its own, or the default ones if it names
neither files nor patterns. -/
def patternsOf (d : Descriptor) : Option (List String) :=
  match d.filesGlob, d.files with
  | some patterns, _ => some patterns
  | none, none => some Glob.defaultPatterns
  | none, some _ => none

/-- The descriptor of the directory that owns the path has been read. -/
structure Reads (fs : FileSystem) (path : WrittenPath) (dir : Path) (text : String) (d : Descriptor) :
    Prop where
  owns : Owns fs path dir
  readText : fs.readText (dir.child fileName).route = .ok text
  parse : parse text = .ok d

/-- The patterns can be expanded, and the descriptor can be written unless that is its text already. -/
def Ready (r : Loader) (fs : FileSystem) (dir : Path) (text : String) (d : Descriptor) : Prop :=
  ∀ patterns, patternsOf d = some patterns → ∃ files, r.expand fs dir patterns = .ok files ∧
    ((d.expanded patterns files).canonical = text ∨
      (dir.child temporaryName).route.isTooLong = false)

/-- **Why a run fails.**  Each failure says what the stages in front of it have found. -/
inductive Fails (r : Loader) (fs : FileSystem) (path : WrittenPath) : ProjectError → Prop
  | noSuchPath (h : fs.isEntry (fs.absolute path).route = false) : Fails r fs path (.noSuchPath path)
  | noDescriptor (h : fs.isEntry (fs.absolute path).route = true)
      (hno : ∀ q ∈ ancestors (fs.directoryOf (fs.absolute path)), ¬ HasDescriptor fs q) :
      Fails r fs path (.noDescriptor (fs.directoryOf (fs.absolute path)).written)
  | unreadable {dir : Path} (h : Owns fs path dir) (e : Location) (bytes : List UInt8)
      (he : fs.resolve? (dir.child fileName).route = some e)
      (hbytes : fs.get? e = some (.file (.binary bytes))) :
      Fails r fs path (.unreadable (dir.child fileName).written .notText)
  | malformed {dir : Path} {text message : String} (h : Owns fs path dir)
      (htext : fs.readText (dir.child fileName).route = .ok text)
      (hparse : parse text = .error message) :
      Fails r fs path (.malformed (dir.child fileName).written message)
  | badPatterns {dir : Path} {text : String} {d : Descriptor} (h : Reads fs path dir text d)
      {patterns : List String} {cause : Glob.ExpandError} (hp : patternsOf d = some patterns)
      (hx : r.expand fs dir patterns = .error cause) :
      Fails r fs path (.badPatterns (dir.child fileName).written patterns cause)
  | unwritable {dir : Path} {text : String} {d : Descriptor} (h : Reads fs path dir text d)
      {patterns files : List String} (hp : patternsOf d = some patterns)
      (hx : r.expand fs dir patterns = .ok files)
      (hnew : (d.expanded patterns files).canonical ≠ text)
      (hlong : (dir.child temporaryName).route.isTooLong = true) :
      Fails r fs path (.unwritable (dir.child temporaryName).written .nameTooLong)
  | offence {dir : Path} {text : String} {d : Descriptor} (h : Reads fs path dir text d)
      (hr : Ready r fs dir text d) {o : Options.Offence}
      (ho : Options.check d.compilerOptions = some o) :
      Fails r fs path (.badOptions (dir.child fileName).written (.offence o))
  | outUnsupported {dir : Path} {text : String} {d : Descriptor} (h : Reads fs path dir text d)
      (hr : Ready r fs dir text d) (hc : Options.check d.compilerOptions = none)
      (hout : "out" ∈ d.compilerOptions.keys) :
      Fails r fs path (.badOptions (dir.child fileName).written .outUnsupported)

/-- **What a run leaves that gets to the options.**  Without patterns nothing is changed.  With patterns
the descriptor is a file with the canonical text of the expanded descriptor, and nothing else is
changed; only a link that leads to this text already is left as it is. -/
structure Leaves (r : Loader) (fs : FileSystem) (dir : Path) (D : Location) (text : String)
    (d : Descriptor) (fs' : FileSystem) : Prop where
  listed : patternsOf d = none → fs' = fs
  expanded : ∀ patterns, patternsOf d = some patterns → ∃ files, r.expand fs dir patterns = .ok files ∧
    (Replaced fs fs' (D ++ [.ofText fileName]) (.text (d.expanded patterns files).canonical) ∨
      (fs' = fs ∧ (∃ target, fs.get? (D ++ [.ofText fileName]) = some (.link target)) ∧
        (d.expanded patterns files).canonical = text))

section

variable {r : Loader} {fs fs' : FileSystem} {path : WrittenPath} {text : String} {dir : Path} {D : Location}
  {d : Descriptor} {patterns files : List String} {e : ProjectError}

theorem withDefaultPatterns_of_none (h : patternsOf d = none) :
    withDefaultPatterns d = d ∧ d.filesGlob = none := by
  unfold patternsOf at h
  unfold withDefaultPatterns
  split at h
  · simp at h
  · simp at h
  · next hg hf => simp [hg, hf]

theorem withDefaultPatterns_of_some (h : patternsOf d = some patterns) :
    withDefaultPatterns d = { d with filesGlob := some patterns } := by
  unfold patternsOf at h
  unfold withDefaultPatterns
  split at h
  · next hg =>
    obtain rfl := Option.some.inj h
    rw [if_neg (by simp [hg]), ← hg]
  · next hg hf =>
    obtain rfl := Option.some.inj h
    simp [hg, hf]
  · simp at h

theorem withFiles_default (h : patternsOf d = some patterns) :
    { withDefaultPatterns d with files := some files } = d.expanded patterns files := by
  rw [withDefaultPatterns_of_some h]
  rfl

theorem expandFiles_of_error {cause : Glob.ExpandError} (hp : patternsOf d = some patterns)
    (hx : r.expand fs dir patterns = .error cause) :
    r.expandFiles fs dir text (withDefaultPatterns d) =
      (.error (.badPatterns (dir.child fileName).written patterns cause), fs) := by
  simp only [expandFiles, withDefaultPatterns_of_some hp, hx]

section

variable (hp : patternsOf d = some patterns) (hx : r.expand fs dir patterns = .ok files)
include hp hx

/-- A descriptor that has its text already is left as it is. -/
theorem expandFiles_of_eq (htext : (d.expanded patterns files).canonical = text) :
    r.expandFiles fs dir text (withDefaultPatterns d) = (.ok (d.expanded patterns files), fs) := by
  rw [expandFiles_of_some (by rw [withDefaultPatterns_of_some hp]) hx, withFiles_default hp,
    if_pos htext]

/-- Any other descriptor is saved. -/
theorem expandFiles_of_ne (hne : (d.expanded patterns files).canonical ≠ text)
    {res : Except ProjectError Unit}
    (hsave : replaceFile fs (dir.child fileName).written (d.expanded patterns files).canonical =
      (res, fs')) :
    r.expandFiles fs dir text (withDefaultPatterns d) =
      (res.map fun _ => d.expanded patterns files, fs') := by
  rw [expandFiles_of_some (by rw [withDefaultPatterns_of_some hp]) hx, withFiles_default hp,
    if_neg hne, hsave]
  cases res <;> rfl

end

theorem optionsError?_eq_some {options : Fields Json} {cause : OptionsError} :
    optionsError? options = some cause ↔
      (∃ o, Options.check options = some o ∧ cause = .offence o) ∨
        (Options.check options = none ∧ "out" ∈ options.keys ∧ cause = .outUnsupported) := by
  unfold optionsError?
  cases Options.check options with
  | some o => simp [eq_comm]
  | none =>
    rw [← Fields.contains_iff]
    cases options.contains "out" <;> simp [eq_comm]

theorem optionsError?_eq_none {options : Fields Json} :
    optionsError? options = none ↔ Options.check options = none ∧ "out" ∉ options.keys := by
  unfold optionsError?
  cases Options.check options with
  | some o => simp
  | none =>
    rw [← Fields.contains_iff]
    cases options.contains "out" <;> simp

/-- The descriptor that a run reads. -/
theorem reads_iff (howns : Owns fs path dir) : Reads fs path dir text d ↔
    Descriptor.read fs (dir.child fileName).written = .ok (text, d) := by
  have hparse : Route.parse (dir.child fileName).written = (dir.child fileName).route :=
    Path.parse_written (howns.isPlain.child (by decide))
  rw [read_eq_ok, hparse]
  exact ⟨fun h => ⟨h.readText, h.parse⟩, fun h => ⟨howns, h.1, h.2⟩⟩

theorem Reads.read (h : Reads fs path dir text d) :
    Descriptor.read fs (dir.child fileName).written = .ok (text, d) := (reads_iff h.owns).mp h

/-- What is wrong with the options is the outcome, if all is well in front of them. -/
theorem resolveIn_of_expandFiles {d' : Descriptor} (h : Reads fs path dir text d)
    (hx : r.expandFiles fs dir text (withDefaultPatterns d) = (.ok d', fs')) :
    (∀ cause, optionsError? d'.compilerOptions = some cause →
      r.resolveIn fs dir = (.error (.badOptions (dir.child fileName).written cause), fs')) ∧
    (optionsError? d'.compilerOptions = none →
      r.resolveIn fs dir = (.ok (.ofDirectory dir (r.projectOf fs' dir d')), fs')) := by
  constructor
  · intro cause hcause
    simp only [resolveIn, h.read, hx, hcause]
  · intro hnone
    exact resolveIn_of_read h.read hx hnone

theorem resolveIn_of_refused (h : Reads fs path dir text d)
    (hx : r.expandFiles fs dir text (withDefaultPatterns d) = (.error e, fs')) :
    r.resolveIn fs dir = (.error e, fs') := by
  simp only [resolveIn, h.read, hx]

end

/-! ## 3. The outcome -/

section

variable {r : Loader} {fs : FileSystem} {path : WrittenPath} {text : String} {dir : Path} {D : Location}
  {d : Descriptor} {e : ProjectError}

/-- **A descriptor that can be written is left with its canonical text**, and its options are as they
were. -/
theorem expandFiles_of_ready (h : Reads fs path dir text d) (hD : fs.resolve? dir.route = some D)
    (hfree : fs.get? (D ++ [temporaryName]) = none) (hr : Ready r fs dir text d) :
    ∃ d' fs', r.expandFiles fs dir text (withDefaultPatterns d) = (.ok d', fs') ∧
      d'.compilerOptions = d.compilerOptions ∧ Leaves r fs dir D text d fs' := by
  obtain ⟨hok, D', hD', hdir, hleads, hspot⟩ := h.owns.exists_place
  obtain rfl : D = D' := Option.some.inj (hD.symm.trans hD')
  cases hp : patternsOf d with
  | none =>
    obtain ⟨hsame, hg⟩ := withDefaultPatterns_of_none hp
    refine ⟨d, fs, by rw [hsame, expandFiles_of_none hg], rfl, fun _ => rfl, ?_⟩
    intro patterns hsome
    simp [hp] at hsome
  | some patterns =>
    obtain ⟨files, hx, hwritable⟩ := hr patterns hp
    by_cases hc : (d.expanded patterns files).canonical = text
    · refine ⟨_, fs, expandFiles_of_eq hp hx hc, rfl, by simp [hp], ?_⟩
      intro other hother
      obtain rfl : patterns = other := Option.some.inj (hp.symm.trans hother)
      refine ⟨files, hx, ?_⟩
      rcases hspot with hfile | hlink
      · -- The descriptor is no link, so it is the text itself that has been read.
        obtain ⟨e, he, htext⟩ := readText_eq_ok.mp h.readText
        obtain rfl : D ++ [.ofText fileName] = e :=
          Option.some.inj ((resolve?_child_file hD hdir hok (by decide) hfile).symm.trans he)
        exact .inl ⟨hc ▸ htext, fun _ _ => rfl, rfl⟩
      · exact .inr ⟨rfl, hlink, hc⟩
    · have hnot : fs.get? (D ++ [.ofText fileName]) ≠ some .directory :=
        hleads.not_directory hdir (by decide)
      have hsave : replaceFile fs (dir.child fileName).written (d.expanded patterns files).canonical =
          (.ok (), savedIn fs D (d.expanded patterns files).canonical) :=
        replaceFile_child h.owns.isPlain hD hdir hfree hnot (hwritable.resolve_left hc)
      refine ⟨_, _, expandFiles_of_ne hp hx hc hsave, rfl, by simp [hp], ?_⟩
      intro other hother
      obtain rfl : patterns = other := Option.some.inj (hp.symm.trans hother)
      exact ⟨files, hx, .inl (replaced_savedIn hfree)⟩

/-- A run that gets to the options ends as they are, and leaves the canonical text behind. -/
theorem load_of_ready (h : Reads fs path dir text d) (hD : fs.resolve? dir.route = some D)
    (hfree : fs.get? (D ++ [temporaryName]) = none) (hr : Ready r fs dir text d) :
    (∀ cause, optionsError? d.compilerOptions = some cause →
      (r.load fs path).1 = .error (.badOptions (dir.child fileName).written cause)) ∧
    (optionsError? d.compilerOptions = none → ∃ l, (r.load fs path).1 = .ok l) ∧
    Leaves r fs dir D text d (r.load fs path).2 := by
  obtain ⟨d', fs', hx, hoptions, hleaves⟩ := expandFiles_of_ready h hD hfree hr
  obtain ⟨hbad, hgood⟩ := resolveIn_of_expandFiles h hx
  rw [hoptions] at hbad hgood
  rw [load_of_owns r h.owns]
  cases hopt : optionsError? d.compilerOptions with
  | none =>
    rw [hgood hopt]
    exact ⟨by simp, fun _ => ⟨_, rfl⟩, hleaves⟩
  | some cause =>
    rw [hbad cause hopt]
    exact ⟨fun other hother => by rw [Option.some.inj hother], by simp, hleaves⟩

/-- **A run that does not get to the options fails as it should and changes nothing.** -/
theorem load_of_fails (h : Fails r fs path e) (he : e.kind ≠ .options) :
    r.load fs path = (.error e, fs) := by
  have hparse {dir : Path} (ho : Owns fs path dir) :
      Route.parse (dir.child fileName).written = (dir.child fileName).route :=
    Path.parse_written (ho.isPlain.child (by decide))
  cases h with
  | noSuchPath h => simp only [load, existing?_eq_none.mpr h]
  | noDescriptor h hno =>
    have hdir := (findDirectory_eq_error_iff (isPlain_absolute fs path)).mpr ⟨hno, rfl⟩
    simp only [load, existing?_of_isEntry h, hdir]
  | unreadable h loc bytes hloc hbytes =>
    have htext := readText_eq_notText hloc hbytes
    rw [load_of_owns r h]
    simp only [resolveIn, Descriptor.read, hparse h, htext]
  | malformed h htext hmessage =>
    rw [load_of_owns r h]
    simp only [resolveIn, Descriptor.read, hparse h, htext, parseAt, hmessage]
  | badPatterns h hp hx =>
    rw [load_of_owns r h.owns]
    exact resolveIn_of_refused h (expandFiles_of_error hp hx)
  | unwritable h hp hx hnew hlong =>
    obtain ⟨_, D, hD, _⟩ := h.owns.exists_place
    rw [load_of_owns r h.owns]
    exact resolveIn_of_refused h
      (expandFiles_of_ne hp hx hnew (replaceFile_tooLong h.owns.isPlain hD hlong))
  | offence => exact absurd rfl he
  | outUnsupported => exact absurd rfl he

/-- Every run fails in front of the options or gets to them. -/
theorem fails_or_ready (r : Loader) (fs : FileSystem) (path : WrittenPath) :
    (∃ e, Fails r fs path e ∧ e.kind ≠ .options) ∨
      ∃ dir text d, Reads fs path dir text d ∧ Ready r fs dir text d := by
  have hplain := isPlain_absolute fs path
  cases hentry : fs.isEntry (fs.absolute path).route with
  | false => exact .inl ⟨_, .noSuchPath hentry, by simp [ProjectError.kind]⟩
  | true =>
    cases hdir : findDirectory fs (fs.absolute path) with
    | error e =>
      obtain ⟨hno, _⟩ := (findDirectory_eq_error_iff hplain).mp hdir
      exact .inl ⟨_, .noDescriptor hentry hno, by simp [ProjectError.kind]⟩
    | ok dir =>
      obtain ⟨hhas, hnearest⟩ := (findDirectory_eq_ok_iff hplain).mp hdir
      have howns : Owns fs path dir := ⟨hentry, hhas, hnearest⟩
      obtain ⟨e, he, c, hc⟩ := isFile_iff.mp hhas
      cases c with
      | binary bytes => exact .inl ⟨_, .unreadable howns e bytes he hc, by simp [ProjectError.kind]⟩
      | text text =>
        have htext := readText_of_resolve? he hc
        cases hparse : parse text with
        | error message =>
          exact .inl ⟨_, .malformed howns htext hparse, by simp [ProjectError.kind]⟩
        | ok d =>
          have hreads : Reads fs path dir text d := ⟨howns, htext, hparse⟩
          cases hp : patternsOf d with
          | none => exact .inr ⟨dir, text, d, hreads, by simp [Ready, hp]⟩
          | some patterns =>
            cases hx : r.expand fs dir patterns with
            | error cause => exact .inl ⟨_, .badPatterns hreads hp hx, by simp [ProjectError.kind]⟩
            | ok files =>
              by_cases hc : (d.expanded patterns files).canonical = text
              · exact .inr ⟨dir, text, d, hreads, by simp [Ready, hp, hx, hc]⟩
              · cases hlong : (dir.child temporaryName).route.isTooLong with
                | true =>
                  exact .inl ⟨_, .unwritable hreads hp hx hc hlong, by simp [ProjectError.kind]⟩
                | false => exact .inr ⟨dir, text, d, hreads, by simp [Ready, hp, hx, hlong]⟩

theorem optionsError?_of_fails (h : Fails r fs path e) (he : e.kind = .options) :
    ∃ dir text d cause, Reads fs path dir text d ∧ Ready r fs dir text d ∧
      optionsError? d.compilerOptions = some cause ∧
        e = .badOptions (dir.child fileName).written cause := by
  cases h with
  | offence h hr ho =>
    exact ⟨_, _, _, _, h, hr, optionsError?_eq_some.mpr (.inl ⟨_, ho, rfl⟩), rfl⟩
  | outUnsupported h hr hc hout =>
    exact ⟨_, _, _, _, h, hr, optionsError?_eq_some.mpr (.inr ⟨hc, hout, rfl⟩), rfl⟩
  | _ => simp [ProjectError.kind] at he

theorem fails_of_optionsError? {cause : OptionsError} (h : Reads fs path dir text d)
    (hr : Ready r fs dir text d) (hcause : optionsError? d.compilerOptions = some cause) :
    Fails r fs path (.badOptions (dir.child fileName).written cause) := by
  rcases optionsError?_eq_some.mp hcause with ⟨o, ho, rfl⟩ | ⟨hc, hout, rfl⟩
  · exact .offence h hr ho
  · exact .outUnsupported h hr hc hout

section

variable (hfree : NoTemporary fs path)
include hfree

theorem exists_leaves (h : Reads fs path dir text d) (hr : Ready r fs dir text d) :
    ∃ D, fs.resolve? dir.route = some D ∧
      (∀ cause, optionsError? d.compilerOptions = some cause →
        (r.load fs path).1 = .error (.badOptions (dir.child fileName).written cause)) ∧
      (optionsError? d.compilerOptions = none → ∃ l, (r.load fs path).1 = .ok l) ∧
      Leaves r fs dir D text d (r.load fs path).2 := by
  obtain ⟨_, D, hD, _⟩ := h.owns.exists_place
  exact ⟨D, hD, load_of_ready h hD (hfree dir D h.owns hD) hr⟩

/-- A run ends in an error exactly if it fails so. -/
theorem load_eq_error_iff : (r.load fs path).1 = .error e ↔ Fails r fs path e := by
  constructor
  · intro hrun
    rcases fails_or_ready r fs path with ⟨e', hfails, hkind⟩ | ⟨dir, text, d, h, hr⟩
    · rw [load_of_fails hfails hkind] at hrun
      exact Except.error.inj hrun ▸ hfails
    · obtain ⟨D, hD, hbad, hgood, _⟩ := exists_leaves hfree h hr
      cases hopt : optionsError? d.compilerOptions with
      | none =>
        obtain ⟨l, hl⟩ := hgood hopt
        simp [hl] at hrun
      | some cause =>
        rw [hbad cause hopt] at hrun
        exact Except.error.inj hrun ▸ fails_of_optionsError? h hr hopt
  · intro hfails
    by_cases hkind : e.kind = .options
    · obtain ⟨dir, text, d, cause, h, hr, hcause, rfl⟩ := optionsError?_of_fails hfails hkind
      obtain ⟨D, hD, hbad, _⟩ := exists_leaves hfree h hr
      exact hbad cause hcause
    · rw [load_of_fails hfails hkind]

/-- It succeeds exactly if nothing fails. -/
theorem load_eq_ok_iff : (∃ l, (r.load fs path).1 = .ok l) ↔ ∀ e, ¬ Fails r fs path e := by
  constructor
  · rintro ⟨l, hl⟩ e hfails
    simp [(load_eq_error_iff hfree).mpr hfails] at hl
  · intro hno
    cases hrun : (r.load fs path).1 with
    | error e => exact absurd ((load_eq_error_iff hfree).mp hrun) (hno e)
    | ok l => exact ⟨l, rfl⟩

end

/-- **The outcome of a run and what it leaves.**  Where the name of the temporary file is free, a run
ends in an error exactly if it fails so, and succeeds exactly if nothing fails.  A failure in front of
the options changes nothing; a run that gets to the options leaves the canonical text behind. -/
theorem load_outcome (hfree : NoTemporary fs path) :
    (∀ e, (r.load fs path).1 = .error e ↔ Fails r fs path e) ∧
    ((∃ l, (r.load fs path).1 = .ok l) ↔ ∀ e, ¬ Fails r fs path e) ∧
    (∀ e, Fails r fs path e → e.kind ≠ .options → (r.load fs path).2 = fs) ∧
    ((∀ e, Fails r fs path e → e.kind = .options) → ∃ dir D text d, Reads fs path dir text d ∧
      fs.resolve? dir.route = some D ∧ Leaves r fs dir D text d (r.load fs path).2) := by
  refine ⟨fun e => load_eq_error_iff hfree, load_eq_ok_iff hfree, ?_, ?_⟩
  · intro e hfails hkind
    rw [load_of_fails hfails hkind]
  · intro honly
    rcases fails_or_ready r fs path with ⟨e, hfails, hkind⟩ | ⟨dir, text, d, h, hr⟩
    · exact absurd (honly e hfails) hkind
    · obtain ⟨D, hD, _, _, hleaves⟩ := exists_leaves hfree h hr
      exact ⟨dir, D, text, d, h, hD, hleaves⟩

end

/-- A tree with a descriptor whose options are refused after its pattern has been expanded. -/
def outTree : FileSystem where
  entries := [
    (["a.ts"], .file (.text "")),
    (["tsconfig.json"],
      .file (.text "\x7b\"filesGlob\": [\"a.ts\"], \"compilerOptions\": \x7b\"out\": \"b.js\"\x7d\x7d"))]
  workingDirectory := []
  isPlain := isPlain_nil

theorem owns_outTree : Owns outTree "." Path.root :=
  ⟨by decide +kernel, by unfold HasDescriptor; decide +kernel, [], [], by decide +kernel, by simp⟩

/-- The failure that a run ends in. -/
def failure? {α : Type} : Except ProjectError α → Option ProjectError
  | .error e => some e
  | .ok _ => none

theorem eq_error_of_failure? {α : Type} {result : Except ProjectError α} {e : ProjectError}
    (h : failure? result = some e) : result = .error e := by
  cases result with
  | error e' => rw [Option.some.inj h]
  | ok x => simp [failure?] at h

theorem load_outcome_outTree : NoTemporary outTree "." ∧
    Fails .standard outTree "." (.badOptions "/tsconfig.json" .outUnsupported) ∧
    ¬ Fails .standard outTree "." (.noSuchPath ".") ∧ (standard.load outTree ".").2 ≠ outTree := by
  have hfree : NoTemporary outTree "." :=
    noTemporary_of_owns owns_outTree (by decide +kernel : _ = some []) (by decide +kernel)
  obtain ⟨herror, _⟩ := load_outcome (r := .standard) hfree
  have hrun : (standard.load outTree ".").1 =
      .error (.badOptions "/tsconfig.json" .outUnsupported) :=
    eq_error_of_failure? (by decide +kernel)
  refine ⟨hfree, (herror _).mp hrun, fun hno => ?_, by decide +kernel⟩
  rw [(herror _).mpr hno] at hrun
  simp at hrun

/-! ## 4. Two trees in which a descriptor is not written -/

/-- A tree with a descriptor, and a link that leads to where it lies. -/
def turnedProject : FileSystem where
  entries := [([longName], .link "."), ([.ofText fileName], .file (.text "\x7b\x7d"))]
  workingDirectory := []
  isPlain := isPlain_nil

theorem get?_turnedProject {name : WrittenPath} (h : name.size ≠ 203) :
    turnedProject.get? [name] =
      if fileName = name then some (.file (.text "\x7b\x7d")) else none := by
  have hne : [longName] ≠ [name] := by
    intro heq
    rw [List.cons.injEq] at heq
    exact h (heq.1 ▸ size_longName)
  rw [get?, if_neg (by simp), turnedProject, entryAt, if_neg hne, entryAt]
  simp [entryAt]

theorem resolve?_turnedProject : turnedProject.resolve? longPath.route = some [] := by
  refine resolve?_longPath_of_link ?_
  rw [get?, if_neg (by simp), turnedProject, entryAt, if_pos rfl]

theorem holdsFile_turnedProject :
    turnedProject.get? ([] ++ [.ofText fileName]) = some (.file (.text "\x7b\x7d")) := by
  rw [List.nil_append, get?_turnedProject (by decide), if_pos rfl]

/-- The path leads to the descriptor, though not to the temporary file. -/
theorem resolve?_turnedDescriptor :
    turnedProject.resolve? (longPath.child fileName).route = some [.ofText fileName] := by
  have hok : refusal? (longPath.child fileName).route = none := by
    refine refusal?_child rfl (resolve?_eq_some.mp resolve?_turnedProject).1 (by decide) ?_
    rw [Route.isTooLong, size_longPath_child]
    decide
  exact resolve?_child_file resolve?_turnedProject rfl hok (by decide) ⟨_, holdsFile_turnedProject⟩

theorem owns_turnedProject : Owns turnedProject longPath.written longPath := by
  have hroot : turnedProject.get? [] = some .directory := rfl
  have hdir : turnedProject.directoryOf longPath = longPath := by
    rw [directoryOf, if_pos (isDirectory_iff.mpr ⟨[], resolve?_turnedProject, hroot⟩)]
  have hexists : existing? turnedProject longPath.written = some longPath :=
    existing?_eq_some.mpr ⟨absolute_written _ isPlain_longPath,
      isEntry_iff.mpr ⟨[], _, resolve?_turnedProject, hroot⟩⟩
  refine owns_iff.mpr ⟨longPath, hexists, findDirectory_eq_ok.mpr ?_⟩
  rw [hdir]
  refine nearestWith?_self ?_
  rw [Path.append_parse isPlain_longPath (by decide)]
  exact isFile_iff.mpr ⟨_, resolve?_turnedDescriptor, _, holdsFile_turnedProject⟩

/-- The descriptor is read, and it is not its own canonical text. -/
theorem fails_turnedProject : Fails .standard turnedProject longPath.written
    (.unwritable (longPath.child temporaryName).written .nameTooLong) := by
  have hreads : readsWith "\x7b\x7d"
      (fun d => decide (patternsOf d = some Glob.defaultPatterns ∧ d.filesGlob = none ∧
        d.numbers = [])) = true := by decide +kernel
  obtain ⟨d, hparse, hp⟩ := exists_of_readsWith hreads
  obtain ⟨hpatterns, hglob, hnumbers⟩ := of_decide_eq_true hp
  have htext := readText_of_resolve? resolve?_turnedDescriptor holdsFile_turnedProject
  obtain ⟨files, hfiles⟩ := exists_files turnedProject longPath
  refine .unwritable ⟨owns_turnedProject, htext, hparse⟩ hpatterns hfiles ?_ ?_
  · -- The canonical text is read with patterns, the text that is there is not.
    intro hsame
    have hwf := (wellFormed_of_parse hparse).expanded Glob.defaultPatterns files
    have hback := parse_canonical hwf (by simp [numbers_expanded, hnumbers])
    rw [hsame, hparse] at hback
    have hpart := congrArg filesGlob (Except.ok.inj hback)
    simp [hglob, expanded] at hpart
  · rw [Route.isTooLong, size_longPath_child]
    decide

/-- The text of a descriptor that names one pattern and the file that it selects. -/
def canonicalText : String :=
  "\x7b\n    \"filesGlob\": [\n        \"a.ts\"\n    ],\n    \"compilerOptions\": \x7b\x7d,\n" ++
    "    \"files\": [\n        \"./a.ts\"\n    ]\n\x7d"

/-- A tree whose descriptor is a link to this text. -/
def canonicalTree : FileSystem where
  entries := [
    (["a.ts"], .file (.text "")),
    (["real.json"], .file (.text canonicalText)),
    (["tsconfig.json"], .link "real.json")]
  workingDirectory := []
  isPlain := isPlain_nil

theorem owns_canonicalTree : Owns canonicalTree "." Path.root :=
  ⟨by decide +kernel, by unfold HasDescriptor; decide +kernel, [], [], by decide +kernel, by simp⟩

/-- A path of a temporary file that is too long stops a run, and a link that leads to the canonical text
stays a link. -/
theorem load_outcome_unwritten :
    (NoTemporary turnedProject longPath.written ∧
      (standard.load turnedProject longPath.written).1 =
        .error (.unwritable (longPath.child temporaryName).written .nameTooLong)) ∧
    (NoTemporary canonicalTree "." ∧ (standard.load canonicalTree ".").1.isOk = true ∧
      ∀ c, (standard.load canonicalTree ".").2.get? ([] ++ [.ofText fileName]) ≠ some (.file c)) := by
  have hfree : turnedProject.get? ([] ++ [temporaryName]) = none := by
    rw [List.nil_append, get?_turnedProject (by decide), if_neg (by decide)]
  have hlink : (standard.load canonicalTree ".").2.get? ([] ++ [.ofText fileName]) =
      some (.link "real.json") := by decide +kernel
  refine ⟨⟨noTemporary_of_owns owns_turnedProject resolve?_turnedProject hfree, ?_⟩,
    noTemporary_of_owns owns_canonicalTree (by decide +kernel : _ = some []) (by decide +kernel),
    by decide +kernel, fun c => by rw [hlink]; simp⟩
  rw [load_of_fails fails_turnedProject (by simp [ProjectError.kind])]

end Tsconfig.Loader
