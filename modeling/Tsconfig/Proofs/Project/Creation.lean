/-
# Creating a project

A project that is created for a path is the project of the path: its descriptor is the one in the
directory that the path designates, and its options are the options that were given, in their order, or
the defaults (`create_eq_ok`).  The directory must have neither a descriptor nor a temporary file.

The one thing in the tree that may prevent it is its depth: the path of the temporary file may be longer
than the system takes, and then nothing is created (`create_refused`).
-/
import Tsconfig.Proofs.FileSystem.LongPath
import Tsconfig.Proofs.Options.Encodings
import Tsconfig.Proofs.Project.Loading
import Tsconfig.Proofs.Project.Location

namespace Tsconfig.Loader

open Descriptor FileSystem

/-! ## 1. The directory of a path -/

section

variable {fs : FileSystem} {path : WrittenPath} {p : Path}

/-- **A path that names an entry designates a directory.** -/
theorem exists_directoryOf (hp : existing? fs path = some p) :
    ∃ D, fs.resolve? (fs.directoryOf p).route = some D ∧ fs.get? D = some .directory := by
  have hplain := isPlain_existing? hp
  have hentry := (existing?_eq_some.mp hp).2
  unfold directoryOf
  split
  · next hdir => exact isDirectory_iff.mp hdir
  · next hnot =>
    obtain ⟨e, x, he, hx⟩ := isEntry_iff.mp hentry
    have hne : p.names ≠ [] := by
      intro hnil
      have hreach := (resolve?_eq_some.mp he).2
      have hsteps : p.route.steps = [] := by simp [Path.route, hnil]
      rw [hsteps] at hreach
      cases hreach with
      | done _ _ _ _ =>
        have horigin : fs.origin p.route = [] := by simp [origin, Path.route, hplain.rooted]
        rw [horigin] at he
        exact hnot (isDirectory_iff.mpr ⟨[], he, by simp [get?]⟩)
    rw [← Path.parent_child hne] at he
    obtain ⟨D, _, hD, hget, _⟩ := resolve?_child hplain.parent.rooted he
    exact ⟨D, hD, hget⟩

/-- The text of the descriptor of a project, in slashes. -/
theorem descriptorPath_ofDirectory {dir : Path} (hdir : dir.IsPlain)
    (hback : .char '\\' ∉ dir.written.toList) (project : Project) :
    (LocatedProject.ofDirectory dir project).descriptorPath = (dir.child fileName).text := by
  have hparts : dir.parts = dir.asShown := Path.parts_of_not_mem (Path.not_mem_names hback)
  have hchild : dir.asShown.child fileName = (dir.child fileName).asShown := by
    simp [Path.child, Path.asShown]
  have hwritten := LocatedProject.descriptorPath_eq hdir project
  rw [hparts, hdir.isName.asShown.dropEmpty, hchild, Path.written_asShown] at hwritten
  exact (WrittenPath.ofText_inj.mp hwritten).symm

end

/-! ## 2. The new descriptor -/

section

variable {P : String → Prop} {m : Fields Json} {options : Option (Fields Json)}

theorem wellFormed_newDescriptor (h : Options.Internal P (options.getD Options.defaults)) :
    (newDescriptor options).WellFormed :=
  ⟨h.fieldsNest_encodeAccepted _, by simp [newDescriptor, Descriptor.empty],
    wellFormed_empty.extra, wellFormed_empty.unknown, wellFormed_empty.order,
    wellFormed_empty.extraOrder⟩

theorem readsBack_newDescriptor (h : Options.Internal P (options.getD Options.defaults)) :
    ∀ n ∈ (newDescriptor options).numbers, n.ReadsBack := by
  intro n hn
  simp only [Descriptor.numbers, newDescriptor, Descriptor.empty, Option.elim, Json.fieldNumbers,
    List.append_nil] at hn
  exact h.readsBack_encodeAccepted n hn

/-- The default patterns are patterns. -/
theorem exists_files (fs : FileSystem) (dir : Path) :
    ∃ files, standard.expand fs dir Glob.defaultPatterns = .ok files := by
  have hok : (Glob.rules Glob.defaultPatterns).isOk = true := by decide +kernel
  have hexpand : standard.expand fs dir Glob.defaultPatterns =
    Glob.expand fs dir Glob.defaultPatterns := rfl
  cases hrules : Glob.rules Glob.defaultPatterns with
  | error e => simp [hrules, Except.isOk, Except.toBool] at hok
  | ok rs =>
    rw [hexpand, Glob.expand, hrules]
    exact ⟨_, rfl⟩

end

/-! ## 3. The run -/

section

variable {fs : FileSystem} {path : WrittenPath} {p dir : Path} {D : Location}
  {options : Option (Fields Json)}

/-- A new descriptor takes the place of nothing. -/
theorem replaces_savedIn {text : String} (hnone : fs.get? (D ++ [.ofText fileName]) = none)
    (hfree : fs.get? (D ++ [temporaryName]) = none) :
    Replaces fs (savedIn fs D text) D fileName (.text text) :=
  ⟨replaced_savedIn hfree, leadsToFile_of_none hnone, by simp [hnone]⟩

variable (hplain : dir.IsPlain) (hD : fs.resolve? dir.route = some D)
  (hdir : fs.get? D = some .directory) (hnone : fs.get? (D ++ [.ofText fileName]) = none)
  (hfree : fs.get? (D ++ [temporaryName]) = none)
  (hlong : (dir.child temporaryName).route.isTooLong = false)
include hplain hD hdir hnone hfree hlong

/-- The directory in which a new descriptor has been saved has a project with its options. -/
theorem resolveIn_savedIn
    (hm : Options.Internal Options.IsPathText (options.getD Options.defaults)) :
    ∃ project fs', standard.resolveIn (savedIn fs D (newDescriptor options).canonical) dir =
      (.ok (.ofDirectory dir project), fs') ∧ fs'.HoldsFile (D ++ [.ofText fileName]) ∧
        project.compilerOptions = options.getD Options.defaults := by
  have hok := refusal?_fileName hplain.rooted (resolve?_eq_some.mp hD).1 hlong
  have hrep : Replaces fs (savedIn fs D (newDescriptor options).canonical) D fileName
      (.text (newDescriptor options).canonical) := replaces_savedIn hnone hfree
  obtain ⟨saved, hsaved⟩ : ∃ saved, saved = savedIn fs D (newDescriptor options).canonical :=
    ⟨_, rfl⟩
  rw [← hsaved] at hrep ⊢
  have hparse := parse_canonical (wellFormed_newDescriptor hm) (readsBack_newDescriptor hm)
  obtain ⟨back, hback⟩ : ∃ back,
      back = { newDescriptor options with keyOrder := (newDescriptor options).entries.keys } :=
    ⟨_, rfl⟩
  rw [← hback] at hparse
  have hread := read_savedIn hrep hplain hD hdir hok hparse
  have hpatterns : back.filesGlob = some Glob.defaultPatterns := by rw [hback]; rfl
  have hoptions : back.compilerOptions =
      Options.encodeAccepted (options.getD Options.defaults) := by rw [hback]; rfl
  obtain ⟨files, hfiles⟩ := exists_files saved dir
  -- The descriptor is written once more if its files are not those it was made with.
  obtain ⟨fs', hexpand, hfile⟩ : ∃ fs',
      standard.expandFiles saved dir (newDescriptor options).canonical
        (withDefaultPatterns back) = (.ok { back with files := some files }, fs') ∧
        fs'.HoldsFile (D ++ [.ofText fileName]) := by
    rw [withDefaultPatterns_of_isSome (by simp [hpatterns]), expandFiles_of_some hpatterns hfiles]
    split
    · exact ⟨saved, rfl, _, hrep.replaced.file⟩
    · obtain ⟨hD', hdir'⟩ := hrep.directory.mpr ⟨hD, hdir⟩
      have hfree' : saved.get? (D ++ [temporaryName]) = none := by
        rw [hrep.replaced.elsewhere _ (temporaryName_ne_fileName D), hfree]
      rw [replaceFile_child hplain hD' hdir' hfree' (by simp [hrep.replaced.file]) hlong]
      exact ⟨_, rfl, _, (replaced_savedIn hfree').file⟩
  have hopt : optionsError? ({ back with files := some files } : Descriptor).compilerOptions =
      none := by
    unfold optionsError?
    simp only [hoptions, hm.check_encodeAccepted, hm.contains_out_encodeAccepted,
      Bool.false_eq_true, if_false]
  refine ⟨_, fs', resolveIn_of_read hread hexpand hopt, hfile, ?_⟩
  simp only [projectOf, hoptions]
  exact hm.decode_encodeAccepted dir

end

/-- **Creating a project succeeds** where there is no descriptor, no temporary file and no path that is
too long.  The descriptor is the one of the directory, and the options are those that were given. -/
theorem create_eq_ok {fs : FileSystem} {path : WrittenPath} {p : Path} {D : Location}
    {options : Option (Fields Json)} (hp : existing? fs path = some p)
    (hD : fs.resolve? (fs.directoryOf p).route = some D)
    (hnone : fs.get? (D ++ [.ofText fileName]) = none) (hfree : fs.get? (D ++ [temporaryName]) = none)
    (hlong : ((fs.directoryOf p).child temporaryName).route.isTooLong = false)
    (hback : .char '\\' ∉ p.written.toList)
    (hm : Options.Internal Options.IsPathText (options.getD Options.defaults)) :
    ∃ l fs', standard.create fs path options = (.ok l, fs') ∧ fs'.HoldsFile (D ++ [.ofText fileName]) ∧
      l.descriptorPath = ((fs.directoryOf p).child fileName).text ∧
        l.project.compilerOptions = options.getD Options.defaults := by
  have hplain := isPlain_existing? hp
  have hdirPlain := isPlain_directoryOf fs hplain
  have hdir : fs.get? D = some .directory := by
    obtain ⟨D', hD', hget⟩ := exists_directoryOf hp
    obtain rfl : D = D' := Option.some.inj (hD.symm.trans hD')
    exact hget
  obtain ⟨project, fs', hin, hfile, hoptions⟩ :=
    resolveIn_savedIn hdirPlain hD hdir hnone hfree hlong hm
  have hrep : Replaces fs (savedIn fs D (newDescriptor options).canonical) D fileName
      (.text (newDescriptor options).canonical) := replaces_savedIn hnone hfree
  have habsent := isEntry_child_eq_false hdirPlain.rooted hD hnone
  have hsave : Descriptor.save fs ((fs.directoryOf p).child fileName).written (newDescriptor options) =
      (.ok (), savedIn fs D (newDescriptor options).canonical) :=
    replaceFile_child hdirPlain hD hdir hfree (by simp [hnone]) hlong
  refine ⟨_, fs', ?_, hfile, descriptorPath_ofDirectory hdirPlain ?_ project, hoptions⟩
  · unfold create
    simp only [hp, habsent, Bool.false_eq_true, if_false, hsave]
    rw [load_eq_ok]
    refine ⟨p, fs.directoryOf p, ?_, ?_, hin⟩
    · exact existing?_replaced hrep (existing?_written hp)
    · rw [findDirectory_eq_ok, hrep.directoryOf]
      refine nearestWith?_self ?_
      have hok := refusal?_fileName hdirPlain.rooted (resolve?_eq_some.mp hD).1 hlong
      obtain ⟨hD', hdir'⟩ := hrep.directory.mpr ⟨hD, hdir⟩
      rw [Path.append_parse hdirPlain (by decide)]
      exact isFile_iff.mpr ⟨_, resolve?_child_file hD' hdir' hok (by decide) ⟨_, hrep.replaced.file⟩,
        _, hrep.replaced.file⟩
  · exact Path.not_mem_written (by decide) fun name hname =>
      Path.not_mem_names hback name (names_directoryOf hname)

/-- **Options that a descriptor could have given come back from the project that is created with
them**, and without options the defaults do. -/
theorem create_decode {fs : FileSystem} {path : WrittenPath} {p : Path} {D : Location}
    (hp : existing? fs path = some p) (hD : fs.resolve? (fs.directoryOf p).route = some D)
    (hnone : fs.get? (D ++ [.ofText fileName]) = none) (hfree : fs.get? (D ++ [temporaryName]) = none)
    (hlong : ((fs.directoryOf p).child temporaryName).route.isTooLong = false)
    (hback : .char '\\' ∉ p.written.toList) :
    (∀ (raw : Fields Json) (d : WrittenPath), Options.check raw = none → "out" ∉ raw.keys →
      (∀ e ∈ raw, Options.Writable e.1 e.2) → d.toList.head? = some (.char '/') →
        .char '\\' ∉ d.toList →
        ∃ l fs', standard.create fs path (some (Options.decode raw (Path.ofText d))) =
            (.ok l, fs') ∧ fs'.HoldsFile (D ++ [.ofText fileName]) ∧
          l.descriptorPath = ((fs.directoryOf p).child fileName).text ∧
          l.project.compilerOptions = Options.decode raw (Path.ofText d)) ∧
      ∃ l fs', standard.create fs path none = (.ok l, fs') ∧ fs'.HoldsFile (D ++ [.ofText fileName]) ∧
        l.descriptorPath = ((fs.directoryOf p).child fileName).text ∧
        l.project.compilerOptions = Options.defaults := by
  constructor
  · intro raw d hcheck hout hw hd hslashes
    have hdir := Path.isPlain_ofText hd
    have hdback : .char '\\' ∉ (Path.ofText d).written.toList :=
      Path.not_mem_written (by decide)
        (Path.not_mem_names_resolve (p := Path.empty) (by simp [Path.empty]) hslashes)
    have hm := Options.internal_decode hcheck hout hw hdir hdback
    exact @create_eq_ok fs path p D (some _) hp hD hnone hfree hlong hback hm
  · exact @create_eq_ok fs path p D none hp hD hnone hfree hlong hback
      (Options.internal_defaults _)

/-- A tree with one source file. -/
def sourceTree : FileSystem where
  entries := [(["a.ts"], .file (.text ""))]
  workingDirectory := []
  isPlain := isPlain_nil

/-- Options under an older spelling, a current one and one that takes a number. -/
def givenOptions : Fields Json :=
  [("outdir", .string "built"), ("target", .string "es6"), ("codepage", .int 1200)]

theorem create_decode_givenOptions :
    ∃ l fs', standard.create sourceTree "a.ts"
        (some (Options.decode givenOptions (Path.ofText "/p"))) = (.ok l, fs') ∧
      l.descriptorPath = "/tsconfig.json" ∧
      l.project.compilerOptions = [("target", .int 2), ("module", .int 1),
        ("declaration", .bool false), ("noImplicitAny", .bool false), ("removeComments", .bool true),
        ("noLib", .bool false), ("outDir", .string "/p/built"), ("codepage", .int 1200)] := by
  have hw : ∀ e ∈ givenOptions, Options.Writable e.1 e.2 := by
    intro e he
    simp only [givenOptions, List.mem_cons, List.not_mem_nil, or_false] at he
    rcases he with rfl | rfl | rfl
    · refine ⟨by simp [Json.numbers], ?_⟩
      rintro s - hs
      obtain rfl := Json.string.inj hs
      decide
    · exact ⟨by simp [Json.numbers], fun s hs => absurd hs (by decide)⟩
    · refine ⟨?_, fun s hs => absurd hs (by decide)⟩
      intro n hn
      obtain rfl : n = .integer 1200 := by simpa [Json.numbers, Json.int] using hn
      decide +kernel
  obtain ⟨l, fs', hcreate, _, hpath, hoptions⟩ :=
    (@create_decode sourceTree "a.ts" ⟨true, ["a.ts"]⟩ [] (by decide +kernel) (by decide +kernel)
      (by decide +kernel) (by decide +kernel) (by decide +kernel) (by decide +kernel)).1
      givenOptions "/p" (by decide +kernel) (by decide) hw (by decide) (by decide)
  have htext : ((sourceTree.directoryOf ⟨true, ["a.ts"]⟩).child fileName).text = "/tsconfig.json" := by
    decide +kernel
  exact ⟨l, fs', hcreate, hpath.trans htext, hoptions.trans rfl⟩

/-! ## 4. A path that is too long -/

/-- **Where the path of the temporary file is too long nothing is created.** -/
theorem create_refused {fs : FileSystem} {path : WrittenPath} {p : Path} {D : Location}
    (hp : existing? fs path = some p) (hD : fs.resolve? (fs.directoryOf p).route = some D)
    (hnone : fs.get? (D ++ [.ofText fileName]) = none)
    (hlong : ((fs.directoryOf p).child temporaryName).route.isTooLong = true)
    (options : Option (Fields Json)) :
    standard.create fs path options =
      (.error (.unwritable ((fs.directoryOf p).child temporaryName).written .nameTooLong), fs) := by
  have hplain := isPlain_directoryOf fs (isPlain_existing? hp)
  have habsent := isEntry_child_eq_false hplain.rooted hD hnone
  have hsave : Descriptor.save fs ((fs.directoryOf p).child fileName).written (newDescriptor options) =
      (.error (.unwritable ((fs.directoryOf p).child temporaryName).written .nameTooLong), fs) :=
    replaceFile_tooLong hplain hD hlong
  unfold create
  simp only [hp, habsent, Bool.false_eq_true, if_false, hsave]

/-- A tree with one entry, a link that leads to where it lies. -/
def turnedTree : FileSystem where
  entries := [([longName], .link ".")]
  workingDirectory := []
  isPlain := isPlain_nil

theorem resolve?_longPath : turnedTree.resolve? longPath.route = some [] := by
  refine resolve?_longPath_of_link ?_
  rw [get?, if_neg (by simp), turnedTree, entryAt, if_pos rfl]

/-- In the root of the tree no project is created for the path, though nothing is there that has the
name of a descriptor or of its temporary file. -/
theorem create_longPath :
    existing? turnedTree longPath.written = some longPath ∧
      turnedTree.directoryOf longPath = longPath ∧
      turnedTree.resolve? longPath.route = some [] ∧
      turnedTree.get? ([] ++ [.ofText fileName]) = none ∧ turnedTree.get? ([] ++ [temporaryName]) = none ∧
      .char '\\' ∉ longPath.written.toList ∧
      ∀ options l fs', standard.create turnedTree longPath.written options ≠ (.ok l, fs') := by
  have hroot : turnedTree.get? [] = some .directory := rfl
  have hdir : turnedTree.directoryOf longPath = longPath := by
    rw [directoryOf, if_pos (isDirectory_iff.mpr ⟨[], resolve?_longPath, hroot⟩)]
  have hexists : existing? turnedTree longPath.written = some longPath :=
    existing?_eq_some.mpr ⟨absolute_written _ isPlain_longPath,
      isEntry_iff.mpr ⟨[], _, resolve?_longPath, hroot⟩⟩
  have hfree (name : WrittenPath) (hname : name.size ≠ 203) :
      turnedTree.get? ([] ++ [name]) = none := by
    have hne : [longName] ≠ [name] := by
      intro h
      rw [List.cons.injEq] at h
      exact hname (h.1 ▸ size_longName)
    rw [List.nil_append, get?, if_neg (by simp), turnedTree, entryAt, if_neg hne]
    rfl
  have hplace : turnedTree.resolve? (turnedTree.directoryOf longPath).route = some [] := by
    rw [hdir, resolve?_longPath]
  have hlong : ((turnedTree.directoryOf longPath).child temporaryName).route.isTooLong = true := by
    have hfront : longPath.front = longPath.written ++ "/" := if_neg (by simp [longPath])
    rw [hdir, Route.isTooLong, decide_eq_true_eq, Path.route,
      Path.written_child isPlain_longPath.rooted, hfront, WrittenPath.size_append,
      WrittenPath.size_append, size_longPath]
    decide
  have hno := create_refused hexists hplace (hfree fileName (by decide)) hlong
  refine ⟨hexists, hdir, resolve?_longPath, hfree _ (by decide), hfree _ (by decide), ?_, ?_⟩
  · exact Path.not_mem_written (by decide) fun _ hname => not_mem_longPath (by decide) hname
  · intro options l fs'
    rw [hno options]
    simp

/-! ## 5. A path that leaves a link -/

/-- A tree with a link into a directory, and a source file beside what the link leads to. -/
def detourTree : FileSystem where
  entries := [(["d"], .directory), (["d", "e"], .directory), (["d", "a.ts"], .file (.text "")),
    (["l"], .link "d/e")]
  workingDirectory := []
  isPlain := isPlain_nil

/-- The path goes through the link and leaves it by a double dot.  The system finds a file there, in a
directory where nothing has the name of a descriptor or of its temporary file.  But the double dot takes the
link away before anything is looked up, so nothing is found and no project is created.  And no project is
created for a path that leaves no room for the name of the temporary file. -/
theorem create_decode_detour :
    (detourTree.resolve? (Route.parse "/l/../a.ts") = some [.ofText "d", .ofText "a.ts"] ∧
      detourTree.get? ["d", fileName] = none ∧ detourTree.get? ["d", temporaryName] = none ∧
      standard.create detourTree "/l/../a.ts" none = (.error (.nothingThere "/l/../a.ts"), detourTree)) ∧
    existing? turnedTree longPath.written = some longPath ∧
      turnedTree.directoryOf longPath = longPath ∧
      turnedTree.resolve? longPath.route = some [] ∧
      turnedTree.get? ([] ++ [.ofText fileName]) = none ∧ turnedTree.get? ([] ++ [temporaryName]) = none ∧
      .char '\\' ∉ longPath.written.toList ∧
      ∀ options l fs', standard.create turnedTree longPath.written options ≠ (.ok l, fs') := by
  refine ⟨⟨by decide +kernel, by decide +kernel, by decide +kernel, ?_⟩, create_longPath⟩
  have hnone : existing? detourTree "/l/../a.ts" = none := by decide +kernel
  simp only [create, hnone]

end Tsconfig.Loader
