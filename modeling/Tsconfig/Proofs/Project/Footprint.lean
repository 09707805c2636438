/-
# What the runs touch

A run for a path writes nothing but the descriptor of the directory that owns the path, so it touches
what writing that descriptor touches (`touches_of_load`).  Creating a project writes the descriptor of
the directory that the path designates, and then is a run for the path.

As a rule this run finds the new descriptor, in the same directory (`owner_savedIn`).  If the temporary
file had a link for an entry, then that link is the new descriptor, and the run may not find it and go
on in a directory above; and if the descriptor was a link to a directory that is reached on another way
only, the path may have lost its place.  Then the run touches what it does there (`Strays`).
-/
import Tsconfig.Proofs.Descriptor.Footprint
import Tsconfig.Proofs.Project.Stages

namespace Tsconfig.Loader

open Descriptor FileSystem

/-! ## 1. A run -/

section

variable {r : Loader} {fs : FileSystem} {path : WrittenPath} {text : String} {dir : Path} {d : Descriptor}
  {loc : Location}

theorem expandFiles_snd (r : Loader) (fs : FileSystem) (dir : Path) (text : String) (d : Descriptor) :
    (r.expandFiles fs dir text d).2 = fs ∨ ∃ written,
      (r.expandFiles fs dir text d).2 = (replaceFile fs (dir.child fileName).written written).2 := by
  cases hg : d.filesGlob with
  | none => exact .inl (by rw [expandFiles_of_none hg])
  | some patterns =>
    cases hx : r.expand fs dir patterns with
    | error cause => exact .inl (by simp only [expandFiles, hg, hx])
    | ok files =>
      rw [expandFiles_of_some hg hx]
      split
      · exact .inl rfl
      · refine .inr ⟨({ d with files := some files } : Descriptor).canonical, ?_⟩
        cases hsave : replaceFile fs (dir.child fileName).written
          ({ d with files := some files } : Descriptor).canonical with
        | mk res fs₁ => cases res <;> rfl

theorem resolveIn_snd (r : Loader) (fs : FileSystem) (dir : Path) :
    (r.resolveIn fs dir).2 = fs ∨ ∃ written,
      (r.resolveIn fs dir).2 = (replaceFile fs (dir.child fileName).written written).2 := by
  cases hread : Descriptor.read fs (dir.child fileName).written with
  | error e => exact .inl (by simp only [resolveIn, hread])
  | ok p =>
    obtain ⟨text, d⟩ := p
    have hsnd := expandFiles_snd r fs dir text (withDefaultPatterns d)
    have hsame : (r.resolveIn fs dir).2 =
        (r.expandFiles fs dir text (withDefaultPatterns d)).2 := by
      simp only [resolveIn, hread]
      cases hx : r.expandFiles fs dir text (withDefaultPatterns d) with
      | mk res fs₁ =>
        cases res with
        | error e => rfl
        | ok d' => cases hopt : optionsError? d'.compilerOptions <;> simp only [hopt]
    rwa [hsame]

/-- **A run does nothing but write the descriptor of the directory that owns the path**, if it does that. -/
theorem load_snd (r : Loader) (fs : FileSystem) (path : WrittenPath) :
    (r.load fs path).2 = fs ∨ ∃ dir written, Owns fs path dir ∧
      (r.load fs path).2 = (replaceFile fs (dir.child fileName).written written).2 := by
  unfold load
  cases hp : existing? fs path with
  | none => exact .inl rfl
  | some p =>
    cases hfind : findDirectory fs p with
    | error e => exact .inl (by simp only [hfind])
    | ok dir =>
      simp only [hfind]
      exact (resolveIn_snd r fs dir).imp_right fun ⟨written, hwritten⟩ =>
        ⟨dir, written, owns_iff.mpr ⟨p, hp, hfind⟩, hwritten⟩

/-- So it changes only what this touches. -/
theorem touches_of_load (h : (r.load fs path).2.get? loc ≠ fs.get? loc) :
    ∃ dir D, Owns fs path dir ∧ fs.resolve? dir.route = some D ∧ Touches fs dir D loc := by
  rcases load_snd r fs path with hsame | ⟨dir, written, howns, hwritten⟩
  · rw [hsame] at h
    exact absurd rfl h
  · obtain ⟨_, D, hD, hdir, _⟩ := howns.exists_place
    rw [hwritten] at h
    exact ⟨dir, D, howns, hD, touches_of_replaceFile howns.isPlain hD hdir h⟩

/-- Where there is a descriptor in a directory, and no temporary file, a run takes none away. -/
theorem holdsFile_load {D : Location} (hfile : fs.HoldsFile (D ++ [.ofText fileName]))
    (hfree : fs.get? (D ++ [temporaryName]) = none) :
    (r.load fs path).2.HoldsFile (D ++ [.ofText fileName]) := by
  rcases load_snd r fs path with hsame | ⟨dir, written, howns, hwritten⟩
  · rwa [hsame]
  · obtain ⟨_, D', hD', hdir', _⟩ := howns.exists_place
    rw [hwritten]
    refine holdsFile_replaceFile howns.isPlain hD' hdir' hfile (fun heq => ?_) fun heq => ?_
    · obtain ⟨rfl, _⟩ := List.append_inj' heq rfl
      exact temporaryName_ne_fileName D heq.symm
    · obtain ⟨rfl, _⟩ := List.append_inj' heq rfl
      exact hfree

end

/-! ## 2. The run behind a creation -/

section

variable {r : Loader} {fs : FileSystem} {path : WrittenPath} {text : String} {p dir : Path} {D loc : Location}
  {d : Descriptor} {options : Option (Fields Json)}

/-- A descriptor that has been saved, with no link in the way. -/
theorem eq_savedIn_of_save {fs' : FileSystem} (hplain : dir.IsPlain)
    (hD : fs.resolve? dir.route = some D) (hdir : fs.get? D = some .directory)
    (hlink : ∀ target, fs.get? (D ++ [temporaryName]) ≠ some (.link target))
    (hleads : fs.LeadsToFile D fileName)
    (h : Descriptor.save fs (dir.child fileName).written d = (.ok (), fs')) :
    fs.Spare (D ++ [temporaryName]) ∧ (dir.child temporaryName).route.isTooLong = false ∧
      fs' = savedIn fs D d.canonical := by
  have hspot := hleads.not_directory hdir (by decide)
  unfold Descriptor.save at h
  rcases replaceFile_cases hplain hD hdir hlink hspot with ⟨p, cause, hrefused⟩ | ⟨hspare, hlong, hsaved⟩
  · rw [hrefused] at h
    simp at h
  · rw [hsaved] at h
    exact ⟨hspare, hlong, (Prod.mk.inj h).2.symm⟩

variable (hplain : p.IsPlain) (hD : fs.resolve? (fs.directoryOf p).route = some D)
  (hdir : fs.get? D = some .directory) (hspare : fs.Spare (D ++ [temporaryName]))
  (hleads : fs.LeadsToFile D fileName)
  (hlong : ((fs.directoryOf p).child temporaryName).route.isTooLong = false)
include hplain hD hdir hspare hleads hlong

/-- **The run for a path whose directory has been given a descriptor finds it**, if it finds any. -/
theorem owner_savedIn (h : Owns (savedIn fs D text) p.written dir) :
    dir = fs.directoryOf p ∧ (savedIn fs D text).resolve? dir.route = some D := by
  have hspot := hleads.not_directory hdir (by decide)
  have hroute {r : Route} {e : Location} := @directory_savedIn fs D text hspare hleads hspot r e
  obtain ⟨hD', hdir'⟩ := hroute.mpr ⟨hD, hdir⟩
  have hsame : (savedIn fs D text).directoryOf p = fs.directoryOf p := by
    have hiff : (savedIn fs D text).isDirectory p.route = fs.isDirectory p.route := by
      rw [Bool.eq_iff_iff, isDirectory_iff, isDirectory_iff]
      exact exists_congr fun _ => hroute
    rw [directoryOf, directoryOf, hiff]
  obtain ⟨p', hp', hfind⟩ := owns_iff.mp h
  have hp : p' = p := by
    rw [← (existing?_eq_some.mp hp').1]
    exact absolute_written _ hplain
  have hdirPlain := isPlain_directoryOf fs hplain
  have hok := refusal?_fileName hdirPlain.rooted (resolve?_eq_some.mp hD).1 hlong
  have hfile : (savedIn fs D text).HoldsFile (D ++ [.ofText fileName]) :=
    ⟨.text text, by rw [get?_savedIn (by simp), if_neg (temporaryName_ne_fileName D).symm, if_pos rfl]⟩
  have hnearest : findDirectory (savedIn fs D text) p = .ok (fs.directoryOf p) := by
    rw [findDirectory_eq_ok, hsame]
    refine nearestWith?_self ?_
    rw [Path.append_parse hdirPlain (by decide)]
    exact isFile_iff.mpr ⟨_, resolve?_child_file hD' hdir' hok (by decide) hfile, hfile⟩
  rw [hp, hnearest] at hfind
  obtain rfl := Except.ok.inj hfind
  exact ⟨rfl, hD'⟩

/-- There is no temporary file any more, so the run changes nothing but the descriptor. -/
theorem eq_of_load_savedIn
    (h : (r.load (savedIn fs D text) p.written).2.get? loc ≠ (savedIn fs D text).get? loc) :
    loc = D ++ [.ofText fileName] := by
  obtain ⟨dir, D', howns, hD', htouch⟩ := touches_of_load h
  obtain ⟨rfl, hplace⟩ := owner_savedIn hplain hD hdir hspare hleads hlong howns
  obtain rfl : D' = D := Option.some.inj (hD'.symm.trans hplace)
  exact htouch.eq_of_none (by rw [get?_savedIn (by simp), if_pos rfl])

end

/-! ## 3. A creation -/

/-- The directory that a path designates. -/
def targetOf (fs : FileSystem) (path : WrittenPath) : Path := fs.directoryOf (fs.absolute path)

/-- The file system once the descriptor of a new project has been written, or could not be. -/
def created (fs : FileSystem) (path : WrittenPath) (options : Option (Fields Json)) : FileSystem :=
  (Descriptor.save fs ((targetOf fs path).child fileName).written (newDescriptor options)).2

/-- A creation may go on in another directory than its own: the temporary file had a link for an entry,
or the descriptor was a link to a directory.  What it touches there. -/
structure Strays (fs : FileSystem) (path : WrittenPath) (D : Location) (options : Option (Fields Json))
    (loc : Location) : Prop where
  cause : (∃ target, fs.get? (D ++ [temporaryName]) = some (.link target)) ∨
    ¬ fs.LeadsToFile D fileName
  touched : ∃ dir' D', Owns (created fs path options) (fs.absolute path).written dir' ∧
    (created fs path options).resolve? dir'.route = some D' ∧
      Touches (created fs path options) dir' D' loc

section

variable {r : Loader} {fs fs' : FileSystem} {path : WrittenPath} {D loc : Location}
  {options : Option (Fields Json)} {e : ProjectError}

/-- Nothing happens without an entry, or where there is a descriptor. -/
theorem create_of_no_entry (r : Loader) (options : Option (Fields Json))
    (h : fs.isEntry (fs.absolute path).route = false) :
    r.create fs path options = (.error (.nothingThere path), fs) := by
  simp only [create, existing?_eq_none.mpr h]

theorem create_of_descriptor (r : Loader) (options : Option (Fields Json))
    (h : fs.isEntry (fs.absolute path).route = true)
    (hold : fs.isEntry ((targetOf fs path).child fileName).route = true) :
    r.create fs path options =
      (.error (.descriptorExists ((targetOf fs path).child fileName).written), fs) := by
  unfold targetOf at hold ⊢
  simp only [create, existing?_of_isEntry h, hold, if_true]

section

variable (h : fs.isEntry (fs.absolute path).route = true)
  (hnew : fs.isEntry ((targetOf fs path).child fileName).route = false)
include h hnew

theorem create_of_refused (hsave : Descriptor.save fs ((targetOf fs path).child fileName).written
      (newDescriptor options) = (.error e, fs')) : r.create fs path options = (.error e, fs') := by
  unfold targetOf at hnew hsave
  simp only [create, existing?_of_isEntry h, hnew, Bool.false_eq_true, if_false, hsave]

/-- Behind a new descriptor the creation is a run for the path. -/
theorem create_of_saved (hsave : Descriptor.save fs ((targetOf fs path).child fileName).written
      (newDescriptor options) = (.ok (), fs')) :
    r.create fs path options = r.load fs' (fs.absolute path).written := by
  unfold targetOf at hnew hsave
  simp only [create, existing?_of_isEntry h, hnew, Bool.false_eq_true, if_false, hsave]

end

/-- The directory of an entry is a place in the tree. -/
theorem exists_target (h : fs.isEntry (fs.absolute path).route = true) :
    (targetOf fs path).IsPlain ∧ ∃ D, fs.resolve? (targetOf fs path).route = some D ∧
      fs.get? D = some .directory :=
  ⟨isPlain_directoryOf fs (isPlain_absolute fs path), exists_directoryOf (existing?_of_isEntry h)⟩

/-- **A creation changes only what writing the descriptor touches**, in the directory that the path
designates, unless it strays. -/
theorem touches_of_create (h : (r.create fs path options).2.get? loc ≠ fs.get? loc) :
    fs.isEntry (fs.absolute path).route = true ∧ ∃ D, fs.resolve? (targetOf fs path).route = some D ∧
      (Touches fs (targetOf fs path) D loc ∨ Strays fs path D options loc) := by
  cases hentry : fs.isEntry (fs.absolute path).route with
  | false =>
    rw [create_of_no_entry r options hentry] at h
    exact absurd rfl h
  | true =>
    obtain ⟨hplain, D, hD, hdir⟩ := exists_target hentry
    refine ⟨rfl, D, hD, ?_⟩
    cases hnew : fs.isEntry ((targetOf fs path).child fileName).route with
    | true =>
      rw [create_of_descriptor r options hentry hnew] at h
      exact absurd rfl h
    | false =>
      cases hsave : Descriptor.save fs ((targetOf fs path).child fileName).written
        (newDescriptor options) with
      | mk res fs₁ =>
        have hcreated : created fs path options = fs₁ := by rw [created, hsave]
        have htouched (hne : fs₁.get? loc ≠ fs.get? loc) : Touches fs (targetOf fs path) D loc := by
          rw [← hcreated] at hne
          exact touches_of_replaceFile hplain hD hdir hne
        cases res with
        | error e =>
          rw [create_of_refused hentry hnew hsave] at h
          exact .inl (htouched h)
        | ok _ =>
          rw [create_of_saved hentry hnew hsave] at h
          by_cases hne : fs₁.get? loc = fs.get? loc
          · -- The location is changed by the run behind the creation.
            rw [← hne] at h
            by_cases hcause : (∃ target, fs.get? (D ++ [temporaryName]) = some (.link target)) ∨
                ¬ fs.LeadsToFile D fileName
            · rw [← hcreated] at h
              exact .inr ⟨hcause, touches_of_load h⟩
            · obtain ⟨hlink, hleads⟩ := not_or.mp hcause
              obtain ⟨hspare, hlong, rfl⟩ := eq_savedIn_of_save hplain hD hdir
                (fun target hx => hlink ⟨target, hx⟩) (Classical.not_not.mp hleads) hsave
              rw [eq_of_load_savedIn (isPlain_absolute fs path) hD hdir hspare
                (Classical.not_not.mp hleads) hlong h]
              exact .inl .descriptor
          · exact .inl (htouched hne)

/-- **What the runs touch**, in every tree and whatever comes of them.  A run changes only what writing
the descriptor touches, in the directory that owns the path.  So does a creation in the directory that
the path designates, unless it strays. -/
theorem runs_touch (r : Loader) (fs : FileSystem) (path : WrittenPath) :
    (∀ loc, (r.load fs path).2.get? loc ≠ fs.get? loc →
      ∃ dir D, Owns fs path dir ∧ fs.resolve? dir.route = some D ∧ Touches fs dir D loc) ∧
    (∀ options loc, (r.create fs path options).2.get? loc ≠ fs.get? loc →
      fs.isEntry (fs.absolute path).route = true ∧
        ∃ D, fs.resolve? (targetOf fs path).route = some D ∧
          (Touches fs (targetOf fs path) D loc ∨ Strays fs path D options loc)) :=
  ⟨fun _ h => touches_of_load h, fun _ _ h => touches_of_create h⟩

end

/-- A tree with a descriptor and something under the name of the temporary file. -/
def staleTree (stale : Entry) : FileSystem where
  entries := [
    (["notes.txt"], .file (.text "")),
    (["sub"], .directory),
    (["sub", "tsconfig.json.tmp"], stale),
    (["tsconfig.json"], .file (.text "\x7b\x7d")),
    (["tsconfig.json.tmp"], stale)]
  workingDirectory := []
  isPlain := isPlain_nil

/-- The temporary file is gone after a run, and that is in the account. -/
theorem runs_touch_stale :
    (standard.load (staleTree (.file (.text ""))) ".").2.get? ["tsconfig.json.tmp"] ≠
        (staleTree (.file (.text ""))).get? ["tsconfig.json.tmp"] ∧
      ∃ dir D, Owns (staleTree (.file (.text ""))) "." dir ∧
        (staleTree (.file (.text ""))).resolve? dir.route = some D ∧
          Touches (staleTree (.file (.text ""))) dir D ["tsconfig.json.tmp"] := by
  have hgone : (standard.load (staleTree (.file (.text ""))) ".").2.get? ["tsconfig.json.tmp"] ≠
      (staleTree (.file (.text ""))).get? ["tsconfig.json.tmp"] := by decide +kernel
  exact ⟨hgone, (runs_touch .standard (staleTree (.file (.text ""))) ".").1 _ hgone⟩

/-- A tree in which a path leads to a directory by way of a link that has the name of a descriptor in this
directory.  Behind the path the link counts as none, because it is followed once too often. -/
def turningTree : FileSystem where
  entries := [
    (["a"], .directory),
    (["a", "tsconfig.json"],
      .file (.text "\x7b\"filesGlob\": [], \"compilerOptions\": \x7b\"out\": \"x.js\"\x7d\x7d")),
    (["a", "way"], .link "/b/tsconfig.json"),
    (["b"], .directory),
    (["b", "l"], .link "."),
    (["b", "tsconfig.json"], .link (String.join (List.replicate 20 "l/") ++ "l"))]
  workingDirectory := []
  isPlain := isPlain_nil

/-- A run removes the temporary file that it has found, and writes to where a link of that name leads.
A creation that takes such a link for its descriptor, or turns a link on the way to its directory into
one, changes the descriptor of another directory. -/
theorem runs_touch_temporary :
    (standard.load (staleTree (.file (.text ""))) ".").2.get? ["tsconfig.json.tmp"] = none ∧
    (standard.load (staleTree (.link "notes.txt")) ".").2.get? ["notes.txt"] ≠
      (staleTree (.link "notes.txt")).get? ["notes.txt"] ∧
    (standard.create (staleTree (.link "tsconfig.json")) "sub" none).2.get? ["tsconfig.json"] ≠
      (staleTree (.link "tsconfig.json")).get? ["tsconfig.json"] ∧
    (standard.create turningTree "a/way" none).2.get? ["a", "tsconfig.json"] ≠
      turningTree.get? ["a", "tsconfig.json"] := by
  decide +kernel

end Tsconfig.Loader
