/-
# What saving a descriptor does

A descriptor is saved in a directory in which the name of the temporary file is free.  Then the
temporary file is made and takes the name of the descriptor, and what is left is the file system as it
was with a file in the place of the descriptor (`replaceFile_child`, `replaced_savedIn`).  If there was
a descriptor, no location has come or gone (`locations_savedIn`).

The only thing that can stop it is the system's limit on the length of the temporary file's path.
-/
import Tsconfig.Proofs.FileSystem.Change
import Tsconfig.Proofs.Path.Extension

namespace Tsconfig.Descriptor

open FileSystem

/-- A directory whose temporary file has no path that is too long takes a descriptor. -/
theorem refusal?_fileName {dir : Path} (h : dir.rooted = true) (hok : refusal? dir.route = none)
    (hlong : (dir.child temporaryName).route.isTooLong = false) :
    refusal? (dir.child fileName).route = none := by
  refine refusal?_child h hok (by decide) ?_
  have hshort : (WrittenPath.ofText fileName).size ≤ temporaryName.size := by decide
  simp only [Route.isTooLong, decide_eq_false_iff_not, Path.route, Path.written_child h,
    WrittenPath.size_append] at hlong ⊢
  omega

/-- A file system in which a descriptor has been saved in a directory. -/
def savedIn (fs : FileSystem) (D : Location) (text : String) : FileSystem :=
  ((fs.put (D ++ [temporaryName]) (.file (.text text))).put (D ++ [.ofText fileName])
    (.file (.text text))).erase (D ++ [temporaryName])

section

variable {fs : FileSystem} {dir : Path} {D : Location} {text : String}

theorem temporaryName_ne_fileName (D : Location) : D ++ [temporaryName] ≠ D ++ [.ofText fileName] := by
  intro h
  have : temporaryName = fileName := by simpa using h
  revert this
  decide

theorem get?_savedIn {loc : Location} (hloc : loc ≠ []) : (savedIn fs D text).get? loc =
    if loc = D ++ [temporaryName] then none
    else if loc = D ++ [.ofText fileName] then some (.file (.text text)) else fs.get? loc :=
  get?_moved (by simp) (by simp) hloc _ _

/-- **Saving puts a file in the place of the descriptor and changes nothing else.** -/
theorem replaced_savedIn (hfree : fs.get? (D ++ [temporaryName]) = none) :
    Replaced fs (savedIn fs D text) (D ++ [.ofText fileName]) (.text text) :=
  replaced_moved (by simp) (by simp) (temporaryName_ne_fileName D) hfree _

/-- Saving where a descriptor was leaves all locations where they were. -/
theorem locations_savedIn (hfree : fs.get? (D ++ [temporaryName]) = none)
    (hold : fs.get? (D ++ [.ofText fileName]) ≠ none) :
    (savedIn fs D text).entries.map Prod.fst = fs.entries.map Prod.fst := by
  have hfree' : D ++ [temporaryName] ∉ fs.entries.map Prod.fst := (get?_eq_none (by simp)).mp hfree
  have hold' : D ++ [.ofText fileName] ∈ fs.entries.map Prod.fst := by
    by_cases hmem : D ++ [.ofText fileName] ∈ fs.entries.map Prod.fst
    · exact hmem
    · exact absurd ((get?_eq_none (by simp)).mpr hmem) hold
  have hput : (setEntry (setEntry fs.entries (D ++ [temporaryName]) (.file (.text text)))
      (D ++ [.ofText fileName]) (.file (.text text))).map Prod.fst =
        fs.entries.map Prod.fst ++ [D ++ [temporaryName]] := by
    rw [map_fst_setEntry, map_fst_setEntry, if_neg hfree']
    exact if_pos (List.mem_append_left _ hold')
  have hfilter (es : List (Location × Entry)) :
      (es.filter fun e => e.1 ≠ D ++ [temporaryName]).map Prod.fst =
        (es.map Prod.fst).filter (· ≠ D ++ [temporaryName]) := by
    rw [List.filter_map]
    rfl
  have hkeep : (fs.entries.map Prod.fst).filter (· ≠ D ++ [temporaryName]) =
      fs.entries.map Prod.fst := by
    rw [List.filter_eq_self]
    intro loc hmem
    simp only [decide_eq_true_eq]
    rintro rfl
    exact hfree' hmem
  simp only [savedIn, erase, put]
  rw [hfilter, hput, List.filter_append, hkeep]
  simp

theorem parse_temporaryPath (hplain : dir.IsPlain) :
    Route.parse (temporaryPath (dir.child fileName).written) = (dir.child temporaryName).route := by
  rw [temporaryPath_child hplain.rooted]
  exact Path.parse_written (hplain.child (by decide))

/-- A temporary file whose path is too long is not made, and nothing is changed. -/
theorem replaceFile_tooLong (hplain : dir.IsPlain) (hD : fs.resolve? dir.route = some D)
    (hlong : (dir.child temporaryName).route.isTooLong = true) :
    replaceFile fs (dir.child fileName).written text =
      (.error (.unwritable (dir.child temporaryName).written .nameTooLong), fs) := by
  have hnul : (dir.child temporaryName).route.hasNul = false := by
    rw [hasNul_route, List.any_eq_false]
    intro name hmem
    rw [List.contains_iff_mem]
    rcases List.mem_append.mp hmem with hmem | hmem
    · exact ((refusal?_eq_none hplain.rooted).mp (resolve?_eq_some.mp hD).1).1 name hmem
    · obtain rfl : name = temporaryName := by simpa using hmem
      decide
  have hrefused : refusal? (dir.child temporaryName).route = some .nameTooLong := by
    rw [refusal?, hnul, hlong]
    rfl
  have hcreate : fs.createFile (dir.child temporaryName).route (.text text) =
      .error .nameTooLong := by
    rw [createFile, locate, hrefused]
  have hremove : fs.removeFile (dir.child temporaryName).route = fs := by
    rw [removeFile, nameOf, hrefused]
  have htemp := parse_temporaryPath hplain
  rw [temporaryPath_child hplain.rooted] at htemp
  unfold replaceFile
  simp only [temporaryPath_child hplain.rooted, htemp, hcreate, hremove]

section

variable (hplain : dir.IsPlain) (hD : fs.resolve? dir.route = some D)
  (hdir : fs.get? D = some .directory) (hspare : fs.Spare (D ++ [temporaryName]))
  (hspot : fs.get? (D ++ [.ofText fileName]) ≠ some .directory)
include hplain hD hdir hspare hspot

/-- A descriptor is saved by way of a temporary file that is new or overwrites one. -/
theorem replaceFile_spare (hlong : (dir.child temporaryName).route.isTooLong = false) :
    replaceFile fs (dir.child fileName).written text = (.ok (), savedIn fs D text) := by
  have hpath : Route.parse (dir.child fileName).written = (dir.child fileName).route :=
    Path.parse_written (hplain.child (by decide))
  have htemp := parse_temporaryPath hplain
  have hok : refusal? dir.route = none := (resolve?_eq_some.mp hD).1
  have htempOk : refusal? (dir.child temporaryName).route = none :=
    refusal?_child hplain.rooted hok (by decide) hlong
  have hpathOk : refusal? (dir.child fileName).route = none :=
    refusal?_fileName hplain.rooted hok hlong
  have hcreate := createFile_child hD hdir htempOk (by decide) hspare (.text text)
  -- The directory and the descriptor are as they were once the temporary file is there.
  have hrep : Replaces fs (fs.put (D ++ [temporaryName]) (.file (.text text))) D temporaryName
      (.text text) := replaces_put hspare _
  obtain ⟨hD', hdir'⟩ := hrep.directory.mpr ⟨hD, hdir⟩
  have hspot' : (fs.put (D ++ [temporaryName]) (.file (.text text))).get? (D ++ [.ofText fileName]) ≠
      some .directory := by
    rw [hrep.replaced.elsewhere _ (temporaryName_ne_fileName D).symm]
    exact hspot
  have hrename : (fs.put (D ++ [temporaryName]) (.file (.text text))).rename
      (dir.child temporaryName).route (dir.child fileName).route = .ok (savedIn fs D text) := by
    rw [rename, nameOf_child hD' hdir' htempOk (by decide),
      nameOf_child hD' hdir' hpathOk (by decide)]
    have hslash (name : WrittenPath) : (dir.child name).route.slash = false := rfl
    simp only [hrep.replaced.file, hslash, Bool.or_self, Bool.false_eq_true, if_false,
      if_neg (temporaryName_ne_fileName D)]
    rfl
  unfold replaceFile
  simp only [htemp, hpath, hcreate, hrename]

end

variable (hplain : dir.IsPlain) (hD : fs.resolve? dir.route = some D)
  (hdir : fs.get? D = some .directory) (hfree : fs.get? (D ++ [temporaryName]) = none)
  (hspot : fs.get? (D ++ [.ofText fileName]) ≠ some .directory)
include hplain hD hdir hfree hspot

theorem replaceFile_child (hlong : (dir.child temporaryName).route.isTooLong = false) :
    replaceFile fs (dir.child fileName).written text = (.ok (), savedIn fs D text) :=
  replaceFile_spare hplain hD hdir (.inl hfree) hspot hlong

/-- A descriptor is saved only if the path of the temporary file is not too long. -/
theorem eq_savedIn_of_replaceFile {fs' : FileSystem}
    (h : replaceFile fs (dir.child fileName).written text = (.ok (), fs')) :
    (dir.child temporaryName).route.isTooLong = false ∧ fs' = savedIn fs D text := by
  cases hlong : (dir.child temporaryName).route.isTooLong with
  | false =>
    rw [replaceFile_child hplain hD hdir hfree hspot hlong] at h
    exact ⟨rfl, by simpa using h.symm⟩
  | true =>
    rw [replaceFile_tooLong hplain hD hlong] at h
    simp at h

end

end Tsconfig.Descriptor
