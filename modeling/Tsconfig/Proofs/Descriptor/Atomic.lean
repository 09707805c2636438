/-
# Writing is atomic

A descriptor is written to a temporary file, which then takes the name that the path ends in.  Each of
these steps may be refused, and for many reasons: there is no such directory, the path ends in no name,
a directory has the name.  Whatever the path and the file system, there are only two outcomes if no
entry is at the temporary path before (`replaceFile_eq`): nothing has changed at all, or a file with the
text has taken the name and nothing else has changed (`Written`).  A link that had the name is replaced
itself, and what it points to stays.

The temporary file is gone in both cases.  In the first one it is removed under the name under which it
was made, since it is the only thing that has changed in between; in the second one it has the other
name, which is never its own (`name_ne_temporary`).
-/
import Tsconfig.Proofs.FileSystem.Names
import Tsconfig.Proofs.Path.Extension

namespace Tsconfig.Descriptor

open FileSystem

/-- A file with the text has taken the name that the path ends in, and nothing else has changed.  The
path names the file if it leads to the directory without the entry that was there. -/
def Written (fs fs' : FileSystem) (path : WrittenPath) (text : String) : Prop :=
  ∃ dir name, TakesName fs fs' (Route.parse path) dir name (.text text) ∧
    (fs'.named? (Route.parse path) = some (.file (.text text)) ↔
      (fs.erase (dir ++ [name])).nameOf (Route.parse path) = .ok (dir, name))

section

variable {fs : FileSystem} {path : WrittenPath}

/-! ## 1. The temporary file -/

/-- A temporary file that has been made is removed without a trace. -/
theorem removeFile_written {written : FileSystem} {r : Route} {dir : Location} {name : WrittenPath}
    {c : Contents} (hname : fs.nameOf r = .ok (dir, name)) (hslash : r.slash = false)
    (hnone : fs.get? (dir ++ [name]) = none) (hwritten : written = fs.put (dir ++ [name]) (.file c)) :
    written.removeFile r = fs := by
  have hrep : Replaces fs written dir name c := hwritten ▸ replaces_put (.inl hnone) c
  have hname' : written.nameOf r = .ok (dir, name) := hrep.nameOf_iff.mpr hname
  rw [removeFile, hname']
  simp only [hrep.replaced.file, hslash, Bool.false_eq_true, if_false]
  rw [hwritten, erase_put (by simp) hnone]

/-- **What the temporary file is renamed to, it replaces**, and is gone. -/
theorem takesName_of_rename {written done : FileSystem} {tdir : Location} {tname : WrittenPath}
    {c : Contents}
    (htemp : fs.nameOf (Route.parse (temporaryPath path)) = .ok (tdir, tname))
    (htslash : (Route.parse (temporaryPath path)).slash = false)
    (hnone : fs.get? (tdir ++ [tname]) = none)
    (hwritten : written = fs.put (tdir ++ [tname]) (.file c))
    (h : written.rename (Route.parse (temporaryPath path)) (Route.parse path) = .ok done) :
    ∃ dir name, TakesName fs done (Route.parse path) dir name c ∧
      done.named? (Route.parse (temporaryPath path)) = none := by
  have hrep : Replaces fs written tdir tname c := hwritten ▸ replaces_put (.inl hnone) c
  obtain ⟨d, last, dir, name, x, hsource, htarget, _, hslash, hx, hnot, hdone⟩ := rename_eq_ok h
  obtain ⟨rfl, rfl⟩ : d = tdir ∧ last = tname := by
    simpa using (hrep.nameOf_iff.mp hsource).symm.trans htemp
  obtain rfl : x = .file c := Option.some.inj (hx.symm.trans hrep.replaced.file)
  have hname : fs.nameOf (Route.parse path) = .ok (dir, name) := hrep.nameOf_iff.mp htarget
  have htlast := (nameOf_eq_ok.mp htemp).2.2.2.1
  have hne : d ++ [last] ≠ dir ++ [name] := by
    intro heq
    have hsame : last = name := (List.append_inj' heq rfl).2 |> List.singleton_inj.mp
    exact name_ne_temporary (nameOf_eq_ok.mp hname).2.2.2.1 hslash htlast htslash hsame.symm
  have hmoved : Replaced fs done (dir ++ [name]) c := by
    rw [hdone, if_neg hne, hwritten]
    exact replaced_moved (by simp) (by simp) hne hnone _
  have hdirectory : fs.get? (dir ++ [name]) ≠ some .directory := by
    rwa [← hrep.replaced.elsewhere _ hne.symm]
  refine ⟨dir, name, ⟨hname, hslash, hdirectory, hmoved⟩, ?_⟩
  -- What the temporary path named now would be where the temporary file was.
  rw [Option.eq_none_iff_forall_ne_some]
  intro y hy
  obtain ⟨d', hd', hy'⟩ := (named?_eq_some htlast htslash).mp hy
  obtain rfl : d' = d := by simpa using (hmoved.nameOf_of hd').symm.trans htemp
  rw [hmoved.elsewhere _ hne, hnone] at hy'
  simp at hy'

/-! ## 2. Both outcomes -/

theorem update_eq (d : Descriptor) (current : String) : update fs path d current =
    if d.canonical = current then (.ok false, fs)
    else ((save fs path d).1.map fun _ => true, (save fs path d).2) := by
  unfold update
  split
  · rfl
  · split
    · next e fs' h => rw [h]; rfl
    · next fs' h => rw [h]; rfl

variable (hfree : fs.named? (Route.parse (temporaryPath path)) = none)
include hfree

/-- **Writing a text does all of it or nothing.** -/
theorem replaceFile_eq (text : String) : (∃ e, replaceFile fs path text = (.error e, fs)) ∨
    ∃ fs', replaceFile fs path text = (.ok (), fs') ∧ Written fs fs' path text ∧
      fs'.named? (Route.parse (temporaryPath path)) = none := by
  unfold replaceFile
  cases hcreate : fs.createFile (Route.parse (temporaryPath path)) (.text text) with
  | error cause =>
    refine .inl ⟨.unwritable (temporaryPath path) cause, ?_⟩
    simp only [hcreate, removeFile_of_named?_eq_none hfree]
  | ok written =>
    obtain ⟨tdir, tname, htemp, htslash, hnone, hwritten⟩ :=
      createFile_of_named?_eq_none hfree hcreate
    cases hrename : written.rename (Route.parse (temporaryPath path)) (Route.parse path) with
    | error cause =>
      refine .inl ⟨.unwritable path cause, ?_⟩
      simp only [hcreate, hrename, removeFile_written htemp htslash hnone hwritten]
    | ok done =>
      obtain ⟨dir, name, htakes, hgone⟩ := takesName_of_rename htemp htslash hnone hwritten hrename
      refine .inr ⟨done, ?_, ⟨dir, name, htakes, htakes.named?_iff⟩, hgone⟩
      simp only [hcreate, hrename]

/-- **Writing a descriptor is atomic**, whether it is written in any case or only if it has changed.  Where
it succeeds, its canonical text is in a file of the name that the path ends in and nothing else has
changed; where it fails, or has nothing to do, nothing has changed; and no temporary file remains. -/
theorem save_atomic (d : Descriptor) (current : String) :
    (∀ fs', save fs path d = (.ok (), fs') ∨ update fs path d current = (.ok true, fs') →
      Written fs fs' path d.canonical) ∧
    (∀ e fs', save fs path d = (.error e, fs') ∨ update fs path d current = (.error e, fs') →
      fs' = fs) ∧
    (∀ fs', update fs path d current = (.ok false, fs') ↔ d.canonical = current ∧ fs' = fs) ∧
    (save fs path d).2.named? (Route.parse (temporaryPath path)) = none ∧
    (update fs path d current).2.named? (Route.parse (temporaryPath path)) = none := by
  rcases replaceFile_eq hfree d.canonical with ⟨cause, hsave⟩ | ⟨done, hsave, hwritten, hgone⟩
  · rw [update_eq, save, hsave]
    by_cases hsame : d.canonical = current
    · simp [hsame, hfree, eq_comm]
    · simp [hsame, hfree, eq_comm, Except.map]
  · rw [update_eq, save, hsave]
    by_cases hsame : d.canonical = current
    · simp [← hsame, hfree, hgone, hwritten, eq_comm]
    · simp [hsame, hgone, hwritten, Except.map]

end

/-- A descriptor that is a link to a file of another name. -/
def linkedFile : FileSystem where
  entries := [
    (["w"], .directory),
    (["w", "base.json"], .file (.text "\x7b\x7d")),
    (["w", "tsconfig.json"], .link "base.json")]
  workingDirectory := ["w"]

theorem save_atomic_linkedFile :
    linkedFile.named? (Route.parse (temporaryPath fileName)) = none ∧
      ∃ fs', save linkedFile fileName empty = (.ok (), fs') ∧
        Written linkedFile fs' fileName empty.canonical ∧
        fs'.get? ["w", "base.json"] = some (.file (.text "\x7b\x7d")) := by
  have hfree : linkedFile.named? (Route.parse (temporaryPath fileName)) = none := by decide
  have hok : (save linkedFile fileName empty).1.isOk = true := by decide
  have hbase : (save linkedFile fileName empty).2.get? ["w", "base.json"] =
      some (.file (.text "\x7b\x7d")) := by decide
  cases hrun : save linkedFile fileName empty with
  | mk result fs' =>
    rw [hrun] at hok hbase
    cases result with
    | error e => simp [Except.isOk, Except.toBool] at hok
    | ok _ => exact ⟨hfree, fs', rfl, (save_atomic hfree empty "").1 fs' (.inl hrun), hbase⟩

/-- **The path names what has been written**, unless there was a link to a directory. -/
theorem Written.named? {fs fs' : FileSystem} {path : WrittenPath} {text : String}
    (h : Written fs fs' path text)
    (hleads : ∀ dir name, fs.nameOf (Route.parse path) = .ok (dir, name) → fs.LeadsToFile dir name) :
    fs'.named? (Route.parse path) = some (.file (.text text)) := by
  obtain ⟨dir, name, htakes, _⟩ := h
  exact htakes.named?_of_leadsToFile (hleads dir name htakes.nameOf)

/-- A link to a directory that the path goes through, and which it ends in. -/
def linkedDirectory : FileSystem where
  entries := [(["d"], .directory), (["l"], .link "d")]
  workingDirectory := []

-- The link is replaced, and there is no way through a file.
example : (save linkedDirectory "l/../l" empty).1.isOk = true ∧
    (save linkedDirectory "l/../l" empty).2.get? ["l"] = some (.file (.text empty.canonical)) ∧
    (save linkedDirectory "l/../l" empty).2.named? (Route.parse "l/../l") = none := by
  decide

end Tsconfig.Descriptor
