/-
# Creating a project where there is a descriptor

Before a creation writes a descriptor it looks whether there is one, and the two do not see the same entry:
looking follows links, and writing puts a file in the place of whatever has the name.  A file, a
directory, and a link that leads to an entry are seen (`isEntry_of_not_dangles`), and the creation is
refused with nothing changed.  A link that leads to no entry counts as nothing (`Dangles`), and then **the
creation replaces it** (`create_of_dangles`).

A descriptor whose path is too long is not seen either, but the path of the temporary file is longer
still, so that nothing is written (`create_tooLong`).
-/
import Tsconfig.Proofs.Project.Leftover

namespace Tsconfig.Loader

open Descriptor FileSystem

/-- A link has the name of the descriptor, and leads to no entry. -/
structure Dangles (fs : FileSystem) (dir : Path) (D : Location) : Prop where
  link : ∃ target, fs.get? (D ++ [.ofText fileName]) = some (.link target)
  nowhere : fs.isEntry (dir.child fileName).route = false

section

variable {r : Loader} {fs : FileSystem} {path : WrittenPath} {dir : Path} {D : Location} {x : Entry}
  {options : Option (Fields Json)}

/-! ## 1. What is seen -/

/-- **Every entry is seen under the name of the descriptor**, unless it is a link that leads to none. -/
theorem isEntry_of_not_dangles (hplain : dir.IsPlain) (hD : fs.resolve? dir.route = some D)
    (hdir : fs.get? D = some .directory) (hx : fs.get? (D ++ [.ofText fileName]) = some x)
    (hshort : (dir.child fileName).route.isTooLong = false) (h : ¬ Dangles fs dir D) :
    fs.isEntry (dir.child fileName).route = true := by
  have hok : refusal? (dir.child fileName).route = none :=
    refusal?_child hplain.rooted (resolve?_eq_some.mp hD).1 (by decide) hshort
  by_cases hlink : ∃ target, x = .link target
  · obtain ⟨target, rfl⟩ := hlink
    cases hentry : fs.isEntry (dir.child fileName).route with
    | true => rfl
    | false => exact absurd ⟨⟨target, hx⟩, hentry⟩ h
  · have hl : ∀ target, x ≠ .link target := fun target hx => hlink ⟨target, hx⟩
    exact isEntry_iff.mpr ⟨_, x, resolve?_child_of_get? hD hdir hok (by decide) hx hl, hx⟩

/-- A path that is too long names no entry, and with it the temporary file has one that is too long. -/
theorem isEntry_tooLong (hplain : dir.IsPlain) (hD : fs.resolve? dir.route = some D)
    (hlong : (dir.child fileName).route.isTooLong = true) :
    fs.isEntry (dir.child fileName).route = false ∧
      (dir.child temporaryName).route.isTooLong = true := by
  constructor
  · rw [Bool.eq_false_iff]
    intro hentry
    obtain ⟨e, _, he, _⟩ := isEntry_iff.mp hentry
    have hshort := (refusal?_iff.mp (resolve?_eq_some.mp he).1).2.1
    simp [hlong] at hshort
  · cases htemp : (dir.child temporaryName).route.isTooLong with
    | true => rfl
    | false =>
      have hok := refusal?_fileName hplain.rooted (resolve?_eq_some.mp hD).1 htemp
      have hshort := (refusal?_iff.mp hok).2.1
      simp [hlong] at hshort

/-! ## 2. What is done -/

section

variable (h : fs.isEntry (fs.absolute path).route = true)
  (hD : fs.resolve? (targetOf fs path).route = some D)
include h hD

theorem create_tooLong (r : Loader) (options : Option (Fields Json))
    (hlong : ((targetOf fs path).child fileName).route.isTooLong = true) :
    r.create fs path options =
      (.error (.unwritable ((targetOf fs path).child temporaryName).written .nameTooLong), fs) := by
  have hplain := (exists_target h).1
  obtain ⟨hnew, htemp⟩ := isEntry_tooLong hplain hD hlong
  exact create_of_refused h hnew (replaceFile_tooLong hplain hD htemp)

/-- **A link that leads nowhere is replaced by the new descriptor**, the creation goes on, and whatever comes
of it there is a file. -/
theorem create_of_dangles (r : Loader) (options : Option (Fields Json))
    (hdangles : Dangles fs (targetOf fs path) D) (hfree : fs.get? (D ++ [temporaryName]) = none)
    (hlong : ((targetOf fs path).child temporaryName).route.isTooLong = false) :
    r.create fs path options = r.load (created fs path options) (fs.absolute path).written ∧
      Replaced fs (created fs path options) (D ++ [.ofText fileName])
        (.text (newDescriptor options).canonical) ∧
      (r.create fs path options).2.HoldsFile (D ++ [.ofText fileName]) := by
  obtain ⟨hplain, D', hD', hdir⟩ := exists_target h
  obtain rfl : D = D' := Option.some.inj (hD.symm.trans hD')
  obtain ⟨target, hlink⟩ := hdangles.link
  have hspot : fs.get? (D ++ [.ofText fileName]) ≠ some .directory := by simp [hlink]
  have hsave : Descriptor.save fs ((targetOf fs path).child fileName).written (newDescriptor options) =
      (.ok (), savedIn fs D (newDescriptor options).canonical) :=
    replaceFile_child hplain hD hdir hfree hspot hlong
  have hreplaced : Replaced fs (savedIn fs D (newDescriptor options).canonical) (D ++ [.ofText fileName])
      (.text (newDescriptor options).canonical) := replaced_savedIn hfree
  have hgone : (savedIn fs D (newDescriptor options).canonical).get? (D ++ [temporaryName]) = none := by
    rw [get?_savedIn (by simp), if_pos rfl]
  have hrun := create_of_saved (r := r) h hdangles.nowhere hsave
  rw [created, hsave]
  refine ⟨hrun, hreplaced, ?_⟩
  rw [hrun]
  exact holdsFile_load ⟨_, hreplaced.file⟩ hgone

omit hD in
/-- A creation for which no descriptor is seen does not fail because of one. -/
theorem create_ne_descriptorExists
    (hnew : fs.isEntry ((targetOf fs path).child fileName).route = false) (q : WrittenPath) :
    (r.create fs path options).1 ≠ .error (.descriptorExists q) := by
  have hkind : OfCreation (.descriptorExists q) := .inr rfl
  intro hfailed
  cases hsave : Descriptor.save fs ((targetOf fs path).child fileName).written (newDescriptor options) with
  | mk res fs₁ =>
    cases res with
    | error e =>
      rw [create_of_refused h hnew hsave] at hfailed
      obtain ⟨_, _, he⟩ := unwritable_of_replaceFile (congrArg Prod.fst hsave)
      simp [he] at hfailed
    | ok _ =>
      rw [create_of_saved h hnew hsave] at hfailed
      exact not_ofCreation_load hfailed hkind

end

/-- **Creating a project where something has the name of the descriptor.**  The creation is refused because
of it and changes nothing, whatever it is, unless it is a link that leads to no entry.  Such a link is
not seen: it is replaced if the temporary file can be made.  Where the path is longer than the system
takes nothing is seen and nothing is written. -/
theorem create_occupied (r : Loader) (options : Option (Fields Json))
    (h : fs.isEntry (fs.absolute path).route = true)
    (hD : fs.resolve? (targetOf fs path).route = some D)
    (hx : fs.get? (D ++ [.ofText fileName]) = some x) :
    (¬ Dangles fs (targetOf fs path) D →
      ((targetOf fs path).child fileName).route.isTooLong = false →
        r.create fs path options =
          (.error (.descriptorExists ((targetOf fs path).child fileName).written), fs)) ∧
    (((targetOf fs path).child fileName).route.isTooLong = true →
      r.create fs path options =
        (.error (.unwritable ((targetOf fs path).child temporaryName).written .nameTooLong), fs)) ∧
    (Dangles fs (targetOf fs path) D →
      (∀ q, (r.create fs path options).1 ≠ .error (.descriptorExists q)) ∧
      (fs.get? (D ++ [temporaryName]) = none →
        ((targetOf fs path).child temporaryName).route.isTooLong = false →
          r.create fs path options = r.load (created fs path options) (fs.absolute path).written ∧
            Replaced fs (created fs path options) (D ++ [.ofText fileName])
              (.text (newDescriptor options).canonical) ∧
            (r.create fs path options).2.HoldsFile (D ++ [.ofText fileName]))) := by
  obtain ⟨hplain, D', hD', hdir⟩ := exists_target h
  obtain rfl : D = D' := Option.some.inj (hD.symm.trans hD')
  refine ⟨fun hnot hshort => ?_, create_tooLong h hD r options, fun hdangles => ⟨?_, ?_⟩⟩
  · exact create_of_descriptor r options h (isEntry_of_not_dangles hplain hD hdir hx hshort hnot)
  · exact create_ne_descriptorExists h hdangles.nowhere
  · exact create_of_dangles h hD r options hdangles

end

/-- A source file, and a descriptor that is a link. -/
def occupiedTree (target : String) : FileSystem where
  entries := [(["a.ts"], .file (.text "")), (["tsconfig.json"], .link target)]
  workingDirectory := []
  isPlain := isPlain_nil

theorem dangles_occupiedTree : Dangles (occupiedTree "b.ts") (targetOf (occupiedTree "b.ts") "a.ts") [] :=
  ⟨⟨"b.ts", rfl⟩, by decide⟩

/-- A link to a file is refused, and one that leads nowhere is replaced. -/
theorem create_occupied_linked :
    ((occupiedTree "a.ts").isEntry ((occupiedTree "a.ts").absolute "a.ts").route = true ∧
      (occupiedTree "a.ts").resolve? (targetOf (occupiedTree "a.ts") "a.ts").route = some [] ∧
      (occupiedTree "a.ts").get? ([] ++ [.ofText fileName]) = some (.link "a.ts") ∧
      standard.create (occupiedTree "a.ts") "a.ts" none =
        (.error (.descriptorExists "/tsconfig.json"), occupiedTree "a.ts")) ∧
    ((occupiedTree "b.ts").isEntry ((occupiedTree "b.ts").absolute "a.ts").route = true ∧
      (occupiedTree "b.ts").resolve? (targetOf (occupiedTree "b.ts") "a.ts").route = some [] ∧
      (occupiedTree "b.ts").get? ([] ++ [.ofText fileName]) = some (.link "b.ts") ∧
      standard.create (occupiedTree "b.ts") "a.ts" none =
        standard.load (created (occupiedTree "b.ts") "a.ts" none) "/a.ts" ∧
      (created (occupiedTree "b.ts") "a.ts" none).get? ["tsconfig.json"] =
        some (.file (.text (newDescriptor none).canonical)) ∧
      (standard.create (occupiedTree "b.ts") "a.ts" none).2.HoldsFile ["tsconfig.json"]) := by
  have hseen : ¬ Dangles (occupiedTree "a.ts") (targetOf (occupiedTree "a.ts") "a.ts") [] := by
    intro hdangles
    have hentry : (occupiedTree "a.ts").isEntry
        ((targetOf (occupiedTree "a.ts") "a.ts").child fileName).route = true := by decide
    simp [hdangles.nowhere] at hentry
  have hrefused := (@create_occupied (occupiedTree "a.ts") "a.ts" [] (.link "a.ts") standard none
    (by decide) (by decide) rfl).1 hseen (by decide)
  have hdangling := (@create_occupied (occupiedTree "b.ts") "a.ts" [] (.link "b.ts") standard none
    (by decide) (by decide) rfl).2.2 dangles_occupiedTree
  obtain ⟨hrun, hreplaced, hleft⟩ := hdangling.2 (by decide) (by decide)
  exact ⟨⟨by decide, by decide, rfl, hrefused⟩, by decide, by decide, rfl, hrun, hreplaced.file,
    hleft⟩

/-- A creation is not refused and replaces an entry that has the name of the descriptor. -/
theorem create_occupied_replaces :
    (occupiedTree "b.ts").isEntry ((occupiedTree "b.ts").absolute "a.ts").route = true ∧
      (occupiedTree "b.ts").get? ["tsconfig.json"] = some (.link "b.ts") ∧
      (∀ q, (standard.create (occupiedTree "b.ts") "a.ts" none).1 ≠ .error (.descriptorExists q)) ∧
      (standard.create (occupiedTree "b.ts") "a.ts" none).2 ≠ occupiedTree "b.ts" ∧
      (standard.create (occupiedTree "b.ts") "a.ts" none).2.HoldsFile ["tsconfig.json"] := by
  have hentry : (occupiedTree "b.ts").isEntry ((occupiedTree "b.ts").absolute "a.ts").route = true := by
    decide
  obtain ⟨_, _, hleft⟩ := create_of_dangles (D := []) hentry (by decide) standard none
    dangles_occupiedTree (by decide) (by decide)
  refine ⟨hentry, by decide, create_ne_descriptorExists hentry dangles_occupiedTree.nowhere, ?_, hleft⟩
  intro hsame
  have hlink : (occupiedTree "b.ts").get? ([] ++ [.ofText fileName]) = some (.link "b.ts") := rfl
  obtain ⟨c, hc⟩ := hleft
  rw [hsame, hlink] at hc
  simp at hc

end Tsconfig.Loader
