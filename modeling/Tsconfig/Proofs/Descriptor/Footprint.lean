/-
# What writing a descriptor touches

Writing a descriptor in a directory touches its own entry (`Touches.descriptor`).  The temporary file is
no more afterwards, so its entry is touched if there was one before (`Touches.temporary`); and if that
was a link, the text has been written to where the link leads (`Touches.linked`).  Nothing else is
changed, whether the descriptor could be written or not (`touches_of_replaceFile`).

Where the temporary file has no link for an entry, and the descriptor leads to no directory, a descriptor
that cannot be written has changed nothing (`replaceFile_cases`), and one that is written leaves every
route to a directory as it was (`directory_savedIn`).
-/
import Tsconfig.Proofs.Descriptor.Saved

namespace Tsconfig.Descriptor

open FileSystem

/-- The locations that writing the descriptor of a directory may change. -/
inductive Touches (fs : FileSystem) (dir : Path) (D : Location) : Location → Prop
  | descriptor : Touches fs dir D (D ++ [.ofText fileName])
  | temporary {x : Entry} (hx : fs.get? (D ++ [temporaryName]) = some x) (hnot : x ≠ .directory) :
      Touches fs dir D (D ++ [temporaryName])
  | linked {target : WrittenPath} {loc : Location}
      (hx : fs.get? (D ++ [temporaryName]) = some (.link target))
      (hopen : fs.openedAt? (dir.child temporaryName).route = some loc) : Touches fs dir D loc

section

variable {fs : FileSystem} {dir : Path} {D loc : Location} {text : String}

/-- Without a temporary file only the descriptor is touched. -/
theorem Touches.eq_of_none (hfree : fs.get? (D ++ [temporaryName]) = none)
    (h : Touches fs dir D loc) : loc = D ++ [.ofText fileName] := by
  cases h with
  | descriptor => rfl
  | temporary hx _ => simp [hfree] at hx
  | linked hx _ => simp [hfree] at hx

variable (hplain : dir.IsPlain) (hD : fs.resolve? dir.route = some D)
  (hdir : fs.get? D = some .directory)
include hplain hD hdir

/-! ## 1. The temporary file -/

omit hplain in
/-- Where the temporary file is written: under its name, or where a link of its name leads. -/
theorem createFile_temporary {written : FileSystem} {c : Contents}
    (h : fs.createFile (dir.child temporaryName).route c = .ok written) :
    refusal? (dir.child temporaryName).route = none ∧ ∃ L name,
      fs.Spare (L ++ [name]) ∧ written = fs.put (L ++ [name]) (.file c) ∧
      fs.get? (D ++ [temporaryName]) ≠ some .directory ∧
      (L ++ [name] = D ++ [temporaryName] ∨
        ∃ target, fs.get? (D ++ [temporaryName]) = some (.link target) ∧
          fs.openedAt? (dir.child temporaryName).route = some (L ++ [name])) := by
  obtain ⟨L, name, hopen, hspare, hwritten⟩ := createFile_eq_ok h
  have hok : refusal? (dir.child temporaryName).route = none := by
    cases hr : refusal? (dir.child temporaryName).route with
    | none => rfl
    | some e => simp [createFile, locate, hr] at h
  refine ⟨hok, L, name, hspare, hwritten, ?_, ?_⟩
  · intro hx
    rw [createFile_child_of_directory hD hdir hok (by decide) hx] at h
    simp at h
  · cases hx : fs.get? (D ++ [temporaryName]) with
    | none =>
      have := openedAt?_child hD hdir hok (by decide) (.inl hx)
      exact .inl (Option.some.inj (hopen.symm.trans this))
    | some x =>
      cases x with
      | directory =>
        rw [createFile_child_of_directory hD hdir hok (by decide) hx] at h
        simp at h
      | file old =>
        have := openedAt?_child hD hdir hok (by decide) (.inr ⟨old, hx⟩)
        exact .inl (Option.some.inj (hopen.symm.trans this))
      | link target => exact .inr ⟨target, rfl, hopen⟩

/-- What is left once the temporary file has been written: it is gone, and the descriptor may have
changed. -/
theorem get?_replaceFile {written : FileSystem}
    (h : fs.createFile (dir.child temporaryName).route (.text text) = .ok written) :
    (replaceFile fs (dir.child fileName).written text).2.get? (D ++ [temporaryName]) = none ∧
      ∀ loc, loc ≠ D ++ [temporaryName] → loc ≠ D ++ [.ofText fileName] →
        (replaceFile fs (dir.child fileName).written text).2.get? loc = written.get? loc := by
  obtain ⟨hok, L, name, hspare, hwritten, hnot, hwhere⟩ := createFile_temporary hD hdir h
  have hrep : Replaces fs written L name (.text text) := hwritten ▸ replaces_put hspare _
  obtain ⟨hD', hdir'⟩ := hrep.directory.mpr ⟨hD, hdir⟩
  have hpath : Route.parse (dir.child fileName).written = (dir.child fileName).route :=
    Path.parse_written (hplain.child (by decide))
  obtain ⟨x, hx, hxnot⟩ : ∃ x, written.get? (D ++ [temporaryName]) = some x ∧ x ≠ .directory := by
    rcases hwhere with heq | ⟨target, hlink, _⟩
    · exact ⟨_, heq ▸ hrep.replaced.file, by simp⟩
    · by_cases heq : D ++ [temporaryName] = L ++ [name]
      · exact ⟨_, heq ▸ hrep.replaced.file, by simp⟩
      · exact ⟨_, (hrep.replaced.elsewhere _ heq).trans hlink, by simp⟩
  unfold replaceFile
  simp only [parse_temporaryPath hplain, hpath, h]
  cases hrename : written.rename (dir.child temporaryName).route (dir.child fileName).route with
  | error cause =>
    simp only [removeFile_child_of_get? hD' hdir' hok (by decide) hx hxnot]
    refine ⟨by rw [get?_erase _ _ _ (by simp), if_pos rfl], fun loc ht _ => ?_⟩
    by_cases hloc : loc = []
    · simp [hloc, get?]
    · rw [get?_erase _ _ _ hloc, if_neg ht]
  | ok done =>
    obtain ⟨y, _, hdone⟩ := rename_child_eq_ok hD' hdir' (by decide) (by decide)
      (temporaryName_ne_fileName D) hrename
    simp only [hdone]
    refine ⟨by rw [get?_erase _ _ _ (by simp), if_pos rfl], fun loc ht hf => ?_⟩
    by_cases hloc : loc = []
    · simp [hloc, get?]
    · rw [get?_erase _ _ _ hloc, if_neg ht, get?_put _ (by simp), if_neg (Ne.symm hf)]

/-- What is left where the temporary file cannot be written: it is removed all the same. -/
theorem get?_replaceFile_of_error {cause : AccessError}
    (h : fs.createFile (dir.child temporaryName).route (.text text) = .error cause) (loc : Location) :
    (replaceFile fs (dir.child fileName).written text).2.get? loc = fs.get? loc ∨
      (loc = D ++ [temporaryName] ∧
        ∃ x, fs.get? (D ++ [temporaryName]) = some x ∧ x ≠ .directory) := by
  have hleft : (replaceFile fs (dir.child fileName).written text).2 =
      fs.removeFile (dir.child temporaryName).route := by
    unfold replaceFile
    simp only [parse_temporaryPath hplain, h]
  rw [hleft]
  rcases removeFile_child hD hdir (show temporaryName.size ≤ nameLimit by decide) with
    hsame | ⟨herase, hx⟩
  · exact .inl (by rw [hsame])
  · by_cases ht : loc = D ++ [temporaryName]
    · exact .inr ⟨ht, hx⟩
    · by_cases hloc : loc = []
      · exact .inl (by simp [hloc, get?])
      · exact .inl (by rw [herase, get?_erase _ _ _ hloc, if_neg ht])

/-! ## 2. What is touched -/

/-- **Writing a descriptor changes only what it touches**, whether it succeeds or fails. -/
theorem touches_of_replaceFile
    (h : (replaceFile fs (dir.child fileName).written text).2.get? loc ≠ fs.get? loc) :
    Touches fs dir D loc := by
  cases hcreate : fs.createFile (dir.child temporaryName).route (.text text) with
  | error cause =>
    rcases get?_replaceFile_of_error hplain hD hdir hcreate loc with hsame | ⟨rfl, x, hx, hnot⟩
    · exact absurd hsame h
    · exact .temporary hx hnot
  | ok written =>
    obtain ⟨_, L, name, hspare, hwritten, hnot, hwhere⟩ := createFile_temporary hD hdir hcreate
    obtain ⟨hgone, helse⟩ := get?_replaceFile hplain hD hdir hcreate
    by_cases ht : loc = D ++ [temporaryName]
    · rw [ht, hgone] at h
      cases hx : fs.get? (D ++ [temporaryName]) with
      | none => exact absurd hx.symm h
      | some x =>
        refine ht ▸ .temporary hx ?_
        rintro rfl
        exact hnot hx
    · by_cases hf : loc = D ++ [.ofText fileName]
      · exact hf ▸ .descriptor
      · rw [helse loc ht hf, hwritten, get?_put _ (by simp)] at h
        split at h
        · next hl =>
          rcases hwhere with heq | ⟨target, hlink, hopen⟩
          · exact absurd (hl.symm.trans heq) ht
          · exact hl ▸ .linked hlink hopen
        · exact absurd rfl h

/-! ## 3. No link in the way -/

/-- **A descriptor that cannot be written has changed nothing**, unless the temporary file has a link for
an entry. -/
theorem replaceFile_cases (hlink : ∀ target, fs.get? (D ++ [temporaryName]) ≠ some (.link target))
    (hspot : fs.get? (D ++ [.ofText fileName]) ≠ some .directory) :
    (∃ path cause, replaceFile fs (dir.child fileName).written text =
      (.error (.unwritable path cause), fs)) ∨
    (fs.Spare (D ++ [temporaryName]) ∧ (dir.child temporaryName).route.isTooLong = false ∧
      replaceFile fs (dir.child fileName).written text = (.ok (), savedIn fs D text)) := by
  cases hlong : (dir.child temporaryName).route.isTooLong with
  | true => exact .inl ⟨_, _, replaceFile_tooLong hplain hD hlong⟩
  | false =>
    have hsaved (h : fs.Spare (D ++ [temporaryName])) :
        replaceFile fs (dir.child fileName).written text = (.ok (), savedIn fs D text) :=
      replaceFile_spare hplain hD hdir h hspot hlong
    cases hx : fs.get? (D ++ [temporaryName]) with
    | none => exact .inr ⟨.inl hx, rfl, hsaved (.inl hx)⟩
    | some x =>
      cases x with
      | file c => exact .inr ⟨.inr ⟨c, hx⟩, rfl, hsaved (.inr ⟨c, hx⟩)⟩
      | link target => exact absurd hx (hlink target)
      | directory =>
        have hok : refusal? (dir.child temporaryName).route = none :=
          refusal?_child hplain.rooted (resolve?_eq_some.mp hD).1 (by decide) hlong
        have hcreate := createFile_child_of_directory hD hdir hok (by decide) hx (.text text)
        have hremove : fs.removeFile (dir.child temporaryName).route = fs := by
          rcases removeFile_child hD hdir (show temporaryName.size ≤ nameLimit by
            decide) with hsame | ⟨_, y, hy, hnot⟩
          · exact hsame
          · exact absurd (Option.some.inj (hy.symm.trans hx)) hnot
        refine .inl ⟨temporaryPath (dir.child fileName).written, .isDirectory, ?_⟩
        unfold replaceFile
        simp only [parse_temporaryPath hplain, hcreate, hremove]

/-- **A file stays a file**: the descriptor does, if nothing has the name of the temporary file, and so do
all others but the temporary file. -/
theorem holdsFile_replaceFile (hfile : fs.HoldsFile loc) (ht : loc ≠ D ++ [temporaryName])
    (hfree : loc = D ++ [.ofText fileName] → fs.get? (D ++ [temporaryName]) = none) :
    (replaceFile fs (dir.child fileName).written text).2.HoldsFile loc := by
  by_cases hf : loc = D ++ [.ofText fileName]
  · have hnone := hfree hf
    have hspot : fs.get? (D ++ [.ofText fileName]) ≠ some .directory := hf ▸ hfile.not_directory
    have hlink : ∀ target, fs.get? (D ++ [temporaryName]) ≠ some (.link target) := by simp [hnone]
    have hcases : (∃ path cause, replaceFile fs (dir.child fileName).written text = _) ∨ _ :=
      replaceFile_cases hplain hD hdir hlink hspot
    rcases hcases with ⟨_, _, hrefused⟩ | ⟨_, _, hsaved⟩
    · rwa [hrefused]
    · rw [hsaved, hf]
      exact ⟨_, (replaced_savedIn hnone).file⟩
  · cases hcreate : fs.createFile (dir.child temporaryName).route (.text text) with
    | error cause =>
      rcases get?_replaceFile_of_error hplain hD hdir hcreate loc with hsame | ⟨hloc, _⟩
      · rwa [HoldsFile, hsame]
      · exact absurd hloc ht
    | ok written =>
      obtain ⟨_, L, name, _, hwritten, _⟩ := createFile_temporary hD hdir hcreate
      rw [HoldsFile, (get?_replaceFile hplain hD hdir hcreate).2 loc ht hf, hwritten,
        get?_put _ (by simp)]
      split
      · exact ⟨_, rfl⟩
      · exact hfile

omit hplain hD hdir in
/-- **Saving leaves every route to a directory as it was**, if the descriptor led to none. -/
theorem directory_savedIn (hspare : fs.Spare (D ++ [temporaryName]))
    (hleads : fs.LeadsToFile D fileName) (hspot : fs.get? (D ++ [.ofText fileName]) ≠ some .directory)
    {r : Route} {e : Location} :
    ((savedIn fs D text).resolve? r = some e ∧ (savedIn fs D text).get? e = some .directory) ↔
      (fs.resolve? r = some e ∧ fs.get? e = some .directory) := by
  -- The temporary file is written, the descriptor takes its contents, and the temporary file goes.
  obtain ⟨written, hwritten⟩ : ∃ written,
      written = fs.put (D ++ [temporaryName]) (.file (.text text)) := ⟨_, rfl⟩
  have hfirst : Replaces fs written D temporaryName (.text text) := hwritten ▸ replaces_put hspare _
  have hsecond : Replaces written (written.put (D ++ [.ofText fileName]) (.file (.text text))) D fileName
      (.text text) := by
    refine ⟨replaced_put (by simp) _, ?_, ?_⟩
    · intro n slash e hr
      by_cases he : e = D ++ [temporaryName]
      · exact ⟨_, he ▸ hfirst.replaced.file⟩
      · exact hfirst.holdsFile (hleads n slash e (hr.of_replaced hfirst.replaced fun h => absurd h he))
    · rwa [hfirst.replaced.elsewhere _ (temporaryName_ne_fileName D).symm]
  have hthird : Replaces (savedIn fs D text) (written.put (D ++ [.ofText fileName]) (.file (.text text))) D
      temporaryName (.text text) := by
    have hgone : (savedIn fs D text).get? (D ++ [temporaryName]) = none := by
      rw [get?_savedIn (by simp), if_pos rfl]
    refine ⟨⟨?_, fun loc hne => ?_, by rw [hwritten]; rfl⟩, leadsToFile_of_none hgone, by simp [hgone]⟩
    · rw [hsecond.replaced.elsewhere _ (temporaryName_ne_fileName D), hfirst.replaced.file]
    · by_cases hloc : loc = []
      · simp [hloc, get?]
      · rw [savedIn, get?_erase _ _ _ hloc, if_neg hne, hwritten]
  rw [← hthird.directory, hsecond.directory, hfirst.directory]

end

end Tsconfig.Descriptor
