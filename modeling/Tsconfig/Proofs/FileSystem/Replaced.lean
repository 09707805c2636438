/-
# One entry is replaced by a file

Two file systems that differ at one location, the spot, where the second one has a file.  If the spot
held a link to a file, or a file, or nothing, then every walk of the first one is a walk of the second
one, to the same place or, where it went through the link at its very end, to the spot
(`Reaches.replaced`).  Conversely a walk of the second one that does not end at the spot is a walk of
the first one (`Reaches.of_replaced`).

What is missing is a walk that ends at the spot in the second one only.  There is such a walk: a link
at the spot counts as one of the links that a lookup may follow, and a file does not.
-/
import Tsconfig.Proofs.FileSystem.Reaches

namespace Tsconfig.FileSystem

/-! ## 1. Walks -/

/-- The second file system has a file at the spot and is the first one elsewhere. -/
structure Replaced (fs fs' : FileSystem) (spot : Location) (c : Contents) : Prop where
  file : fs'.get? spot = some (.file c)
  elsewhere : ∀ loc ≠ spot, fs'.get? loc = fs.get? loc
  workingDirectory : fs'.workingDirectory = fs.workingDirectory

/-- A location holds a file. -/
def HoldsFile (fs : FileSystem) (loc : Location) : Prop := ∃ c, fs.get? loc = some (.file c)

/-- Whatever a name in a directory leads to is a file. -/
def LeadsToFile (fs : FileSystem) (dir : Location) (name : WrittenPath) : Prop :=
  ∀ n slash e, fs.Reaches n dir [.into name] slash e → fs.HoldsFile e

section

variable {fs fs' : FileSystem} {spot dir : Location} {name : WrittenPath} {c : Contents}

theorem HoldsFile.not_directory {loc : Location} (h : fs.HoldsFile loc) :
    fs.get? loc ≠ some .directory := by
  obtain ⟨c, hc⟩ := h
  simp [hc]

/-- One walk to a file tells what the name leads to. -/
theorem leadsToFile_of_reaches {n : Nat} {slash : Bool} {e : Location}
    (h : fs.Reaches n dir [.into name] slash e) (he : fs.HoldsFile e) :
    fs.LeadsToFile dir name := by
  intro m s e' h'
  rw [← h.unique h']
  exact he

/-- A name that is not there leads nowhere. -/
theorem leadsToFile_of_none (h : fs.get? (dir ++ [name]) = none) : fs.LeadsToFile dir name := by
  intro n s e hr
  cases hr with
  | into _ _ hx _ _ => simp [h] at hx
  | link _ _ hx _ _ => simp [h] at hx

/-- A name that leads to a file and to nothing else is not the name of a directory. -/
theorem LeadsToFile.not_directory (h : fs.LeadsToFile dir name) (hdir : fs.get? dir = some .directory)
    (hname : name.size ≤ nameLimit) : fs.get? (dir ++ [name]) ≠ some .directory := by
  intro hx
  have hreach : fs.Reaches 0 dir [.into name] false (dir ++ [name]) :=
    .into hdir hname hx (by simp) (.done _ _ _ (by simp))
  exact (h _ _ _ hreach).not_directory hx

/-- A name that leads to a file leads nowhere beyond. -/
theorem LeadsToFile.eq_nil (h : fs.LeadsToFile dir name) {n : Nat} {rest : List Step} {slash : Bool}
    {e : Location} (hr : fs.Reaches n dir (.into name :: rest) slash e) :
    rest = [] ∧ slash = false ∧ fs.HoldsFile e := by
  cases rest with
  | nil =>
    have he := h n slash e hr
    refine ⟨rfl, ?_, he⟩
    cases slash with
    | false => rfl
    | true => exact absurd hr.directory he.not_directory
  | cons step rest =>
    have hcut : fs.Reaches n dir ([.into name] ++ step :: rest) slash e := hr
    obtain ⟨m, _, d, hd, hx, _⟩ := hcut.split (by simp)
    exact absurd hd (h n false d (hx false)).not_directory

theorem Replaced.directory_iff (h : Replaced fs fs' spot c)
    (hspot : fs.get? spot ≠ some .directory) {loc : Location} :
    fs'.get? loc = some .directory ↔ fs.get? loc = some .directory := by
  by_cases hl : loc = spot
  · subst hl
    simp [h.file, hspot]
  · rw [h.elsewhere loc hl]

/-- **A walk is still a walk**, to where it went or to the spot. -/
theorem Reaches.replaced (h : Replaced fs fs' (dir ++ [name]) c) (hname : fs.LeadsToFile dir name)
    (hspot : fs.get? (dir ++ [name]) ≠ some .directory) {n : Nat} {loc e : Location}
    {steps : List Step} {slash : Bool} (hr : fs.Reaches n loc steps slash e) :
    fs'.Reaches n loc steps slash e ∨
      (fs.HoldsFile e ∧ fs'.Reaches n loc steps slash (dir ++ [name])) := by
  induction hr with
  | done n loc slash hd =>
    exact .inl (.done n loc slash fun hs => (h.directory_iff hspot).mpr (hd hs))
  | here hd _ ih =>
    have hd' := (h.directory_iff hspot).mpr hd
    exact ih.imp (.here hd') fun ⟨he, hr⟩ => ⟨he, .here hd' hr⟩
  | up hd _ ih =>
    have hd' := (h.directory_iff hspot).mpr hd
    exact ih.imp (.up hd') fun ⟨he, hr⟩ => ⟨he, .up hd' hr⟩
  | @into n loc e other rest slash x hd hn hx hl _ ih =>
    have hd' := (h.directory_iff hspot).mpr hd
    obtain ⟨y, hy, hnot⟩ : ∃ y, fs'.get? (loc ++ [other]) = some y ∧ ∀ t, y ≠ .link t := by
      by_cases heq : loc ++ [other] = dir ++ [name]
      · exact ⟨_, heq ▸ h.file, by simp⟩
      · exact ⟨x, by rw [h.elsewhere _ heq, hx], hl⟩
    exact ih.imp (.into hd' hn hy hnot) fun ⟨he, hr⟩ => ⟨he, .into hd' hn hy hnot hr⟩
  | @link n loc e other target rest slash hd hn hx ht hrest ih =>
    have hd' := (h.directory_iff hspot).mpr hd
    by_cases heq : loc ++ [other] = dir ++ [name]
    · obtain ⟨rfl, hother⟩ := List.append_inj' heq rfl
      obtain rfl : other = name := by simpa using hother
      -- The link is replaced, so nothing may come behind it.
      obtain ⟨rfl, rfl, he⟩ := hname.eq_nil (.link hd hn hx ht hrest)
      exact .inr ⟨he, .into hd' hn h.file (by simp) (.done _ _ _ (by simp))⟩
    · have hx' : fs'.get? (loc ++ [other]) = some (.link target) := by rw [h.elsewhere _ heq, hx]
      exact ih.imp (.link hd' hn hx' ht) fun ⟨he, hr⟩ => ⟨he, .link hd' hn hx' ht hr⟩

/-- **A walk that does not end at the spot was a walk before.** -/
theorem Reaches.of_replaced (h : Replaced fs fs' spot c) {n : Nat} {loc e : Location}
    {steps : List Step} {slash : Bool} (hr : fs'.Reaches n loc steps slash e)
    (he : e = spot → fs.HoldsFile spot) : fs.Reaches n loc steps slash e := by
  have hdir {loc : Location} (hd : fs'.get? loc = some .directory) :
      fs.get? loc = some .directory := by
    have hl : loc ≠ spot := by
      rintro rfl
      simp [h.file] at hd
    rw [← h.elsewhere loc hl, hd]
  induction hr with
  | done n loc slash hd => exact .done n loc slash fun hs => hdir (hd hs)
  | here hd _ ih => exact .here (hdir hd) (ih he)
  | up hd _ ih => exact .up (hdir hd) (ih he)
  | @into n loc e other rest slash x hd hn hx hl hrest ih =>
    by_cases heq : loc ++ [other] = spot
    · have hend : e = spot := by
        have hnot : fs'.get? (loc ++ [other]) ≠ some .directory := by simp [heq, h.file]
        rw [(hrest.eq_of_not_directory hnot).2.2, heq]
      obtain ⟨c', hc'⟩ := he hend
      exact .into (hdir hd) hn (heq ▸ hc') (by simp) (ih he)
    · exact .into (hdir hd) hn (h.elsewhere _ heq ▸ hx) hl (ih he)
  | @link n loc e other target rest slash hd hn hx ht hrest ih =>
    have heq : loc ++ [other] ≠ spot := by
      intro heq
      simp [heq, h.file] at hx
    exact .link (hdir hd) hn (h.elsewhere _ heq ▸ hx) ht (ih he)

end

/-! ## 2. Routes -/

section

variable {fs fs' : FileSystem} {dir e : Location} {name : WrittenPath} {c : Contents} {r : Route}

theorem resolve?_eq_some : fs.resolve? r = some e ↔
    refusal? r = none ∧ fs.Reaches linkLimit (fs.origin r) r.steps r.slash e := by
  rw [← walk_find_iff, resolve?, locate]
  cases hr : refusal? r with
  | some _ => simp
  | none =>
    simp only [true_and]
    split
    · next loc hloc => rw [hloc]; simp
    · next hnot =>
      simp only [reduceCtorEq, false_iff]
      intro h
      exact hnot e h

theorem isFile_iff : fs.isFile r = true ↔ ∃ loc, fs.resolve? r = some loc ∧ fs.HoldsFile loc := by
  unfold isFile find? HoldsFile
  cases fs.resolve? r with
  | none => simp
  | some loc =>
    cases hx : fs.get? loc with
    | none => simp [hx]
    | some x => cases x <;> simp [hx]

theorem isDirectory_iff : fs.isDirectory r = true ↔
    ∃ loc, fs.resolve? r = some loc ∧ fs.get? loc = some .directory := by
  unfold isDirectory find?
  cases fs.resolve? r with
  | none => simp
  | some loc =>
    cases hx : fs.get? loc with
    | none => simp [hx]
    | some x => cases x <;> simp [hx]

theorem isEntry_iff : fs.isEntry r = true ↔
    ∃ loc x, fs.resolve? r = some loc ∧ fs.get? loc = some x := by
  unfold isEntry find?
  cases fs.resolve? r with
  | none => simp
  | some loc => simp [Option.isSome_iff_exists]

theorem readText_of_resolve? {text : String} (hr : fs.resolve? r = some e)
    (hc : fs.get? e = some (.file (.text text))) : fs.readText r = .ok text := by
  unfold resolve? at hr
  split at hr
  · next loc hloc =>
    obtain rfl : loc = e := by simpa using hr
    rw [readText, hloc]
    simp only [hc]
  · simp at hr

theorem readText_eq_ok {text : String} : fs.readText r = .ok text ↔
    ∃ e, fs.resolve? r = some e ∧ fs.get? e = some (.file (.text text)) := by
  constructor
  · intro h
    unfold readText at h
    unfold resolve?
    split at h
    · simp at h
    · simp at h
    · next loc hloc =>
      rw [hloc]
      split at h
      · next hc =>
        obtain rfl := Except.ok.inj h
        exact ⟨loc, rfl, hc⟩
      all_goals simp at h
  · rintro ⟨e, he, hc⟩
    exact readText_of_resolve? he hc

theorem readText_eq_notText {bytes : List UInt8} (hr : fs.resolve? r = some e)
    (hc : fs.get? e = some (.file (.binary bytes))) : fs.readText r = .error .notText := by
  unfold resolve? at hr
  split at hr
  · next loc hloc =>
    obtain rfl : loc = e := by simpa using hr
    rw [readText, hloc]
    simp only [hc]
  · simp at hr

/-- What a name that leads to a file is replaced by is found where the name is found, and all else is
found where it was. -/
structure Replaces (fs fs' : FileSystem) (dir : Location) (name : WrittenPath) (c : Contents) : Prop where
  replaced : Replaced fs fs' (dir ++ [name]) c
  leads : fs.LeadsToFile dir name
  notDirectory : fs.get? (dir ++ [name]) ≠ some .directory

variable (h : Replaces fs fs' dir name c)
include h

theorem Replaces.origin (r : Route) : fs'.origin r = fs.origin r := by
  rw [FileSystem.origin, FileSystem.origin, h.replaced.workingDirectory]

theorem Replaces.resolve? (hr : fs.resolve? r = some e) :
    fs'.resolve? r = some e ∨ (fs.HoldsFile e ∧ fs'.resolve? r = some (dir ++ [name])) := by
  obtain ⟨hok, hreach⟩ := resolve?_eq_some.mp hr
  simp only [resolve?_eq_some, h.origin r]
  exact (hreach.replaced h.replaced h.leads h.notDirectory).imp (fun hx => ⟨hok, hx⟩)
    fun ⟨he, hx⟩ => ⟨he, hok, hx⟩

theorem Replaces.of_resolve? (hr : fs'.resolve? r = some e)
    (he : e = dir ++ [name] → fs.HoldsFile (dir ++ [name])) : fs.resolve? r = some e := by
  obtain ⟨hok, hreach⟩ := resolve?_eq_some.mp hr
  rw [h.origin r] at hreach
  exact resolve?_eq_some.mpr ⟨hok, hreach.of_replaced h.replaced he⟩

theorem Replaces.holdsFile (he : fs.HoldsFile e) : fs'.HoldsFile e := by
  by_cases hl : e = dir ++ [name]
  · exact ⟨c, hl ▸ h.replaced.file⟩
  · obtain ⟨c', hc'⟩ := he
    exact ⟨c', by rw [h.replaced.elsewhere e hl, hc']⟩

theorem Replaces.isFile (hr : fs.isFile r = true) : fs'.isFile r = true := by
  obtain ⟨e, hre, he⟩ := isFile_iff.mp hr
  rw [isFile_iff]
  rcases h.resolve? hre with h' | ⟨_, h'⟩
  · exact ⟨e, h', h.holdsFile he⟩
  · exact ⟨_, h', c, h.replaced.file⟩

/-- A route that names a file now, and not for the first time at the spot, named a file before. -/
theorem Replaces.of_isFile (hr : fs'.isFile r = true) (hspot : fs.HoldsFile (dir ++ [name])) :
    fs.isFile r = true := by
  obtain ⟨e, hre, he⟩ := isFile_iff.mp hr
  refine isFile_iff.mpr ⟨e, h.of_resolve? hre fun _ => hspot, ?_⟩
  by_cases hl : e = dir ++ [name]
  · rw [hl]
    exact hspot
  · obtain ⟨c', hc'⟩ := he
    exact ⟨c', by rw [← h.replaced.elsewhere e hl, hc']⟩

/-- **The ways to directories stay what they are.** -/
theorem Replaces.reaches_iff {n : Nat} {loc e : Location} {steps : List Step} {slash : Bool} :
    (fs'.Reaches n loc steps slash e ∧ fs'.get? e = some .directory) ↔
      (fs.Reaches n loc steps slash e ∧ fs.get? e = some .directory) := by
  constructor
  · rintro ⟨hre, he⟩
    have hl : e ≠ dir ++ [name] := by
      rintro rfl
      simp [h.replaced.file] at he
    exact ⟨hre.of_replaced h.replaced fun heq => absurd heq hl,
      by rw [← h.replaced.elsewhere e hl, he]⟩
  · rintro ⟨hre, he⟩
    have hl : e ≠ dir ++ [name] := by
      rintro rfl
      exact h.notDirectory he
    rcases hre.replaced h.replaced h.leads h.notDirectory with h' | ⟨hfile, _⟩
    · exact ⟨h', by rw [h.replaced.elsewhere e hl, he]⟩
    · exact absurd he hfile.not_directory

theorem Replaces.directory {r : Route} {e : Location} :
    (fs'.resolve? r = some e ∧ fs'.get? e = some .directory) ↔
      (fs.resolve? r = some e ∧ fs.get? e = some .directory) := by
  simp only [resolve?_eq_some, h.origin r, and_assoc, h.reaches_iff]

theorem Replaces.isDirectory (r : Route) : fs'.isDirectory r = fs.isDirectory r := by
  rw [Bool.eq_iff_iff, isDirectory_iff, isDirectory_iff]
  exact exists_congr fun _ => h.directory

theorem Replaces.isEntry (hr : fs.isEntry r = true) : fs'.isEntry r = true := by
  obtain ⟨e, x, hre, he⟩ := isEntry_iff.mp hr
  rw [isEntry_iff]
  rcases h.resolve? hre with h' | ⟨_, h'⟩
  · by_cases hl : e = dir ++ [name]
    · exact ⟨e, _, h', hl ▸ h.replaced.file⟩
    · exact ⟨e, x, h', by rw [h.replaced.elsewhere e hl, he]⟩
  · exact ⟨_, _, h', h.replaced.file⟩

theorem Replaces.absolute (path : WrittenPath) : fs'.absolute path = fs.absolute path := by
  rw [FileSystem.absolute, FileSystem.absolute, workingPath, workingPath,
    h.replaced.workingDirectory]

theorem Replaces.directoryOf (p : Path) : fs'.directoryOf p = fs.directoryOf p := by
  rw [FileSystem.directoryOf, FileSystem.directoryOf, h.isDirectory]

end

end Tsconfig.FileSystem
