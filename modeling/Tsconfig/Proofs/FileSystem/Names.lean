/-
# Names that are not followed

Removing and renaming act on the name that a route ends in, and leave alone what a link of that name
points to.  Where that name lies is said by `nameOf_eq_ok`, and `named?` is the entry that has it.

A route that names no entry is followed to a free name in a directory or not at all
(`locate_of_named?_eq_none`).  A file that is made there is new (`createFile_of_named?_eq_none`), and
there is nothing to remove (`removeFile_of_named?_eq_none`).  Where a file takes the name that a route
ends in (`TakesName`), the route still names it unless the way to the directory led through the entry
that was there before (`TakesName.named?_iff`).
-/
import Tsconfig.Proofs.FileSystem.Change

namespace Tsconfig.FileSystem

/-! ## 1. Where a name lies -/

section

variable {fs fs' : FileSystem} {r : Route} {dir : Location} {name : WrittenPath} {c : Contents}

/-- **A name lies in the directory that the steps before it lead to.** -/
theorem nameOf_eq_ok : fs.nameOf r = .ok (dir, name) ↔
    refusal? r = none ∧ fs.Reaches linkLimit (fs.origin r) r.steps.dropLast false dir ∧
      fs.get? dir = some .directory ∧ r.steps.getLast? = some (.into name) ∧
      name.size ≤ nameLimit := by
  rw [← walk_find_iff]
  unfold nameOf
  constructor
  · intro h
    split at h
    · simp at h
    · next hok =>
      split at h
      · simp at h
      · simp at h
      · next loc hwalk =>
        split at h
        · next last hd hlast =>
          split at h
          · simp at h
          · next hn =>
            obtain ⟨rfl, rfl⟩ : loc = dir ∧ last = name := by simpa using h
            exact ⟨hok, hwalk, hd, hlast, by omega⟩
        · simp at h
        · simp at h
  · rintro ⟨hok, hwalk, hd, hlast, hn⟩
    have hlen : ¬ nameLimit < name.size := by omega
    simp only [hok, hwalk, hd, hlast, if_neg hlen]

theorem eq_dropLast_append {steps : List Step} {last : Step} (h : steps.getLast? = some last) :
    steps = steps.dropLast ++ [last] := by
  obtain ⟨front, rfl⟩ := List.getLast?_eq_some_iff.mp h
  rw [List.dropLast_concat]

/-- A route to an entry that ends in a name has that name in a directory. -/
theorem exists_nameOf {e : Location} (hlast : r.steps.getLast? = some (.into name))
    (h : fs.resolve? r = some e) : ∃ dir, fs.nameOf r = .ok (dir, name) := by
  obtain ⟨hok, hreach⟩ := resolve?_eq_some.mp h
  rw [eq_dropLast_append hlast] at hreach
  obtain ⟨_, _, dir, hdir, hfront, hend⟩ := hreach.split (by simp)
  have hn : name.size ≤ nameLimit := by
    cases hend with
    | into _ hn _ _ _ => exact hn
    | link _ hn _ _ _ => exact hn
  exact ⟨dir, nameOf_eq_ok.mpr ⟨hok, hfront false, hdir, hlast, hn⟩⟩

/-- A file that is put where no directory was leaves every name where it lies. -/
theorem Replaces.nameOf_iff (h : Replaces fs fs' dir name c) {x : Location × WrittenPath} :
    fs'.nameOf r = .ok x ↔ fs.nameOf r = .ok x := by
  obtain ⟨d, last⟩ := x
  rw [nameOf_eq_ok, nameOf_eq_ok, h.origin]
  constructor
  · rintro ⟨hok, hreach, hd, hrest⟩
    obtain ⟨hreach', hd'⟩ := h.reaches_iff.mp ⟨hreach, hd⟩
    exact ⟨hok, hreach', hd', hrest⟩
  · rintro ⟨hok, hreach, hd, hrest⟩
    obtain ⟨hreach', hd'⟩ := h.reaches_iff.mpr ⟨hreach, hd⟩
    exact ⟨hok, hreach', hd', hrest⟩

/-! ## 2. The entry that has a name -/

/-- The entry that a route names.  A link that the route ends in is not followed, unless a slash after
it asks for the directory that it points to. -/
def named? (fs : FileSystem) (r : Route) : Option Entry :=
  match fs.nameOf r with
  | .ok (dir, name) => if r.slash then fs.find? r else fs.get? (dir ++ [name])
  | .error _ => fs.find? r

theorem named?_of_nameOf (h : fs.nameOf r = .ok (dir, name)) (hslash : r.slash = false) :
    fs.named? r = fs.get? (dir ++ [name]) := by
  rw [named?, h]
  simp [hslash]

theorem named?_eq_find? (h : ∀ name, r.steps.getLast? ≠ some (.into name)) :
    fs.named? r = fs.find? r := by
  unfold named?
  split
  · next dir name hname => exact absurd (nameOf_eq_ok.mp hname).2.2.2.1 (h name)
  · rfl

/-- A route that ends in a name names an entry only where that name lies. -/
theorem named?_eq_some {x : Entry} (hlast : r.steps.getLast? = some (.into name))
    (hslash : r.slash = false) : fs.named? r = some x ↔
      ∃ dir, fs.nameOf r = .ok (dir, name) ∧ fs.get? (dir ++ [name]) = some x := by
  constructor
  · intro h
    unfold named? at h
    split at h
    · next dir other hname =>
      obtain rfl : name = other := by
        simpa using hlast.symm.trans (nameOf_eq_ok.mp hname).2.2.2.1
      rw [hslash] at h
      exact ⟨dir, hname, h⟩
    · next cause hname =>
      obtain ⟨e, he, _⟩ := Option.bind_eq_some_iff.mp h
      obtain ⟨dir, hname'⟩ := exists_nameOf hlast he
      simp [hname] at hname'
  · rintro ⟨dir, hname, hx⟩
    rw [named?_of_nameOf hname hslash, hx]

/-! ## 3. Routes that name no entry -/

/-- A lookup whose last step is no name ends at an entry, whatever it is for. -/
theorem exists_reaches_of_walk {purpose : Purpose} {n : Nat} {loc : Location} {steps : List Step}
    {slash : Bool} {x : End} (hlast : ∀ name, steps.getLast? ≠ some (.into name))
    (h : fs.walk purpose n loc steps slash = .ok x) :
    ∃ e, x = .entry e ∧ fs.Reaches n loc steps slash e := by
  -- Without a name in front, a lookup for one purpose is a lookup for the other.
  have hnil {m : Nat} {d : Location} (h : fs.walk purpose m d [] slash = .ok x) :
      ∃ e, x = .entry e ∧ fs.walk .find m d [] slash = .ok (.entry e) := by
    rw [walk_nil] at h ⊢
    split at h
    · simp at h
    · next hs => exact ⟨d, (Except.ok.inj h).symm, if_neg hs⟩
  rcases List.eq_nil_or_concat steps with rfl | ⟨front, last, rfl⟩
  · obtain ⟨e, hx, hfind⟩ := hnil h
    exact ⟨e, hx, walk_find_iff.mp hfind⟩
  · rw [List.concat_eq_append] at hlast h ⊢
    obtain ⟨d, hd, hfront⟩ := exists_directory_of_walk (by simp) h
    obtain ⟨m, hm⟩ := walk_append (hfront slash) hd
    rw [hm _ _ _ (by simp)] at h
    have hend : ∃ e, x = .entry e ∧ fs.walk .find m d [last] slash = .ok (.entry e) := by
      cases last with
      | here =>
        rw [walk_here hd] at h ⊢
        exact hnil h
      | up =>
        rw [walk_up hd] at h ⊢
        exact hnil h
      | into name => simp at hlast
    obtain ⟨e, hx, hfind⟩ := hend
    exact ⟨e, hx, walk_find_iff.mp ((hm .find _ _ (by simp)).trans hfind)⟩

/-- **Where a route that names no entry is opened**: at a free name, or at a place where there is
nothing. -/
theorem locate_of_named?_eq_none {x : End} (hnone : fs.named? r = none)
    (h : fs.locate .create r = .ok x) :
    (∃ loc, x = .entry loc ∧ fs.get? loc = none) ∨
      ∃ dir name, x = .free dir name ∧ fs.nameOf r = .ok (dir, name) ∧ r.slash = false := by
  obtain ⟨hok, hwalk⟩ : refusal? r = none ∧
      fs.walk .create linkLimit (fs.origin r) r.steps r.slash = .ok x := by
    unfold locate at h
    split at h
    · simp at h
    · next hok => exact ⟨hok, h⟩
  by_cases hlast : ∃ name, r.steps.getLast? = some (.into name)
  · obtain ⟨name, hlast⟩ := hlast
    refine .inr ?_
    rw [eq_dropLast_append hlast] at hwalk
    obtain ⟨d, hd, hfront⟩ := exists_directory_of_walk (by simp) hwalk
    obtain ⟨m, hm⟩ := walk_append (hfront false) hd
    rw [hm _ _ _ (by simp)] at hwalk
    obtain ⟨_, hn, hallowed, _⟩ := walk_cons_eq_ok hwalk
    have hslash : r.slash = false := by
      rw [Bool.eq_false_iff]
      exact fun hslash => hallowed ⟨rfl, hslash, rfl⟩
    have hname : fs.nameOf r = .ok (d, name) :=
      nameOf_eq_ok.mpr ⟨hok, hfront false, hd, hlast, hn⟩
    have hfree : fs.get? (d ++ [name]) = none := (named?_of_nameOf hname hslash).symm.trans hnone
    rw [hslash, walk_free hd hn hfree] at hwalk
    exact ⟨d, name, (Except.ok.inj hwalk).symm, hname, hslash⟩
  · have hlast' : ∀ name, r.steps.getLast? ≠ some (.into name) := fun name h => hlast ⟨name, h⟩
    obtain ⟨e, hx, hreach⟩ := exists_reaches_of_walk hlast' hwalk
    rw [named?_eq_find? hlast', find?, resolve?_eq_some.mpr ⟨hok, hreach⟩] at hnone
    exact .inl ⟨e, hx, hnone⟩

/-- **A file that is made where no entry is named is new**, and lies under the name of its route. -/
theorem createFile_of_named?_eq_none (hnone : fs.named? r = none)
    (h : fs.createFile r c = .ok fs') : ∃ dir name,
      fs.nameOf r = .ok (dir, name) ∧ r.slash = false ∧ fs.get? (dir ++ [name]) = none ∧
        fs' = fs.put (dir ++ [name]) (.file c) := by
  unfold createFile at h
  split at h
  · simp at h
  · next d last hend =>
    rcases locate_of_named?_eq_none hnone hend with ⟨loc, hx, _⟩ | ⟨dir, name, hx, hname, hslash⟩
    · simp at hx
    · obtain ⟨rfl, rfl⟩ : d = dir ∧ last = name := by simpa using hx
      have hfree := (named?_of_nameOf hname hslash).symm.trans hnone
      exact ⟨d, last, hname, hslash, hfree, (Except.ok.inj h).symm⟩
  · next loc hend =>
    rcases locate_of_named?_eq_none hnone hend with ⟨loc', hx, hget⟩ | ⟨dir, name, hx, _⟩
    · obtain rfl : loc = loc' := by simpa using hx
      simp [hget] at h
    · simp at hx

/-- Where no entry is named there is nothing to remove. -/
theorem removeFile_of_named?_eq_none (hnone : fs.named? r = none) : fs.removeFile r = fs := by
  unfold removeFile
  split
  · rfl
  · next dir name hname =>
    cases hslash : r.slash with
    | true => split <;> rfl
    | false =>
      rw [(named?_of_nameOf hname hslash).symm.trans hnone]

/-! ## 4. Taking a name -/

/-- A file has taken the name that a route ends in, and nothing else has changed. -/
structure TakesName (fs fs' : FileSystem) (r : Route) (dir : Location) (name : WrittenPath)
    (c : Contents) : Prop where
  nameOf : fs.nameOf r = .ok (dir, name)
  slash : r.slash = false
  notDirectory : fs.get? (dir ++ [name]) ≠ some .directory
  replaced : Replaced fs fs' (dir ++ [name]) c

/-- What replaces an entry replaces it as if there had been none. -/
theorem Replaced.replaces_erase (h : Replaced fs fs' (dir ++ [name]) c) :
    Replaces (fs.erase (dir ++ [name])) fs' dir name c := by
  have hgone : (fs.erase (dir ++ [name])).get? (dir ++ [name]) = none := by
    rw [get?_erase _ _ _ (by simp), if_pos rfl]
  refine ⟨⟨h.file, fun loc hne => ?_, h.workingDirectory⟩, leadsToFile_of_none hgone, by simp [hgone]⟩
  by_cases hloc : loc = []
  · simp [hloc, get?]
  · rw [h.elsewhere loc hne, get?_erase _ _ _ hloc, if_neg hne]

/-- A name that lies somewhere once an entry has been replaced has been there before. -/
theorem Replaced.nameOf_of {x : Location × WrittenPath} (h : Replaced fs fs' (dir ++ [name]) c)
    (hx : fs'.nameOf r = .ok x) : fs.nameOf r = .ok x := by
  obtain ⟨d, last⟩ := x
  obtain ⟨hok, hreach, hd, hrest⟩ := nameOf_eq_ok.mp hx
  have hne : d ≠ dir ++ [name] := by
    rintro rfl
    simp [h.file] at hd
  have horigin : fs'.origin r = fs.origin r := by
    rw [origin, origin, h.workingDirectory]
  rw [horigin] at hreach
  refine nameOf_eq_ok.mpr ⟨hok, hreach.of_replaced h fun heq => absurd heq hne, ?_, hrest⟩
  rw [← h.elsewhere d hne, hd]

/-- **The route names the file just if it leads to the directory without the entry that the file has
replaced.** -/
theorem TakesName.named?_iff (h : TakesName fs fs' r dir name c) :
    fs'.named? r = some (.file c) ↔
      (fs.erase (dir ++ [name])).nameOf r = .ok (dir, name) := by
  have hlast : r.steps.getLast? = some (.into name) := (nameOf_eq_ok.mp h.nameOf).2.2.2.1
  rw [named?_eq_some hlast h.slash, ← h.replaced.replaces_erase.nameOf_iff]
  constructor
  · rintro ⟨d, hname, _⟩
    obtain rfl : dir = d := by simpa using h.nameOf.symm.trans (h.replaced.nameOf_of hname)
    exact hname
  · intro hname
    exact ⟨dir, hname, h.replaced.file⟩

/-- What led to no directory has not been on the way. -/
theorem TakesName.named?_of_leadsToFile (h : TakesName fs fs' r dir name c)
    (hleads : fs.LeadsToFile dir name) : fs'.named? r = some (.file c) := by
  have hrep : Replaces fs fs' dir name c := ⟨h.replaced, hleads, h.notDirectory⟩
  rw [named?_of_nameOf (hrep.nameOf_iff.mpr h.nameOf) h.slash]
  exact h.replaced.file

end

end Tsconfig.FileSystem
