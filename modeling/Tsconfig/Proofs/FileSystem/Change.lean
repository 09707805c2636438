/-
# What a change touches

A file that is made or overwritten is put where its route leads (`createFile_eq_ok`).  That is a free
name or the place of a file, so that every route to a directory stays what it is (`replaces_put`).
Removing and renaming act on a name in a directory and look no further (`removeFile_child`,
`rename_eq_ok`).  What is put somewhere by way of a free name leaves nothing there (`replaced_moved`).
-/
import Tsconfig.Proofs.FileSystem.Lookup

namespace Tsconfig.FileSystem

/-! ## 1. Putting and erasing -/

section

variable {fs fs' : FileSystem} {dir loc : Location} {name : WrittenPath} {c : Contents}

theorem map_fst_setEntry (es : List (Location × Entry)) (loc : Location) (x : Entry) :
    (setEntry es loc x).map Prod.fst =
      if loc ∈ es.map Prod.fst then es.map Prod.fst else es.map Prod.fst ++ [loc] := by
  induction es with
  | nil => rfl
  | cons e es ih =>
    obtain ⟨l, old⟩ := e
    by_cases hl : l = loc
    · simp [setEntry, hl]
    · rw [setEntry, if_neg hl, List.map_cons, ih]
      by_cases hmem : loc ∈ es.map Prod.fst
      · simp [hmem]
      · simp [hmem, Ne.symm hl]

theorem entryAt_eq_none {es : List (Location × Entry)} :
    entryAt es loc = none ↔ loc ∉ es.map Prod.fst := by
  induction es with
  | nil => simp [entryAt]
  | cons e es ih =>
    obtain ⟨l, x⟩ := e
    by_cases hl : l = loc
    · simp [entryAt, hl]
    · simp [entryAt, hl, Ne.symm hl, ih]

theorem get?_eq_none (h : loc ≠ []) : fs.get? loc = none ↔ loc ∉ fs.entries.map Prod.fst := by
  rw [get?, if_neg h, entryAt_eq_none]

/-- What is put where nothing was and taken away again has left no trace. -/
theorem erase_put (hloc : loc ≠ []) (h : fs.get? loc = none) (x : Entry) :
    (fs.put loc x).erase loc = fs := by
  have hfree : loc ∉ fs.entries.map Prod.fst := (get?_eq_none hloc).mp h
  have hput (es : List (Location × Entry)) (hes : loc ∉ es.map Prod.fst) :
      setEntry es loc x = es ++ [(loc, x)] := by
    induction es with
    | nil => rfl
    | cons e es ih =>
      obtain ⟨l, old⟩ := e
      simp only [List.map_cons, List.mem_cons, not_or] at hes
      rw [setEntry, if_neg (Ne.symm hes.1), ih hes.2, List.cons_append]
  have hkeep : fs.entries.filter (fun e => e.1 ≠ loc) = fs.entries := by
    rw [List.filter_eq_self]
    intro e hmem
    simp only [decide_eq_true_eq]
    rintro rfl
    exact hfree (List.mem_map_of_mem hmem)
  have hentries : (setEntry fs.entries loc x).filter (fun e => e.1 ≠ loc) = fs.entries := by
    rw [hput _ hfree, List.filter_append, hkeep]
    simp
  simp only [erase, put, hentries]

/-- What is at a location after something has been put elsewhere by way of another location. -/
theorem get?_moved {source spot other : Location} (hs : source ≠ []) (hp : spot ≠ [])
    (ho : other ≠ []) (x y : Entry) : (((fs.put source x).put spot y).erase source).get? other =
      if other = source then none else if other = spot then some y else fs.get? other := by
  rw [get?_erase _ _ _ ho, get?_put _ hp, get?_put _ hs]
  by_cases hsource : other = source
  · simp [hsource]
  · rw [if_neg hsource, if_neg hsource, if_neg (Ne.symm hsource)]
    by_cases hspot : other = spot
    · simp [hspot]
    · rw [if_neg hspot, if_neg (Ne.symm hspot)]

/-- **A file that is put somewhere by way of a free location replaces what is there**, and nothing is
left at the free location. -/
theorem replaced_moved {source spot : Location} (hs : source ≠ []) (hp : spot ≠ [])
    (hne : source ≠ spot) (hfree : fs.get? source = none) (x : Entry) :
    Replaced fs (((fs.put source x).put spot (.file c)).erase source) spot c := by
  refine ⟨?_, fun loc hloc => ?_, rfl⟩
  · rw [get?_moved hs hp hp, if_neg hne.symm, if_pos rfl]
  · by_cases hnil : loc = []
    · simp [hnil, get?]
    · rw [get?_moved hs hp hnil, if_neg hloc]
      split
      · next h => rw [h, hfree]
      · rfl

/-- A file can be put at a location: there is none of another kind. -/
def Spare (fs : FileSystem) (loc : Location) : Prop := fs.get? loc = none ∨ fs.HoldsFile loc

theorem leadsToFile_of_holdsFile (h : fs.HoldsFile (dir ++ [name])) : fs.LeadsToFile dir name := by
  obtain ⟨c, hc⟩ := h
  intro n slash e hr
  cases hr with
  | into _ _ _ _ hrest =>
    cases hrest
    exact ⟨c, hc⟩
  | link _ _ hx _ _ => simp [hc] at hx

theorem Spare.leadsToFile (h : fs.Spare (dir ++ [name])) : fs.LeadsToFile dir name :=
  h.elim leadsToFile_of_none leadsToFile_of_holdsFile

theorem Spare.not_directory {loc : Location} (h : fs.Spare loc) : fs.get? loc ≠ some .directory := by
  rcases h with hnone | hfile
  · simp [hnone]
  · exact hfile.not_directory

/-- A file that is put at a location. -/
theorem replaced_put {loc : Location} (h : loc ≠ []) (c : Contents) :
    Replaced fs (fs.put loc (.file c)) loc c := by
  refine ⟨?_, fun other hne => ?_, rfl⟩
  · rw [get?_put fs h, if_pos rfl]
  · rw [get?_put fs h, if_neg (Ne.symm hne)]

theorem replaces_put (h : fs.Spare (dir ++ [name])) (c : Contents) :
    Replaces fs (fs.put (dir ++ [name]) (.file c)) dir name c :=
  ⟨replaced_put (by simp) c, h.leadsToFile, h.not_directory⟩

/-! ## 2. Making a file -/

/-- A name that a lookup finds free is free. -/
theorem walk_eq_free {purpose : Purpose} {n : Nat} {steps : List Step} {slash : Bool}
    (h : fs.walk purpose n loc steps slash = .ok (.free dir name)) :
    fs.get? (dir ++ [name]) = none := by
  induction n using Nat.strongRecOn generalizing loc steps slash with
  | _ n ihn =>
  induction steps generalizing loc with
  | nil =>
    rw [walk_nil] at h
    split at h <;> simp at h
  | cons step rest ih =>
    obtain ⟨_, hstep⟩ := walk_cons_eq_ok h
    cases step with
    | here => exact ih hstep
    | up => exact ih hstep
    | into other =>
      obtain ⟨_, _, ⟨hfree, _, _, hend⟩ | ⟨_, _, _, hrest⟩ | ⟨_, k, rfl, _, _, hrest⟩⟩ := hstep
      · obtain ⟨rfl, rfl⟩ : dir = loc ∧ name = other := by simpa using hend
        exact hfree
      · exact ih hrest
      · exact ihn k (by omega) hrest

/-- Where a file is opened for writing: at the entry that is found, or at the free name. -/
def openedAt? (fs : FileSystem) (r : Route) : Option Location :=
  match fs.locate .create r with
  | .ok (.entry loc) => some loc
  | .ok (.free dir name) => some (dir ++ [name])
  | .error _ => none

/-- **A file is made or overwritten where it is opened**, and nothing of another kind was there. -/
theorem createFile_eq_ok {r : Route} (h : fs.createFile r c = .ok fs') : ∃ dir name,
    fs.openedAt? r = some (dir ++ [name]) ∧ fs.Spare (dir ++ [name]) ∧
      fs' = fs.put (dir ++ [name]) (.file c) := by
  unfold createFile at h
  unfold openedAt?
  split at h
  · simp at h
  · next dir name hend =>
    have hfree : fs.get? (dir ++ [name]) = none := by
      unfold locate at hend
      split at hend
      · simp at hend
      · exact walk_eq_free hend
    rw [hend]
    exact ⟨dir, name, rfl, .inl hfree, (Except.ok.inj h).symm⟩
  · next loc hend =>
    rw [hend]
    split at h
    · next old hold =>
      have hne : loc ≠ [] := by
        rintro rfl
        simp [get?] at hold
      have hsplit := List.dropLast_concat_getLast hne
      refine ⟨loc.dropLast, loc.getLast hne, ?_, ?_, ?_⟩
      · rw [hsplit]
      · rw [hsplit]
        exact .inr ⟨old, hold⟩
      · rw [hsplit]
        exact (Except.ok.inj h).symm
    · simp at h

/-! ## 3. Giving a name -/

/-- What a name has been given to, and what had it before: no directory. -/
theorem rename_eq_ok {source target : Route} (h : fs.rename source target = .ok fs') :
    ∃ dir name dir' name' x, fs.nameOf source = .ok (dir, name) ∧
      fs.nameOf target = .ok (dir', name') ∧ source.slash = false ∧ target.slash = false ∧
      fs.get? (dir ++ [name]) = some x ∧ fs.get? (dir' ++ [name']) ≠ some .directory ∧
      fs' = if dir ++ [name] = dir' ++ [name'] then fs
        else (fs.put (dir' ++ [name']) x).erase (dir ++ [name]) := by
  unfold rename at h
  split at h
  · simp at h
  · next dir name hsource =>
    split at h
    · simp at h
    · next dir' name' htarget =>
      split at h
      · simp at h
      · simp at h
      · next x hnot hx =>
        split at h
        · simp at h
        · next hslash =>
          obtain ⟨hs, ht⟩ : source.slash = false ∧ target.slash = false := by simpa using hslash
          split at h
          · simp at h
          · next hdir =>
            refine ⟨dir, name, dir', name', x, hsource, htarget, hs, ht, hx, hdir, ?_⟩
            split at h
            · next heq => rw [if_pos heq, Except.ok.inj h]
            · next hne => rw [if_neg hne, Except.ok.inj h]

end

/-! ## 4. Names in a directory -/

section

variable {fs fs' : FileSystem} {dir : Path} {D : Location} {name : WrittenPath}
  (hD : fs.resolve? dir.route = some D) (hdir : fs.get? D = some .directory)
include hD hdir

/-- A file of a directory is opened under its name, unless there is a directory or a link. -/
theorem openedAt?_child (hr : refusal? (dir.child name).route = none)
    (hn : name.size ≤ nameLimit) (hspare : fs.Spare (D ++ [name])) :
    fs.openedAt? (dir.child name).route = some (D ++ [name]) := by
  obtain ⟨m, hm⟩ := locate_child hD hdir .create hr
  unfold openedAt?
  rw [hm]
  rcases hspare with hnone | ⟨c, hc⟩
  · rw [walk_free hdir hn hnone]
  · have hallowed : Allowed .create [] false := by simp [Allowed]
    rw [walk_into hdir hn hc (by simp) hallowed, walk_nil]
    simp

/-- A file is made, or overwritten, under its name. -/
theorem createFile_child (hr : refusal? (dir.child name).route = none)
    (hn : name.size ≤ nameLimit) (hspare : fs.Spare (D ++ [name]))
    (c : Contents) :
    fs.createFile (dir.child name).route c = .ok (fs.put (D ++ [name]) (.file c)) := by
  obtain ⟨m, hm⟩ := locate_child hD hdir .create hr
  rw [createFile, hm]
  rcases hspare with hnone | ⟨old, hold⟩
  · rw [walk_free hdir hn hnone]
  · have hallowed : Allowed .create [] false := by simp [Allowed]
    rw [walk_into hdir hn hold (by simp) hallowed, walk_nil]
    simp [hold]

/-- A directory is not overwritten. -/
theorem createFile_child_of_directory (hr : refusal? (dir.child name).route = none)
    (hn : name.size ≤ nameLimit) (hx : fs.get? (D ++ [name]) = some .directory)
    (c : Contents) : fs.createFile (dir.child name).route c = .error .isDirectory := by
  obtain ⟨m, hm⟩ := locate_child hD hdir .create hr
  have hallowed : Allowed .create [] false := by simp [Allowed]
  rw [createFile, hm, walk_into hdir hn hx (by simp) hallowed, walk_nil]
  simp [hx]

theorem eq_of_nameOf_child (hn : name.size ≤ nameLimit) {x : Location × WrittenPath}
    (h : fs.nameOf (dir.child name).route = .ok x) : x = (D, name) := by
  cases hr : refusal? (dir.child name).route with
  | none => exact Except.ok.inj (h.symm.trans (nameOf_child hD hdir hr hn))
  | some e => simp [nameOf, hr] at h

/-- Removing a name takes a file or a link away and does nothing else. -/
theorem removeFile_child (hn : name.size ≤ nameLimit) :
    fs.removeFile (dir.child name).route = fs ∨
      (fs.removeFile (dir.child name).route = fs.erase (D ++ [name]) ∧
        ∃ x, fs.get? (D ++ [name]) = some x ∧ x ≠ .directory) := by
  unfold removeFile
  split
  · exact .inl rfl
  · next loc other hname =>
    obtain ⟨rfl, rfl⟩ : loc = D ∧ other = name := by
      simpa using eq_of_nameOf_child hD hdir hn hname
    have hslash : (dir.child other).route.slash = false := rfl
    rw [hslash]
    split
    · next c hc => exact .inr ⟨rfl, _, hc, by simp⟩
    · next target hc => exact .inr ⟨rfl, _, hc, by simp⟩
    · exact .inl rfl

/-- A file or link is taken away under its name. -/
theorem removeFile_child_of_get? (hr : refusal? (dir.child name).route = none)
    (hn : name.size ≤ nameLimit) {x : Entry} (hx : fs.get? (D ++ [name]) = some x)
    (hnot : x ≠ .directory) : fs.removeFile (dir.child name).route = fs.erase (D ++ [name]) := by
  have hslash : (dir.child name).route.slash = false := rfl
  rw [removeFile, nameOf_child hD hdir hr hn]
  simp only [hx, hslash]
  cases x with
  | directory => exact absurd rfl hnot
  | file c => rfl
  | link target => rfl

/-- A name that is given to what has another name in the same directory. -/
theorem rename_child_eq_ok {other : WrittenPath} (hn : name.size ≤ nameLimit)
    (ho : other.size ≤ nameLimit) (hne : D ++ [name] ≠ D ++ [other])
    (h : fs.rename (dir.child name).route (dir.child other).route = .ok fs') :
    ∃ x, fs.get? (D ++ [name]) = some x ∧ fs' = (fs.put (D ++ [other]) x).erase (D ++ [name]) := by
  obtain ⟨loc, source, loc', target, x, hsource, htarget, _, _, hx, _, hfs⟩ := rename_eq_ok h
  obtain ⟨rfl, rfl⟩ : loc = D ∧ source = name := by
    simpa using eq_of_nameOf_child hD hdir hn hsource
  obtain ⟨rfl, rfl⟩ : loc' = loc ∧ target = other := by
    simpa using eq_of_nameOf_child hD hdir ho htarget
  exact ⟨x, hx, hfs.trans (if_neg hne)⟩

end

end Tsconfig.FileSystem
