/-
# Walks of a directory and of one below it

A walk takes the names of a directory one after the other, and what it finds behind a name begins with the
name (`exists_eq_cons_of_mem_listEntry`).  So it finds **each way once**, as long as a location has one entry
(`nodup_listFiles`).

A file further down is found by way of every directory in between (`exists_listFrom_append`).  A walk that
begins in such a directory has fewer directories behind it that a link could lead back to, and more depth
left, so it goes at least as far (`mem_listFrom_below`): **what is found behind a directory is found from
it** (`mem_listFiles_below`).
-/
import Mathlib.Data.List.Nodup
import Tsconfig.Proofs.Glob.Selected

namespace Tsconfig.Glob

open FileSystem

/-! ## 1. The files behind a name -/

section

variable {fs : FileSystem} {base : Path} {depth : Nat} {passed : List Location} {way found : Way}
  {dir : Location} {name : WrittenPath}

/-- The files behind one name of a directory. -/
def listEntry (fs : FileSystem) (base : Path) (depth : Nat) (passed : List Location) (way : Way)
    (dir : Location) (name : WrittenPath) : List Way :=
  match kindOf fs base (way ++ [name]) (dir ++ [name]) with
  | .file => [way ++ [name]]
  | .other => []
  | .directory target =>
    if (isLink fs (dir ++ [name]) && passed.contains target) ||
        (pathBelow base (way ++ [name])).route.isTooLong then []
    else listFrom fs base depth (target :: passed) (way ++ [name]) target

theorem listFrom_succ (fs : FileSystem) (base : Path) (depth : Nat) (passed : List Location) (way : Way)
    (dir : Location) : listFrom fs base (depth + 1) passed way dir =
      (fs.namesIn dir).flatMap (listEntry fs base depth passed way dir) := rfl

/-- What is behind a name is the file itself or is listed below the directory. -/
theorem mem_listEntry : found ∈ listEntry fs base depth passed way dir name ↔
    (kindOf fs base (way ++ [name]) (dir ++ [name]) = .file ∧ found = way ++ [name]) ∨
    ∃ target, kindOf fs base (way ++ [name]) (dir ++ [name]) = .directory target ∧
      (isLink fs (dir ++ [name]) = true → target ∉ passed) ∧
      (pathBelow base (way ++ [name])).route.isTooLong = false ∧
      found ∈ listFrom fs base depth (target :: passed) (way ++ [name]) target := by
  unfold listEntry
  cases hk : kindOf fs base (way ++ [name]) (dir ++ [name]) with
  | file => simp
  | other => simp
  | directory target =>
    simp only [reduceCtorEq, false_and, false_or, Kind.directory.injEq, exists_eq_left']
    split
    · next hcond =>
      simp only [List.not_mem_nil, false_iff]
      rintro ⟨hpassed, hlong, -⟩
      simp [hlong] at hcond
      exact hpassed hcond.1 hcond.2
    · next hcond =>
      rw [Bool.or_eq_true, not_or, Bool.not_eq_true, Bool.not_eq_true] at hcond
      simp only [hcond.2, true_and]
      refine (and_iff_right ?_).symm
      simpa using hcond.1

theorem mem_listFrom_succ : found ∈ listFrom fs base (depth + 1) passed way dir ↔
    ∃ name ∈ fs.namesIn dir, found ∈ listEntry fs base depth passed way dir name := by
  rw [listFrom_succ, List.mem_flatMap]

/-- What is listed below a directory has its way in front. -/
theorem exists_eq_append_of_mem_listFrom (depth : Nat) : ∀ passed way dir,
    found ∈ listFrom fs base depth passed way dir → ∃ below, found = way ++ below := by
  induction depth with
  | zero => simp [listFrom]
  | succ depth ih =>
    intro passed way dir hfound
    obtain ⟨name, -, hfound⟩ := mem_listFrom_succ.mp hfound
    obtain ⟨-, rfl⟩ | ⟨target, -, -, -, hfound⟩ := mem_listEntry.mp hfound
    · exact ⟨[name], rfl⟩
    · obtain ⟨below, rfl⟩ := ih _ _ _ hfound
      exact ⟨name :: below, by simp⟩

/-- What is behind a name has the name behind the way. -/
theorem exists_eq_cons_of_mem_listEntry (h : found ∈ listEntry fs base depth passed way dir name) :
    ∃ below, found = way ++ name :: below := by
  obtain ⟨-, rfl⟩ | ⟨target, -, -, -, hfound⟩ := mem_listEntry.mp h
  · exact ⟨[], rfl⟩
  · obtain ⟨below, rfl⟩ := exists_eq_append_of_mem_listFrom _ _ _ _ hfound
    exact ⟨below, by simp⟩

end

/-! ## 2. Each way once -/

section

variable {fs : FileSystem}

theorem eq_concat_of_nameIn? {dir loc : Location} {name : WrittenPath} (h : nameIn? dir loc = some name) :
    loc = dir ++ [name] := by
  unfold nameIn? at h
  split at h
  · next hdir => rw [← hdir, List.dropLast_append_getLast? name h]
  · cases h

variable (hunique : (fs.entries.map Prod.fst).Nodup)
include hunique

theorem nodup_namesIn (dir : Location) : (fs.namesIn dir).Nodup := by
  have hnames : (fs.entries.filterMap fun e => nameIn? dir e.1) =
      (fs.entries.map Prod.fst).filterMap (nameIn? dir) := by
    rw [List.filterMap_map]
    rfl
  rw [namesIn, (perm_sortNames _).nodup_iff, hnames]
  refine hunique.filterMap fun loc loc' name h h' => ?_
  rw [eq_concat_of_nameIn? h, eq_concat_of_nameIn? h']

theorem nodup_listFrom (base : Path) (depth : Nat) : ∀ passed way dir,
    (listFrom fs base depth passed way dir).Nodup := by
  induction depth with
  | zero => simp [listFrom]
  | succ depth ih =>
    intro passed way dir
    rw [listFrom_succ, List.nodup_flatMap]
    constructor
    · intro name _
      unfold listEntry
      cases kindOf fs base (way ++ [name]) (dir ++ [name]) with
      | file => exact List.nodup_singleton _
      | other => exact List.nodup_nil
      | directory target =>
        simp only
        split
        · exact List.nodup_nil
        · exact ih _ _ _
    · refine (nodup_namesIn hunique dir).pairwise_of_forall_ne fun name _ name' _ hne => ?_
      refine List.disjoint_left.mpr fun found hfound hfound' => hne ?_
      obtain ⟨below, rfl⟩ := exists_eq_cons_of_mem_listEntry hfound
      obtain ⟨below', heq⟩ := exists_eq_cons_of_mem_listEntry hfound'
      exact (List.cons.inj (List.append_cancel_left heq)).1

/-- **A walk finds each way once**, if each location has one entry. -/
theorem nodup_listFiles (base : Path) : (listFiles fs base).Nodup := by
  unfold listFiles
  split
  · exact List.nodup_nil
  · split
    · exact nodup_listFrom hunique base _ _ _ _
    · exact List.nodup_nil

end

/-! ## 3. Walks from further down -/

section

variable {fs : FileSystem} {base : Path} {front below : Way}

theorem pathBelow_append (base : Path) (front way : Way) :
    pathBelow base (front ++ way) = pathBelow (pathBelow base front) way := by
  simp [pathBelow]

theorem kindOf_append (base : Path) (front way : Way) (loc : Location) :
    kindOf fs base (front ++ way) loc = kindOf fs (pathBelow base front) way loc := by
  simp only [kindOf, pathBelow_append]

/-- **The listing comes to each directory on the way to a file.** -/
theorem exists_listFrom_append (hbase : base.rooted = true) (hnamed : fs.IsNamed) (hbelow : below ≠ [])
    (front : Way) : ∀ depth passed way dir, Entered fs base way dir → dir ∈ passed →
      way ++ (front ++ below) ∈ listFrom fs base depth passed way dir →
      ∃ depth' ≤ depth, ∃ passed' dir', Entered fs base (way ++ front) dir' ∧ dir' ∈ passed' ∧
        way ++ front ++ below ∈ listFrom fs base depth' passed' (way ++ front) dir' := by
  induction front with
  | nil =>
    intro depth passed way dir hentered hpassed hfound
    exact ⟨depth, Nat.le_refl _, passed, dir, by simpa using hentered, hpassed, by simpa using hfound⟩
  | cons name front ih =>
    -- What is found begins with `name`, so it was found behind this name and no other.
    intro depth passed way dir hentered hpassed hfound
    cases depth with
    | zero => simp [listFrom] at hfound
    | succ depth =>
      obtain ⟨name', -, hfound⟩ := mem_listFrom_succ.mp hfound
      obtain ⟨rest, hrest⟩ := exists_eq_cons_of_mem_listEntry hfound
      obtain ⟨rfl, -⟩ : name = name' ∧ front ++ below = rest := by simpa using hrest
      obtain ⟨-, heq⟩ | ⟨target, hk, -, hlong, hfound⟩ := mem_listEntry.mp hfound
      · simp [hbelow] at heq
      · have hway : way ++ name :: front = (way ++ [name]) ++ front := by simp
        have hfound' : (way ++ [name]) ++ (front ++ below) ∈
            listFrom fs base depth (target :: passed) (way ++ [name]) target := by
          simpa using hfound
        obtain ⟨depth', hle, passed', dir', hrest⟩ := ih _ _ _ _ (hentered.enter hbase hnamed hk hlong)
          List.mem_cons_self hfound'
        rw [hway]
        exact ⟨depth', Nat.le_succ_of_le hle, passed', dir', hrest⟩

/-- **The listing that begins further down goes as far**, and further where the longer way has passed a
directory already. -/
theorem mem_listFrom_below (depth : Nat) : ∀ {depth₂ passed passed₂ way dir}, depth ≤ depth₂ →
    passed₂ ⊆ passed → front ++ below ∈ listFrom fs base depth passed (front ++ way) dir →
    below ∈ listFrom fs (pathBelow base front) depth₂ passed₂ way dir := by
  induction depth with
  | zero => simp [listFrom]
  | succ depth ih =>
    intro depth₂ passed passed₂ way dir hle hsub hfound
    obtain ⟨depth₂, rfl⟩ : ∃ d, depth₂ = d + 1 := ⟨depth₂ - 1, by omega⟩
    rw [mem_listFrom_succ] at hfound ⊢
    obtain ⟨name, hname, hfound⟩ := hfound
    refine ⟨name, hname, ?_⟩
    rw [mem_listEntry] at hfound ⊢
    simp only [List.append_assoc, kindOf_append base front, pathBelow_append base front] at hfound
    rcases hfound with ⟨hk, heq⟩ | ⟨target, hk, hpassed, hlong, hfound⟩
    · exact Or.inl ⟨hk, List.append_cancel_left heq⟩
    · refine Or.inr ⟨target, hk, fun hlink hmem => hpassed hlink (hsub hmem), hlong, ?_⟩
      exact ih (Nat.le_of_succ_le_succ hle) (List.cons_subset_cons target hsub) hfound

/-- **What is listed behind a directory is listed from it.** -/
theorem mem_listFiles_below (hbase : base.rooted = true) (hnamed : fs.IsNamed) (hbelow : below ≠ [])
    (h : front ++ below ∈ listFiles fs base) : below ∈ listFiles fs (pathBelow base front) := by
  obtain ⟨dir, hentered, hfound⟩ := exists_entered_of_mem_listFiles h
  obtain ⟨depth, hle, passed, dir', hentered', hpassed, hfound'⟩ :=
    exists_listFrom_append hbase hnamed hbelow front _ _ _ _ hentered List.mem_cons_self hfound
  rw [List.nil_append] at hentered'
  rw [listFiles_of_directory hentered'.resolve? hentered'.directory]
  refine mem_listFrom_below depth hle ?_ (by simpa using hfound')
  simpa using hpassed

end

end Tsconfig.Glob
