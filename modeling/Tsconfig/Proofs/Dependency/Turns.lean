/-
# The turns of a search

The loop of a search works on what has been seen, what waits in the queue and what is listed (`Loop`).
A turn takes the first item off the queue and meets what it depends on; the loop stops when nothing
waits (`Turns`).  Nothing here bounds the number of turns from outside.

What has been taken off the queue and what still waits is what is listed, turn after turn.  So when the
loop stops it has taken off what it lists, one item a turn and in the same order
(`Turns.result_eq`).  That it stops is due to the items: each turn lists only what has not been seen, and
if no more than a number of items can be listed then the queue runs empty (`turns_closure`).

**The files that can be found are finitely many**, although a link to a directory above it gives one file
many paths: a lookup follows only so many links (`finite_filePaths`).  So the loop over written paths
stops, and lists no more than what it starts from and the paths to files (`turns_closeWritten`).
-/
import Mathlib.Data.Set.Card
import Tsconfig.Proofs.Dependency.Files

namespace Tsconfig.Dependency

open FileSystem

variable {α κ : Type} [DecidableEq κ] {key : α → κ} {deps : α → List α}

/-! ## 1. One turn after the other -/

/-- What the loop of a search works on. -/
structure Loop (α κ : Type) where
  seen : List κ
  queue : List α
  items : List α

/-- The loop before its first turn: the start items are seen, wait and are listed. -/
def Loop.start (key : α → κ) (seeds : List α) : Loop α κ := ⟨seeds.map key, seeds, seeds⟩

/-- List an item and put it into the queue, unless one with its key has been seen. -/
def Loop.meet (key : α → κ) (s : Loop α κ) (x : α) : Loop α κ :=
  if key x ∈ s.seen then s else ⟨key x :: s.seen, s.queue ++ [x], s.items ++ [x]⟩

/-- Take turns until nothing waits: the items that are taken off the queue, one a turn, and the items
that are listed in the end. -/
inductive Turns (key : α → κ) (deps : α → List α) : Loop α κ → List α → List α → Prop
  | stop {s : Loop α κ} (h : s.queue = []) : Turns key deps s [] s.items
  | turn {s : Loop α κ} {x : α} {queue taken result : List α} (h : s.queue = x :: queue)
      (hrest : Turns key deps ((deps x).foldl (Loop.meet key) { s with queue }) taken result) :
      Turns key deps s (x :: taken) result

section

variable {s : Loop α κ} {taken result : List α}

/-- Meeting items puts the unseen ones behind the queue and the list. -/
theorem foldl_meet (s : Loop α κ) (xs : List α) :
    (∀ k, k ∈ (xs.foldl (Loop.meet key) s).seen ↔ k ∈ (unseen key s.seen xs).map key ++ s.seen) ∧
      (xs.foldl (Loop.meet key) s).queue = s.queue ++ unseen key s.seen xs ∧
      (xs.foldl (Loop.meet key) s).items = s.items ++ unseen key s.seen xs := by
  induction xs generalizing s with
  | nil => simp [unseen]
  | cons x xs ih =>
    rw [List.foldl_cons, unseen]
    by_cases hx : key x ∈ s.seen
    · have hmeet : s.meet key x = s := if_pos hx
      rw [hmeet, if_pos hx]
      exact ih s
    · have hmeet : s.meet key x = ⟨key x :: s.seen, s.queue ++ [x], s.items ++ [x]⟩ := if_neg hx
      obtain ⟨hseen, hqueue, hitems⟩ := ih (s.meet key x)
      rw [hmeet] at hseen hqueue hitems
      rw [hmeet, if_neg hx]
      refine ⟨fun k => ?_, by rw [hqueue]; simp, by rw [hitems]; simp⟩
      rw [hseen k]
      simp only [List.map_cons, List.mem_append, List.mem_cons]
      tauto

/-- **What has been taken off and what waits is what is listed.**  A turn keeps this, so in the end what
has been taken off is what is listed. -/
theorem Turns.result_eq (h : Turns key deps s taken result) {front : List α}
    (hs : s.items = front ++ s.queue) : result = front ++ taken := by
  induction h generalizing front with
  | stop hnil => rw [hs, hnil]
  | @turn s x queue taken result hqueue _ ih =>
    obtain ⟨_, hnext, hitems⟩ := @foldl_meet α κ _ key { s with queue } (deps x)
    have hfront : result = (front ++ [x]) ++ taken := by
      refine ih ?_
      rw [hnext, hitems, hs, hqueue]
      simp
    rw [hfront, List.append_assoc]
    rfl

/-- The loop leaves nothing open. -/
theorem Turns.unique {taken' result' : List α} (h : Turns key deps s taken result)
    (h' : Turns key deps s taken' result') : taken = taken' ∧ result = result' := by
  induction h generalizing taken' result' with
  | stop hnil =>
    cases h' with
    | stop => exact ⟨rfl, rfl⟩
    | turn hqueue => simp [hnil] at hqueue
  | turn hqueue _ ih =>
    cases h' with
    | stop hnil => simp [hnil] at hqueue
    | turn hqueue' hrest' =>
      obtain ⟨rfl, rfl⟩ := List.cons.inj (hqueue.symm.trans hqueue')
      obtain ⟨rfl, rfl⟩ := ih hrest'
      exact ⟨rfl, rfl⟩

/-- A search whose turns suffice for what waits and what it finds lists what the loop lists. -/
theorem turns_search {limit : Nat} {s : Loop α κ}
    (h : s.queue.length + (search key deps limit s.seen s.queue).length ≤ limit) :
    ∃ taken, Turns key deps s taken (s.items ++ search key deps limit s.seen s.queue) := by
  induction limit generalizing s with
  | zero =>
    have hnil : s.queue = [] := List.length_eq_zero_iff.mp (by omega)
    have hstop := @Turns.stop _ _ _ key deps s hnil
    exact ⟨[], by simpa [search] using hstop⟩
  | succ limit ih =>
    cases hqueue : s.queue with
    | nil =>
      have hstop := @Turns.stop _ _ _ key deps s hqueue
      exact ⟨[], by simpa [search] using hstop⟩
    | cons x queue =>
      obtain ⟨hseen, hnext, hitems⟩ := @foldl_meet α κ _ key { s with queue } (deps x)
      generalize hfold : (deps x).foldl (Loop.meet key) { s with queue } = next at *
      simp only at hseen hnext hitems
      have hsearch : search key deps (limit + 1) s.seen (x :: queue) =
          unseen key s.seen (deps x) ++ search key deps limit next.seen next.queue := by
        rw [search, hnext]
        exact congrArg _ (search_congr (fun k => (hseen k).symm) limit _)
      have hlength := congrArg List.length hnext
      rw [hqueue, hsearch, List.length_cons, List.length_append] at h
      rw [List.length_append] at hlength
      obtain ⟨taken, hrest⟩ := @ih next (by omega)
      rw [hitems, List.append_assoc, ← hsearch] at hrest
      exact ⟨x :: taken, .turn hqueue (hfold ▸ hrest)⟩

/-- **When no more can be listed than the turns allow, the loop stops**, with the start items and what the
search finds. -/
theorem turns_closure {limit : Nat} {seeds : List α}
    (h : ∀ n, (listed key deps seeds n).length ≤ limit) :
    Turns key deps (.start key seeds) (closure key deps limit seeds)
      (closure key deps limit seeds) := by
  obtain ⟨n, hclosure, _⟩ := closure_eq_listed h
  have hlength : (closure key deps limit seeds).length ≤ limit := hclosure ▸ h n
  rw [closure, List.length_append] at hlength
  obtain ⟨taken, hrun⟩ := @turns_search _ _ _ key deps limit (.start key seeds) hlength
  have htaken : closure key deps limit seeds = [] ++ taken := hrun.result_eq rfl
  rw [List.nil_append] at htaken
  rw [← htaken] at hrun
  exact hrun

end

/-! ## 2. The files that can be found -/

/-- The paths from the root that name a file, a link in them followed. -/
def filePaths (fs : FileSystem) : Set Path := {p | p.IsPlain ∧ fs.isFile p.route = true}

section

variable {fs : FileSystem} {extract : Extractor} {seeds : List WrittenPath}

/-- **Finitely many paths name a file**, since a lookup follows only so many links. -/
theorem finite_filePaths (fs : FileSystem) : (filePaths fs).Finite := by
  refine ((listsUpTo fs.allNames fs.depthBound).map (Path.mk true)).finite_toSet.subset ?_
  rintro ⟨rooted, names⟩ ⟨hplain, hfile⟩
  obtain rfl : rooted = true := hplain.rooted
  exact List.mem_map_of_mem (names_mem_listsUpTo hfile)

/-- What is found, each once, is no more than there are paths to files. -/
theorem length_found_le_ncard {found : List WrittenPath} (hf : ∀ t ∈ found, IsFound fs t)
    (habs : ∀ t ∈ found, t.toList.head? = some (.char '/')) (hnodup : (found.map writtenKey).Nodup) :
    found.length ≤ (filePaths fs).ncard := by
  obtain ⟨hpaths, hfile⟩ := paths_of_found hf hnodup
  have hsub : ((found.map Path.ofText).toFinset : Set Path) ⊆ filePaths fs := by
    intro p hp
    obtain hmem : p ∈ found.map Path.ofText := by simpa using hp
    obtain ⟨t, ht, rfl⟩ := List.mem_map.mp hmem
    exact ⟨Path.isPlain_ofText (habs t ht), hfile _ hmem⟩
  calc found.length = (found.map Path.ofText).toFinset.card := by
        rw [List.toFinset_card_of_nodup hpaths, List.length_map]
    _ = ((found.map Path.ofText).toFinset : Set Path).ncard := (Set.ncard_coe_finset _).symm
    _ ≤ (filePaths fs).ncard := Set.ncard_le_ncard hsub (finite_filePaths fs)

/-! ## 3. The loop over files -/

/-- **The loop over written paths stops**, whatever links there are.  It takes off the queue what it lists,
one path a turn and in the same order: a start path as often as it is given, and every other path once.
It lists no more than the start paths and the paths from the root to files, of which there are finitely
many. -/
theorem turns_closeWritten (habs : ∀ s ∈ seeds, s.toList.head? = some (.char '/')) :
    (∀ taken result, Turns writtenKey (directWritten fs extract) (.start writtenKey seeds) taken result ↔
        taken = closeWritten fs extract seeds ∧ result = closeWritten fs extract seeds) ∧
      (∀ t ∈ closeWritten fs extract seeds,
        ((closeWritten fs extract seeds).map writtenKey).count (writtenKey t) =
          max 1 ((seeds.map writtenKey).count (writtenKey t))) ∧
      (filePaths fs).Finite ∧
      (closeWritten fs extract seeds).length ≤ seeds.length + (filePaths fs).ncard := by
  have hrun : Turns writtenKey (directWritten fs extract) (.start writtenKey seeds)
      (closeWritten fs extract seeds) (closeWritten fs extract seeds) := by
    rw [closeWritten_eq_closure]
    exact turns_closure (length_listed_le fs extract seeds)
  obtain ⟨found, hclose, hreach, hnodup, hfresh⟩ := exists_found_closeWritten fs extract seeds
  refine ⟨?_, ?_, finite_filePaths fs, ?_⟩
  · intro taken result
    constructor
    · exact fun h => h.unique hrun
    · rintro ⟨rfl, rfl⟩
      exact hrun
  · intro t ht
    rw [hclose] at ht ⊢
    rw [List.map_append, List.count_append]
    rcases List.mem_append.mp ht with hseed | hfound
    · have hnone : (found.map writtenKey).count (writtenKey t) = 0 := by
        rw [List.count_eq_zero]
        intro hmem
        obtain ⟨u, hu, hkey⟩ := List.mem_map.mp hmem
        exact hfresh u hu (hkey ▸ List.mem_map_of_mem hseed)
      have hsome : 0 < (seeds.map writtenKey).count (writtenKey t) :=
        List.count_pos_iff.mpr (List.mem_map_of_mem hseed)
      omega
    · have hone : (found.map writtenKey).count (writtenKey t) = 1 :=
        List.count_eq_one_of_mem hnodup (List.mem_map_of_mem hfound)
      have hnone : (seeds.map writtenKey).count (writtenKey t) = 0 :=
        List.count_eq_zero.mpr (hfresh t hfound)
      omega
  · have hnot : ∀ t ∈ found, t ∉ seeds := fun t ht hseed => hfresh t ht (List.mem_map_of_mem hseed)
    have hlength := length_found_le_ncard
      (fun t ht => isFound_of_reachable (hreach t ht) (hnot t ht))
      (fun t ht => head?_of_reachable habs (hreach t ht)) hnodup
    rw [hclose, List.length_append]
    omega

end

/-- A file that refers to itself through a link to the directory that it lies in.  The link goes through
another one nine times, so a lookup can follow it four times and no more. -/
def cyclicTree : FileSystem where
  entries := [
    (["a.ts"], .file (.text "/// <reference path=\"l/a.ts\" />\n")),
    (["l"], .link "m/m/m/m/m/m/m/m/m"),
    (["m"], .link "/")]
  workingDirectory := []
  isPlain := isPlain_nil

/-- The loop stops at the system's limit on links: it takes the start path off the queue as often as it is
given, and then the paths through the link once, twice, three and four times. -/
theorem turns_closeWritten_cyclic :
    Turns writtenKey (directWritten cyclicTree Source.references) (.start writtenKey ["/a.ts", "/a.ts"])
        ["/a.ts", "/a.ts", "/l/a.ts", "/l/l/a.ts", "/l/l/l/a.ts", "/l/l/l/l/a.ts"]
        ["/a.ts", "/a.ts", "/l/a.ts", "/l/l/a.ts", "/l/l/l/a.ts", "/l/l/l/l/a.ts"] ∧
      4 ≤ (filePaths cyclicTree).ncard := by
  obtain ⟨hruns, _, _, hbound⟩ :=
    @turns_closeWritten cyclicTree Source.references ["/a.ts", "/a.ts"] (by decide)
  have hlist : closeWritten cyclicTree Source.references ["/a.ts", "/a.ts"] =
      ["/a.ts", "/a.ts", "/l/a.ts", "/l/l/a.ts", "/l/l/l/a.ts", "/l/l/l/l/a.ts"] := by
    decide +kernel
  rw [hlist] at hruns hbound
  exact ⟨(hruns _ _).mpr ⟨rfl, rfl⟩, Nat.le_of_add_le_add_left hbound⟩

end Tsconfig.Dependency
