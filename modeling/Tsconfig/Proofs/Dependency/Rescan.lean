/-
# Scanning the whole list again and again

The plain way to close a list scans all of it, puts behind it what its items depend on and what is not
listed yet, and starts again from the front until nothing is added (`Rescans`).  The pass may take the
items that are there when it starts (`Passes`), or may go on into what it adds (`Sweeps`).

**Both list what the queue lists, item by item.**  Scanning an item that has been scanned adds nothing,
so a pass over all that is listed adds just the next round (`pass_listed`), and one that goes on into
what it adds runs through all rounds at once (`sweeps_listed`).  So both end in the list that the search
ends in (`rescans_passes_iff_of_last`, `rescans_sweeps_iff_of_last`), for files as well
(`rescans_closeWritten`).
-/
import Tsconfig.Proofs.Dependency.Files

namespace Tsconfig.Dependency

variable {α κ : Type} [DecidableEq κ] {key : α → κ} {deps : α → List α}

/-! ## 1. Passes -/

/-- Put an item at the end of a list that has none with its key. -/
def enlist (key : α → κ) (items : List α) (x : α) : List α :=
  if key x ∈ items.map key then items else items ++ [x]

/-- Put what an item depends on at the end of a list, as far as it is not listed. -/
def scan (key : α → κ) (deps : α → List α) (items : List α) (x : α) : List α :=
  (deps x).foldl (enlist key) items

/-- Scan the items of a list from its start. -/
def pass (key : α → κ) (deps : α → List α) (items : List α) : List α :=
  items.foldl (scan key deps) items

/-- A pass over the items that are there when it starts. -/
def Passes (key : α → κ) (deps : α → List α) (items result : List α) : Prop :=
  pass key deps items = result

/-- A pass from a position on that does not end before it has scanned what it adds. -/
inductive Sweeps (key : α → κ) (deps : α → List α) : Nat → List α → List α → Prop
  | finish {n : Nat} {items : List α} (h : items.length ≤ n) : Sweeps key deps n items items
  | next {n : Nat} {items result : List α} {x : α} (h : items[n]? = some x)
      (hrest : Sweeps key deps (n + 1) (scan key deps items x) result) :
      Sweeps key deps n items result

/-- Passes one after the other, up to the first one that adds nothing. -/
inductive Rescans (Pass : List α → List α → Prop) : List α → List α → Prop
  | done {items : List α} (h : Pass items items) : Rescans Pass items items
  | again {items next result : List α} (h : Pass items next) (hne : next ≠ items)
      (hrest : Rescans Pass next result) : Rescans Pass items result

section

variable {items : List α} {x : α}

theorem foldl_enlist (items xs : List α) :
    xs.foldl (enlist key) items = items ++ unseen key (items.map key) xs := by
  induction xs generalizing items with
  | nil => simp [unseen]
  | cons x xs ih =>
    rw [List.foldl_cons, ih, enlist, unseen]
    split
    · rfl
    · have hkeys : unseen key ((items ++ [x]).map key) xs =
          unseen key (key x :: items.map key) xs := by
        refine unseen_congr ?_ xs
        intro k
        simp [or_comm]
      rw [hkeys, List.append_assoc]
      rfl

theorem scan_eq (items : List α) (x : α) :
    scan key deps items x = items ++ unseen key (items.map key) (deps x) := foldl_enlist items _

/-- What is new in two lists one after the other is new in the first or, that being listed, in the
second. -/
theorem append_unseen_append (items xs ys : List α) :
    items ++ unseen key (items.map key) (xs ++ ys) =
      items ++ unseen key (items.map key) xs ++
        unseen key ((items ++ unseen key (items.map key) xs).map key) ys := by
  rw [unseen_append, ← List.append_assoc]
  refine congrArg _ (unseen_congr ?_ ys)
  intro k
  rw [List.map_append, List.mem_append, List.mem_append, or_comm]

theorem foldl_scan (items xs : List α) :
    xs.foldl (scan key deps) items = items ++ unseen key (items.map key) (xs.flatMap deps) := by
  induction xs generalizing items with
  | nil => simp [unseen]
  | cons x xs ih => rw [List.foldl_cons, ih, scan_eq, List.flatMap_cons, append_unseen_append]

theorem pass_eq (items : List α) :
    pass key deps items = items ++ unseen key (items.map key) (items.flatMap deps) :=
  foldl_scan items items

end

/-! ## 2. Passes and rounds -/

section

variable {seeds result : List α}

/-- What is listed is what was listed a round before and the last round. -/
theorem exists_listed_eq (n : Nat) : ∃ earlier,
    listed key deps seeds n = earlier ++ round key deps seeds n ∧
      ∀ x ∈ earlier, ∀ y ∈ deps x, key y ∈ (listed key deps seeds n).map key := by
  cases n with
  | zero => exact ⟨[], rfl, by simp⟩
  | succ n => exact ⟨listed key deps seeds n, listed_succ n, fun _ hx _ hy => key_mem_listed_succ hx hy⟩

/-- **A pass over all that is listed adds the next round.** -/
theorem pass_listed (n : Nat) :
    pass key deps (listed key deps seeds n) = listed key deps seeds (n + 1) := by
  obtain ⟨earlier, hlist, hold⟩ := @exists_listed_eq α κ _ key deps seeds n
  have hnone : unseen key ((listed key deps seeds n).map key) (earlier.flatMap deps) = [] := by
    refine unseen_eq_nil.mpr ?_
    intro y hy
    obtain ⟨x, hx, hdep⟩ := List.mem_flatMap.mp hy
    exact hold x hx y hdep
  have hflat : (listed key deps seeds n).flatMap deps =
      earlier.flatMap deps ++ (round key deps seeds n).flatMap deps := by
    conv => lhs; rw [hlist]
    exact List.flatMap_append
  rw [pass_eq, hflat, append_unseen_append, hnone, List.append_nil, listed_succ, round_succ]

/-- A sweep goes over some items as over one. -/
theorem sweeps_append (front xs rest : List α) :
    Sweeps key deps front.length (front ++ xs ++ rest) result ↔
      Sweeps key deps (front ++ xs).length (xs.foldl (scan key deps) (front ++ xs ++ rest))
        result := by
  induction xs generalizing front rest with
  | nil => simp
  | cons x xs ih =>
    have hat : (front ++ x :: xs ++ rest)[front.length]? = some x := by simp
    have hstep : Sweeps key deps front.length (front ++ x :: xs ++ rest) result ↔
        Sweeps key deps (front.length + 1) (scan key deps (front ++ x :: xs ++ rest) x) result := by
      constructor
      · intro h
        cases h with
        | finish hend =>
          simp only [List.length_append, List.length_cons] at hend
          omega
        | next hx hrest =>
          obtain rfl := Option.some.inj (hat.symm.trans hx)
          exact hrest
      · exact .next hat
    have hshift (new : List α) :
        front ++ x :: xs ++ rest ++ new = front ++ [x] ++ xs ++ (rest ++ new) := by simp
    have hlength : front.length + 1 = (front ++ [x]).length := by simp
    rw [hstep, List.foldl_cons, scan_eq, hshift, hlength, ih]
    simp

/-- **A sweep comes from round to round.** -/
theorem sweeps_listed (n : Nat) : Sweeps key deps 0 seeds result ↔
    Sweeps key deps (listed key deps seeds n).length (listed key deps seeds (n + 1)) result := by
  have hround (front : List α) (n : Nat)
      (hlist : listed key deps seeds n = front ++ round key deps seeds n) :
      Sweeps key deps front.length (listed key deps seeds n) result ↔
        Sweeps key deps (listed key deps seeds n).length (listed key deps seeds (n + 1)) result := by
    have happend := @sweeps_append α κ _ key deps result front (round key deps seeds n) []
    rw [List.append_nil, ← hlist, foldl_scan, ← round_succ, ← listed_succ] at happend
    exact happend
  induction n with
  | zero => exact hround [] 0 rfl
  | succ n ih => exact ih.trans (hround _ (n + 1) (listed_succ n))

/-- When a round finds nothing, a sweep ends in what is listed then. -/
theorem sweeps_iff_of_last {n : Nat} (hlast : round key deps seeds (n + 1) = []) :
    Sweeps key deps 0 seeds result ↔ result = listed key deps seeds n := by
  rw [sweeps_listed n, listed_succ, hlast, List.append_nil]
  constructor
  · intro h
    cases h with
    | finish => rfl
    | next hx => simp at hx
  · rintro rfl
    exact .finish (Nat.le_refl _)

/-! ## 3. Passes until nothing is added -/

theorem listed_eq_of_last {m n : Nat} (hm : round key deps seeds (m + 1) = [])
    (hn : round key deps seeds (n + 1) = []) :
    listed key deps seeds m = listed key deps seeds n := by
  rcases Nat.le_total m n with hle | hle
  · obtain ⟨k, rfl⟩ := Nat.exists_eq_add_of_le hle
    exact (listed_add_of_last hm k).symm
  · obtain ⟨k, rfl⟩ := Nat.exists_eq_add_of_le hle
    exact listed_add_of_last hn k

/-- A pass adds nothing just when the next round finds nothing. -/
theorem listed_succ_eq_iff {n : Nat} :
    listed key deps seeds (n + 1) = listed key deps seeds n ↔ round key deps seeds (n + 1) = [] := by
  rw [listed_succ]
  exact List.append_right_eq_self

/-- **Passes come to the end of the rounds.** -/
theorem rescans_passes_iff_of_last {n : Nat} (hlast : round key deps seeds (n + 1) = []) :
    Rescans (Passes key deps) seeds result ↔ result = listed key deps seeds n := by
  constructor
  · -- Passes never leave the lists of the rounds.
    have hall {items : List α} (h : Rescans (Passes key deps) items result) :
        ∀ m, items = listed key deps seeds m → result = listed key deps seeds n := by
      induction h with
      | done h =>
        rintro m rfl
        rw [Passes, pass_listed, listed_succ_eq_iff] at h
        exact listed_eq_of_last h hlast
      | again h _ _ ih =>
        rintro m rfl
        exact ih (m + 1) (h.symm.trans (pass_listed m))
    exact fun h => hall h 0 rfl
  · rintro rfl
    have hfrom (k : Nat) : ∀ m, m + k = n →
        Rescans (Passes key deps) (listed key deps seeds m) (listed key deps seeds n) := by
      induction k with
      | zero =>
        rintro m rfl
        exact .done ((pass_listed m).trans (listed_succ_eq_iff.mpr hlast))
      | succ k ih =>
        intro m hm
        by_cases hnil : round key deps seeds (m + 1) = []
        · rw [listed_eq_of_last hlast hnil]
          exact .done ((pass_listed m).trans (listed_succ_eq_iff.mpr hnil))
        · exact .again (pass_listed m) (fun h => hnil (listed_succ_eq_iff.mp h))
            (ih (m + 1) (by omega))
    exact hfrom n 0 (Nat.zero_add n)

/-- **Passes that go on into what they add come there at once.** -/
theorem rescans_sweeps_iff_of_last {n : Nat} (hlast : round key deps seeds (n + 1) = []) :
    Rescans (Sweeps key deps 0) seeds result ↔ result = listed key deps seeds n := by
  have hclosed : round key deps (listed key deps seeds n) 1 = [] := by
    rw [round_succ]
    refine unseen_eq_nil.mpr ?_
    intro y hy
    obtain ⟨x, hx, hdep⟩ := List.mem_flatMap.mp hy
    exact isClosed_listed hlast x hx y hdep
  have hagain : ∀ next, Sweeps key deps 0 (listed key deps seeds n) next ↔
      next = listed key deps seeds n := fun next => sweeps_iff_of_last hclosed
  constructor
  · intro h
    cases h with
    | done h => exact (sweeps_iff_of_last hlast).mp h
    | again h _ hrest =>
      obtain rfl := (sweeps_iff_of_last hlast).mp h
      cases hrest with
      | done => rfl
      | again h hne => exact absurd ((hagain _).mp h) hne
  · rintro rfl
    have hfirst : Sweeps key deps 0 seeds (listed key deps seeds n) :=
      (sweeps_iff_of_last hlast).mpr rfl
    by_cases hsame : listed key deps seeds n = seeds
    · rw [hsame] at hfirst ⊢
      exact .done hfirst
    · exact .again hfirst hsame (.done ((hagain _).mpr rfl))

/-- **With turns for all that is listed the queue ends where passes end.** -/
theorem rescans_iff {limit : Nat} (h : ∀ n, (listed key deps seeds n).length ≤ limit) :
    (Rescans (Passes key deps) seeds result ↔ result = closure key deps limit seeds) ∧
      (Rescans (Sweeps key deps 0) seeds result ↔ result = closure key deps limit seeds) := by
  obtain ⟨n, hclosure, hlast⟩ := closure_eq_listed h
  rw [hclosure]
  exact ⟨rescans_passes_iff_of_last hlast, rescans_sweeps_iff_of_last hlast⟩

end

/-- **Closing a list of files is scanning all of it until nothing is added**, whether a pass ends with
the files that are listed when it starts or goes on into those that it adds. -/
theorem rescans_closeWritten (fs : FileSystem) (extract : Extractor) (seeds result : List WrittenPath) :
    (Rescans (Passes writtenKey (directWritten fs extract)) seeds result ↔
        result = closeWritten fs extract seeds) ∧
      (Rescans (Sweeps writtenKey (directWritten fs extract) 0) seeds result ↔
        result = closeWritten fs extract seeds) := by
  rw [closeWritten_eq_closure]
  exact rescans_iff (length_listed_le fs extract seeds)

end Tsconfig.Dependency
