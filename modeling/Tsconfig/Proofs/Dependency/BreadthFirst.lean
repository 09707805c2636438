/-
# Searching in rounds

The search takes items from a queue one by one.  What it finds is what a search in rounds finds: the
first round is the start items, and each round after it is what the items of the round before depend on
and no round has listed yet, in the order in which it is named (`rounds`).  With enough turns the queue
runs empty, and the result is the rounds up to the first one that finds nothing (`closure_eq_listed`).

From the rounds follows everything else: what is found has new keys, each once (`exists_found`), and is
reached from the start items in as many steps as rounds (`reachedIn_of_mem_round`); a search from the
result finds nothing more (`closure_of_isClosed`).  As far as items with one key depend on the same,
nothing that is reached is missed (`exists_listed_of_reachable`), and nothing is found later than the
steps to it demand (`le_of_mem_round`).
-/
import Tsconfig.Dependency.Closure

namespace Tsconfig.Dependency

variable {α κ : Type} [DecidableEq κ] {key : α → κ} {deps : α → List α}

/-! ## 1. Items that have not been seen -/

section

variable {seen : List κ} {xs : List α} {x : α}

theorem of_mem_unseen (h : x ∈ unseen key seen xs) : x ∈ xs ∧ key x ∉ seen := by
  induction xs generalizing seen with
  | nil => simp [unseen] at h
  | cons y ys ih =>
    rw [unseen] at h
    split at h
    · obtain ⟨hmem, hnew⟩ := ih h
      exact ⟨List.mem_cons_of_mem y hmem, hnew⟩
    · next hy =>
      rcases List.mem_cons.mp h with rfl | h
      · exact ⟨List.mem_cons_self, hy⟩
      · obtain ⟨hmem, hnew⟩ := ih h
        exact ⟨List.mem_cons_of_mem y hmem, fun hx => hnew (List.mem_cons_of_mem _ hx)⟩

theorem key_mem_of_mem (h : x ∈ xs) : key x ∈ seen ∨ key x ∈ (unseen key seen xs).map key := by
  induction xs generalizing seen with
  | nil => simp at h
  | cons y ys ih =>
    rw [unseen]
    split
    · next hy =>
      rcases List.mem_cons.mp h with rfl | h
      · exact .inl hy
      · exact ih h
    · rw [List.map_cons, List.mem_cons]
      rcases List.mem_cons.mp h with rfl | h
      · exact .inr (.inl rfl)
      · rcases @ih (key y :: seen) h with hs | hs
        · rcases List.mem_cons.mp hs with hs | hs
          · exact .inr (.inl hs)
          · exact .inl hs
        · exact .inr (.inr hs)

theorem nodup_unseen (seen : List κ) (xs : List α) : ((unseen key seen xs).map key).Nodup := by
  induction xs generalizing seen with
  | nil => simp [unseen]
  | cons y ys ih =>
    rw [unseen]
    split
    · exact ih seen
    · rw [List.map_cons, List.nodup_cons]
      refine ⟨?_, ih _⟩
      intro hmem
      obtain ⟨z, hz, hkey⟩ := List.mem_map.mp hmem
      exact (of_mem_unseen hz).2 (hkey ▸ List.mem_cons_self)

theorem unseen_congr {seen' : List κ} (h : ∀ k, k ∈ seen ↔ k ∈ seen') (xs : List α) :
    unseen key seen xs = unseen key seen' xs := by
  induction xs generalizing seen seen' with
  | nil => rfl
  | cons y ys ih =>
    rw [unseen, unseen, ih h]
    have hcons : ∀ k, k ∈ key y :: seen ↔ k ∈ key y :: seen' := by
      intro k
      rw [List.mem_cons, List.mem_cons, h]
    rw [ih hcons]
    by_cases hy : key y ∈ seen
    · rw [if_pos hy, if_pos ((h _).mp hy)]
    · rw [if_neg hy, if_neg fun hy' => hy ((h _).mpr hy')]

theorem unseen_append (seen : List κ) (xs ys : List α) : unseen key seen (xs ++ ys) =
    unseen key seen xs ++ unseen key ((unseen key seen xs).map key ++ seen) ys := by
  induction xs generalizing seen with
  | nil => rfl
  | cons x xs ih =>
    rw [List.cons_append, unseen, unseen]
    split
    · exact ih seen
    · rw [ih, List.cons_append, List.map_cons, List.cons.injEq]
      refine ⟨rfl, congrArg _ (unseen_congr ?_ ys)⟩
      intro k
      simp only [List.mem_append, List.mem_cons]
      constructor
      · rintro (h | h | h)
        · exact .inl (.inr h)
        · exact .inl (.inl h)
        · exact .inr h
      · rintro ((h | h) | h)
        · exact .inr (.inl h)
        · exact .inl h
        · exact .inr (.inr h)

/-- Items that are their own keys are the first ones of each kind. -/
theorem unseen_id (seen xs : List κ) : unseen id seen xs = (xs.filter fun x => x ∉ seen).eraseDups := by
  induction xs generalizing seen with
  | nil => rfl
  | cons x xs ih =>
    rw [unseen]
    split
    · next hx => rw [ih, List.filter_cons_of_neg (by simpa using hx)]
    · next hx =>
      have hboth : (xs.filter fun y => y ∉ x :: seen) =
          (xs.filter fun y => y ∉ seen).filter fun y => !y == x := by
        rw [List.filter_filter]
        refine List.filter_congr fun y _ => ?_
        by_cases hy : y = x <;> simp [hy]
      rw [ih, id, hboth, List.filter_cons_of_pos (by simpa using hx), List.eraseDups_cons]

theorem unseen_eq_nil : unseen key seen xs = [] ↔ ∀ x ∈ xs, key x ∈ seen := by
  constructor
  · intro h x hx
    rcases @key_mem_of_mem α κ _ key seen xs x hx with hs | hs
    · exact hs
    · simp [h] at hs
  · intro h
    cases hu : unseen key seen xs with
    | nil => rfl
    | cons y ys =>
      obtain ⟨hy, hnew⟩ := of_mem_unseen (hu ▸ List.mem_cons_self : y ∈ unseen key seen xs)
      exact absurd (h y hy) hnew

end

/-! ## 2. A whole round at a time -/

section

variable {seen : List κ}

theorem search_nil (n : Nat) (seen : List κ) : search key deps n seen [] = [] := by
  cases n <;> rfl

theorem search_congr {seen' : List κ} (h : ∀ k, k ∈ seen ↔ k ∈ seen') (n : Nat) (queue : List α) :
    search key deps n seen queue = search key deps n seen' queue := by
  induction n generalizing seen seen' queue with
  | zero => rfl
  | succ n ih =>
    cases queue with
    | nil => rfl
    | cons x queue =>
      simp only [search]
      rw [unseen_congr h (deps x)]
      refine congrArg _ (ih ?_ _)
      intro k
      rw [List.mem_append, List.mem_append, h]

/-- **Items in front of the queue are taken off together**, and what they name goes behind it. -/
theorem search_append (items queue : List α) (n : Nat) (seen : List κ) :
    search key deps (items.length + n) seen (items ++ queue) =
      unseen key seen (items.flatMap deps) ++
        search key deps n ((unseen key seen (items.flatMap deps)).map key ++ seen)
          (queue ++ unseen key seen (items.flatMap deps)) := by
  induction items generalizing seen queue with
  | nil => simp [unseen]
  | cons x items ih =>
    have hlen : (x :: items).length + n = (items.length + n) + 1 := by simp [Nat.add_right_comm]
    rw [hlen, List.cons_append, search, List.append_assoc, ih, List.flatMap_cons, unseen_append]
    rw [List.append_assoc, List.append_assoc]
    refine congrArg _ (congrArg _ (search_congr ?_ _ _))
    intro k
    simp only [List.map_append, List.mem_append, or_left_comm, or_assoc]

/-- What a search finds is what something depends on, and what holds of all that waits and passes to
what it depends on holds of that. -/
theorem exists_of_mem_search {Q : α → Prop} (hd : ∀ x, Q x → ∀ y ∈ deps x, Q y) {n : Nat}
    {queue : List α} (hq : ∀ x ∈ queue, Q x) {y : α} (h : y ∈ search key deps n seen queue) :
    ∃ x, Q x ∧ y ∈ deps x := by
  induction n generalizing seen queue with
  | zero => simp [search] at h
  | succ n ih =>
    cases queue with
    | nil => simp [search] at h
    | cons x queue =>
      have hx := hq x List.mem_cons_self
      rcases List.mem_append.mp h with h | h
      · exact ⟨x, hx, (of_mem_unseen h).1⟩
      · refine ih ?_ h
        intro z hz
        rcases List.mem_append.mp hz with hz | hz
        · exact hq z (List.mem_cons_of_mem x hz)
        · exact hd x hx z (of_mem_unseen hz).1

/-- A search from items that depend on nothing new finds nothing. -/
theorem search_of_seen {queue : List α} (h : ∀ x ∈ queue, ∀ y ∈ deps x, key y ∈ seen) (n : Nat) :
    search key deps n seen queue = [] := by
  induction n generalizing queue with
  | zero => rfl
  | succ n ih =>
    cases queue with
    | nil => rfl
    | cons x queue =>
      have hnew : unseen key seen (deps x) = [] := unseen_eq_nil.mpr (h x List.mem_cons_self)
      simp only [search, hnew, List.map_nil, List.nil_append, List.append_nil]
      exact ih fun y hy => h y (List.mem_cons_of_mem x hy)

end

/-! ## 3. Rounds -/

/-- All items that are listed after a number of rounds, and those of the last round. -/
def rounds (key : α → κ) (deps : α → List α) (seeds : List α) : Nat → List α × List α
  | 0 => (seeds, seeds)
  | n + 1 =>
    let new := unseen key ((rounds key deps seeds n).1.map key)
      ((rounds key deps seeds n).2.flatMap deps)
    ((rounds key deps seeds n).1 ++ new, new)

/-- The items that are listed after a number of rounds. -/
def listed (key : α → κ) (deps : α → List α) (seeds : List α) (n : Nat) : List α :=
  (rounds key deps seeds n).1

/-- The items of a round. -/
def round (key : α → κ) (deps : α → List α) (seeds : List α) (n : Nat) : List α :=
  (rounds key deps seeds n).2

section

variable {seeds : List α}

theorem round_succ (n : Nat) : round key deps seeds (n + 1) =
    unseen key ((listed key deps seeds n).map key) ((round key deps seeds n).flatMap deps) := rfl

theorem listed_succ (n : Nat) : listed key deps seeds (n + 1) =
    listed key deps seeds n ++ round key deps seeds (n + 1) := rfl

/-- **After as many turns as items are listed the queue holds the next round.** -/
theorem closure_add (n k : Nat) :
    closure key deps ((listed key deps seeds n).length + k) seeds =
      listed key deps seeds (n + 1) ++
        search key deps k ((listed key deps seeds (n + 1)).map key) (round key deps seeds (n + 1)) := by
  have hseen (xs new : List α) : ∀ k, k ∈ new.map key ++ xs.map key ↔ k ∈ (xs ++ new).map key := by
    intro k
    rw [List.map_append, List.mem_append, List.mem_append, or_comm]
  induction n generalizing k with
  | zero =>
    have hfirst := @search_append α κ _ key deps seeds [] k (seeds.map key)
    rw [List.append_nil, List.nil_append] at hfirst
    have hlist : listed key deps seeds 0 = seeds := rfl
    rw [closure, discovered, hlist, hfirst, ← List.append_assoc]
    exact congrArg _ (search_congr (hseen _ _) _ _)
  | succ n ih =>
    have hlen : (listed key deps seeds (n + 1)).length + k =
        (listed key deps seeds n).length + ((round key deps seeds (n + 1)).length + k) := by
      rw [listed_succ, List.length_append, Nat.add_assoc]
    have hnext := @search_append α κ _ key deps (round key deps seeds (n + 1)) [] k
      ((listed key deps seeds (n + 1)).map key)
    rw [List.append_nil, List.nil_append, ← round_succ] at hnext
    rw [hlen, ih, hnext, ← List.append_assoc, ← listed_succ]
    exact congrArg _ (search_congr (hseen _ _) _ _)

/-- If the lists stay below a bound then some round finds nothing. -/
theorem exists_round_eq_nil {bound : Nat}
    (h : ∀ n, (listed key deps seeds n).length ≤ bound) :
    ∃ n, round key deps seeds (n + 1) = [] := by
  by_cases hex : ∃ n, round key deps seeds (n + 1) = []
  · exact hex
  · have hgrow (n : Nat) : n ≤ (listed key deps seeds n).length := by
      induction n with
      | zero => exact Nat.zero_le _
      | succ n ih =>
        have hpos := List.length_pos_iff.mpr fun hnil => hex ⟨n, hnil⟩
        rw [listed_succ, List.length_append]
        omega
    have hle := Nat.le_trans (hgrow (bound + 1)) (h (bound + 1))
    omega

/-- **With turns for all that is listed the search is a search in rounds**, up to the first one that
finds nothing. -/
theorem closure_eq_listed {limit : Nat} (h : ∀ n, (listed key deps seeds n).length ≤ limit) :
    ∃ n, closure key deps limit seeds = listed key deps seeds n ∧
      round key deps seeds (n + 1) = [] := by
  obtain ⟨n, hnil⟩ := exists_round_eq_nil h
  refine ⟨n, ?_, hnil⟩
  have hturns := @closure_add α κ _ key deps seeds n
    (limit - (listed key deps seeds n).length)
  have hlimit : (listed key deps seeds n).length + (limit - (listed key deps seeds n).length) =
      limit := Nat.add_sub_cancel' (h n)
  rw [hlimit, listed_succ, hnil, search_nil, List.append_nil, List.append_nil] at hturns
  exact hturns

/-! ## 4. What is listed -/

/-- What is listed is the start items and new ones, each once. -/
theorem exists_found (n : Nat) : ∃ found, listed key deps seeds n = seeds ++ found ∧
    (found.map key).Nodup ∧ ∀ x ∈ found, key x ∉ seeds.map key := by
  induction n with
  | zero => exact ⟨[], by rw [List.append_nil]; rfl, by simp, by simp⟩
  | succ n ih =>
    obtain ⟨found, hlist, hnodup, hnew⟩ := ih
    have hfresh (x : α) (hx : x ∈ round key deps seeds (n + 1)) :
        key x ∉ seeds.map key ∧ key x ∉ found.map key := by
      have hnot : key x ∉ (listed key deps seeds n).map key := (of_mem_unseen hx).2
      rw [hlist, List.map_append, List.mem_append, not_or] at hnot
      exact hnot
    refine ⟨found ++ round key deps seeds (n + 1), ?_, ?_, ?_⟩
    · rw [listed_succ, hlist, List.append_assoc]
    · rw [List.map_append, List.nodup_append]
      refine ⟨hnodup, nodup_unseen _ _, ?_⟩
      rintro _ ha b hb rfl
      obtain ⟨x, hx, hkey⟩ := List.mem_map.mp hb
      exact (hfresh x hx).2 (hkey ▸ ha)
    · intro x hx
      rcases List.mem_append.mp hx with hx | hx
      · exact hnew x hx
      · exact (hfresh x hx).1

/-- What is listed was found in one of the rounds. -/
theorem mem_listed {n : Nat} {x : α} :
    x ∈ listed key deps seeds n ↔ ∃ m ≤ n, x ∈ round key deps seeds m := by
  induction n with
  | zero =>
    constructor
    · exact fun h => ⟨0, Nat.le_refl 0, h⟩
    · rintro ⟨m, hm, h⟩
      obtain rfl := Nat.le_zero.mp hm
      exact h
  | succ n ih =>
    rw [listed_succ, List.mem_append, ih]
    constructor
    · rintro (⟨m, hm, h⟩ | h)
      · exact ⟨m, Nat.le_succ_of_le hm, h⟩
      · exact ⟨n + 1, Nat.le_refl _, h⟩
    · rintro ⟨m, hm, h⟩
      rcases Nat.lt_or_eq_of_le hm with hlt | rfl
      · exact .inl ⟨m, Nat.le_of_lt_succ hlt, h⟩
      · exact .inr h

/-- What a listed item depends on is listed one round later. -/
theorem key_mem_listed_succ {n : Nat} {x y : α} (hx : x ∈ listed key deps seeds n)
    (hy : y ∈ deps x) : key y ∈ (listed key deps seeds (n + 1)).map key := by
  obtain ⟨m, hm, hround⟩ := mem_listed.mp hx
  have hnext : key y ∈ (listed key deps seeds (m + 1)).map key := by
    rw [listed_succ, List.map_append, List.mem_append]
    exact key_mem_of_mem (List.mem_flatMap.mpr ⟨x, hround, hy⟩)
  obtain ⟨z, hz, hkey⟩ := List.mem_map.mp hnext
  obtain ⟨k, hk, hz⟩ := mem_listed.mp hz
  exact hkey ▸ List.mem_map_of_mem (mem_listed.mpr ⟨k, by omega, hz⟩)

/-- Whatever a listed item depends on is listed. -/
def IsClosed (key : α → κ) (deps : α → List α) (items : List α) : Prop :=
  ∀ x ∈ items, ∀ y ∈ deps x, key y ∈ items.map key

/-- When a round finds nothing the list is closed. -/
theorem isClosed_listed {n : Nat} (h : round key deps seeds (n + 1) = []) :
    IsClosed key deps (listed key deps seeds n) := by
  intro x hx y hy
  have hnext := key_mem_listed_succ hx hy
  rwa [listed_succ, h, List.append_nil] at hnext

/-- When a round finds nothing the list stays as it is. -/
theorem listed_add_of_last {n : Nat} (hlast : round key deps seeds (n + 1) = []) (k : Nat) :
    listed key deps seeds (n + k) = listed key deps seeds n := by
  have hlater (k : Nat) : round key deps seeds (n + k + 1) = [] := by
    induction k with
    | zero => exact hlast
    | succ k ih => rw [← Nat.add_assoc, round_succ, ih, List.flatMap_nil, unseen]
  induction k with
  | zero => rfl
  | succ k ih => rw [← Nat.add_assoc, listed_succ, hlater, List.append_nil, ih]

theorem mem_listed_of_last {n : Nat} (h : round key deps seeds (n + 1) = []) {m : Nat} {x : α}
    (hx : x ∈ listed key deps seeds m) : x ∈ listed key deps seeds n := by
  by_cases hm : m ≤ n
  · obtain ⟨k, hk, hround⟩ := mem_listed.mp hx
    exact mem_listed.mpr ⟨k, by omega, hround⟩
  · obtain ⟨k, rfl⟩ : ∃ k, m = n + k := ⟨m - n, by omega⟩
    rwa [listed_add_of_last h] at hx

/-! ## 5. What is reached -/

/-- What is reached from start items, dependency by dependency. -/
inductive Reachable (deps : α → List α) (seeds : List α) : α → Prop
  | seed {x : α} (h : x ∈ seeds) : Reachable deps seeds x
  | dependency {x y : α} (h : Reachable deps seeds x) (hy : y ∈ deps x) : Reachable deps seeds y

/-- The same in a number of steps. -/
inductive ReachedIn (deps : α → List α) (seeds : List α) : Nat → α → Prop
  | seed {x : α} (h : x ∈ seeds) : ReachedIn deps seeds 0 x
  | dependency {n : Nat} {x y : α} (h : ReachedIn deps seeds n x) (hy : y ∈ deps x) :
      ReachedIn deps seeds (n + 1) y

omit [DecidableEq κ] in
theorem reachable_iff {x : α} : Reachable deps seeds x ↔ ∃ n, ReachedIn deps seeds n x := by
  constructor
  · intro h
    induction h with
    | seed h => exact ⟨0, .seed h⟩
    | dependency _ hy ih =>
      obtain ⟨n, hn⟩ := ih
      exact ⟨n + 1, .dependency hn hy⟩
  · rintro ⟨n, h⟩
    induction h with
    | seed h => exact .seed h
    | dependency _ hy ih => exact .dependency ih hy

/-- What a round finds is reached in as many steps. -/
theorem reachedIn_of_mem_round {n : Nat} : ∀ {x : α}, x ∈ round key deps seeds n →
    ReachedIn deps seeds n x := by
  induction n with
  | zero => exact fun h => .seed h
  | succ n ih =>
    intro x hx
    obtain ⟨y, hy, hdep⟩ := List.mem_flatMap.mp (of_mem_unseen hx).1
    exact .dependency (ih hy) hdep

/-- **What is listed is reached.** -/
theorem reachable_of_mem_listed {n : Nat} {x : α} (h : x ∈ listed key deps seeds n) :
    Reachable deps seeds x := by
  obtain ⟨m, _, hround⟩ := mem_listed.mp h
  exact reachable_iff.mpr ⟨m, reachedIn_of_mem_round hround⟩

/-- What has the key of a dependency depends on the same. -/
def KeysAgree (key : α → κ) (deps : α → List α) (seeds : List α) : Prop :=
  ∀ x, Reachable deps seeds x → ∀ y ∈ deps x, ∀ z, Reachable deps seeds z → key z = key y →
    deps z = deps y

section

variable (hagree : KeysAgree key deps seeds)
include hagree

/-- What is reached in a number of steps is listed after as many rounds, under its key at least. -/
theorem exists_listed_of_reachedIn {n : Nat} {x : α} (h : ReachedIn deps seeds n x) :
    ∃ z ∈ listed key deps seeds n, key z = key x ∧ deps z = deps x := by
  induction h with
  | @seed x h => exact ⟨x, h, rfl, rfl⟩
  | @dependency n x y h hy ih =>
    obtain ⟨z, hz, _, hdeps⟩ := ih
    obtain ⟨w, hw, hkey⟩ := List.mem_map.mp (key_mem_listed_succ hz (hdeps ▸ hy))
    exact ⟨w, hw, hkey,
      hagree x (reachable_iff.mpr ⟨n, h⟩) y hy w (reachable_of_mem_listed hw) hkey⟩

/-- **What is reached is listed.** -/
theorem exists_listed_of_reachable {n : Nat} (hlast : round key deps seeds (n + 1) = []) {x : α}
    (h : Reachable deps seeds x) : ∃ z ∈ listed key deps seeds n, key z = key x := by
  obtain ⟨m, hm⟩ := reachable_iff.mp h
  obtain ⟨z, hz, hkey, _⟩ := exists_listed_of_reachedIn hagree hm
  exact ⟨z, mem_listed_of_last hlast hz, hkey⟩

/-- **What a round finds is not reached in fewer steps.** -/
theorem le_of_mem_round {n m : Nat} {x y : α} (hx : x ∈ round key deps seeds n)
    (hy : ReachedIn deps seeds m y) (hkey : key y = key x) : n ≤ m := by
  cases n with
  | zero => exact Nat.zero_le m
  | succ n =>
    obtain ⟨z, hz, hkey', _⟩ := exists_listed_of_reachedIn hagree hy
    obtain ⟨k, hk, hround⟩ := mem_listed.mp hz
    by_cases hle : n + 1 ≤ m
    · exact hle
    · have hlisted : z ∈ listed key deps seeds n := mem_listed.mpr ⟨k, by omega, hround⟩
      have hold : key x ∈ (listed key deps seeds n).map key :=
        hkey ▸ hkey' ▸ List.mem_map_of_mem hlisted
      exact absurd hold (of_mem_unseen hx).2

end

/-- **A search from a closed list finds nothing more.** -/
theorem closure_of_isClosed {items : List α} (h : IsClosed key deps items) (limit : Nat) :
    closure key deps limit items = items := by
  rw [closure, discovered, search_of_seen h, List.append_nil]

end

end Tsconfig.Dependency
