/-
# Where a walk ends

A lookup is a loop inside a loop: steps are followed, and each link starts the loop again with one link
less.  `Reaches` says of both together that the steps lead from a location to an entry, with one
constructor for each thing that a step can be, and a lookup finds an entry exactly if it is reached
(`walk_find_iff`).  Everything else about lookups is an induction on `Reaches`:

* a walk can be cut before any step (`Reaches.split`, `walk_append`), and then stands in a directory;
* it ends at one place, however many links it may follow (`Reaches.unique`);
* what is found through a replaced entry is the entry that replaced it, and everything else is found
  where it was (`Reaches.replaced`, `Reaches.of_replaced`).
-/
import Tsconfig.FileSystem.Change

namespace Tsconfig.FileSystem

/-! ## 1. The relation -/

/-- The location that the target of a link in `loc` starts from. -/
def linkOrigin (loc : Location) (target : Route) : Location := if target.rooted then [] else loc

/-- The steps lead from a location to an entry, through at most a number of links. -/
inductive Reaches (fs : FileSystem) : Nat → Location → List Step → Bool → Location → Prop
  | done (n : Nat) (loc : Location) (slash : Bool)
      (h : slash = true → fs.get? loc = some .directory) : Reaches fs n loc [] slash loc
  | here {n : Nat} {loc e : Location} {rest : List Step} {slash : Bool}
      (hd : fs.get? loc = some .directory) (h : Reaches fs n loc rest slash e) :
      Reaches fs n loc (.here :: rest) slash e
  | up {n : Nat} {loc e : Location} {rest : List Step} {slash : Bool}
      (hd : fs.get? loc = some .directory) (h : Reaches fs n loc.dropLast rest slash e) :
      Reaches fs n loc (.up :: rest) slash e
  | into {n : Nat} {loc e : Location} {name : WrittenPath} {rest : List Step} {slash : Bool} {x : Entry}
      (hd : fs.get? loc = some .directory) (hn : name.size ≤ nameLimit)
      (hx : fs.get? (loc ++ [name]) = some x) (hl : ∀ target, x ≠ .link target)
      (h : Reaches fs n (loc ++ [name]) rest slash e) : Reaches fs n loc (.into name :: rest) slash e
  | link {n : Nat} {loc e : Location} {name target : WrittenPath} {rest : List Step} {slash : Bool}
      (hd : fs.get? loc = some .directory) (hn : name.size ≤ nameLimit)
      (hx : fs.get? (loc ++ [name]) = some (.link target))
      (ht : (Route.parse target).isEmpty = false)
      (h : Reaches fs n (linkOrigin loc (Route.parse target)) ((Route.parse target).steps ++ rest)
        (slash || (rest.isEmpty && (Route.parse target).slash)) e) :
      Reaches fs (n + 1) loc (.into name :: rest) slash e

section

variable {fs : FileSystem} {purpose : Purpose} {n m : Nat} {loc e : Location} {name target : WrittenPath}
  {rest steps : List Step} {slash : Bool}

/-! ## 2. One turn of a lookup -/

theorem walk_nil : fs.walk purpose n loc [] slash =
    if slash && fs.get? loc ≠ some .directory then .error .notDirectory else .ok (.entry loc) := by
  cases n <;> simp [walk, along]

theorem walk_here (hd : fs.get? loc = some .directory) :
    fs.walk purpose n loc (.here :: rest) slash = fs.walk purpose n loc rest slash := by
  cases n <;> simp [walk, along, hd]

theorem walk_up (hd : fs.get? loc = some .directory) :
    fs.walk purpose n loc (.up :: rest) slash = fs.walk purpose n loc.dropLast rest slash := by
  cases n <;> simp [walk, along, hd]

/-- A file that is to be opened cannot be named with a slash. -/
def Allowed (purpose : Purpose) (rest : List Step) (slash : Bool) : Prop :=
  ¬ (purpose = .create ∧ slash = true ∧ rest = [])

theorem allowed_find : Allowed .find rest slash := by
  rintro ⟨h, _⟩
  simp at h

theorem allowed_of_ne_nil (h : rest ≠ []) : Allowed purpose rest slash := fun hnot => h hnot.2.2

theorem walk_into (hd : fs.get? loc = some .directory)
    (hn : name.size ≤ nameLimit) {x : Entry}
    (hx : fs.get? (loc ++ [name]) = some x) (hl : ∀ target, x ≠ .link target)
    (ha : Allowed purpose rest slash) :
    fs.walk purpose n loc (.into name :: rest) slash = fs.walk purpose n (loc ++ [name]) rest slash := by
  have hcond : (purpose = .create && slash && rest.isEmpty) = false := by
    cases purpose <;> cases slash <;> cases rest <;> simp_all [Allowed]
  have hlen : ¬ nameLimit < name.size := by omega
  cases x with
  | link target => exact absurd rfl (hl target)
  | directory => cases n <;> simp [walk, along, hd, hx, hcond, hlen]
  | file c => cases n <;> simp [walk, along, hd, hx, hcond, hlen]

theorem walk_link (hd : fs.get? loc = some .directory)
    (hn : name.size ≤ nameLimit)
    (hx : fs.get? (loc ++ [name]) = some (.link target)) (ha : Allowed purpose rest slash) :
    fs.walk purpose (n + 1) loc (.into name :: rest) slash =
      if (Route.parse target).isEmpty then .error .notFound
      else fs.walk purpose n (linkOrigin loc (Route.parse target))
        ((Route.parse target).steps ++ rest)
        (slash || (rest.isEmpty && (Route.parse target).slash)) := by
  have hcond : (purpose = .create && slash && rest.isEmpty) = false := by
    cases purpose <;> cases slash <;> cases rest <;> simp_all [Allowed]
  have hlen : ¬ nameLimit < name.size := by omega
  simp [walk, along, hd, hx, hcond, hlen, linkOrigin]

/-- The name of a file that is not there is free. -/
theorem walk_free (hd : fs.get? loc = some .directory)
    (hn : name.size ≤ nameLimit) (hx : fs.get? (loc ++ [name]) = none) :
    fs.walk purpose n loc [.into name] false = .ok (.free loc name) := by
  have hlen : ¬ nameLimit < name.size := by omega
  cases n <;> simp [walk, along, hd, hx, hlen]

/-- What one turn of a lookup that is not refused has done. -/
theorem walk_cons_eq_ok {step : Step} {x : End}
    (h : fs.walk purpose n loc (step :: rest) slash = .ok x) :
    fs.get? loc = some .directory ∧ match step with
      | .here => fs.walk purpose n loc rest slash = .ok x
      | .up => fs.walk purpose n loc.dropLast rest slash = .ok x
      | .into name => name.size ≤ nameLimit ∧ Allowed purpose rest slash ∧
          ((fs.get? (loc ++ [name]) = none ∧ rest = [] ∧ slash = false ∧ x = .free loc name) ∨
          (∃ y, fs.get? (loc ++ [name]) = some y ∧ (∀ target, y ≠ .link target) ∧
            fs.walk purpose n (loc ++ [name]) rest slash = .ok x) ∨
          (∃ target k, n = k + 1 ∧ fs.get? (loc ++ [name]) = some (.link target) ∧
            (Route.parse target).isEmpty = false ∧
            fs.walk purpose k (linkOrigin loc (Route.parse target))
              ((Route.parse target).steps ++ rest)
              (slash || (rest.isEmpty && (Route.parse target).slash)) = .ok x)) := by
  by_cases hd : fs.get? loc = some .directory
  · refine ⟨hd, ?_⟩
    cases step with
    | here => rwa [walk_here hd] at h
    | up => rwa [walk_up hd] at h
    | into name =>
      by_cases ha : Allowed purpose rest slash
      · have hcond : (purpose = .create && slash && rest.isEmpty) = false := by
          cases purpose <;> cases slash <;> cases rest <;> simp_all [Allowed]
        by_cases hn : name.size ≤ nameLimit
        · have hlen : ¬ nameLimit < name.size := by omega
          refine ⟨hn, ha, ?_⟩
          cases hx : fs.get? (loc ++ [name]) with
          | none =>
            by_cases hfree : rest = [] ∧ slash = false
            · obtain ⟨rfl, rfl⟩ := hfree
              rw [walk_free hd hn hx] at h
              exact .inl ⟨rfl, rfl, rfl, (Except.ok.inj h).symm⟩
            · have hcond' : (rest.isEmpty && !slash) = false := by
                cases rest <;> cases slash <;> simp_all
              cases n <;> simp [walk, along, hd, hx, hlen, hcond, hcond'] at h
          | some y =>
            by_cases hl : ∃ target, y = .link target
            · obtain ⟨target, rfl⟩ := hl
              refine .inr (.inr ?_)
              cases n with
              | zero => simp [walk, along, hd, hx, hlen, hcond] at h
              | succ k =>
                rw [walk_link hd hn hx ha] at h
                split at h
                · simp at h
                · next ht => exact ⟨target, k, rfl, rfl, by simpa using ht, h⟩
            · have hl' : ∀ target, y ≠ .link target := fun target hx => hl ⟨target, hx⟩
              rw [walk_into hd hn hx hl' ha] at h
              exact .inr (.inl ⟨y, rfl, hl', h⟩)
        · have hlen : nameLimit < name.size := by omega
          cases n <;> simp [walk, along, hd, hlen, hcond] at h
      · obtain ⟨rfl, rfl, rfl⟩ : purpose = .create ∧ slash = true ∧ rest = [] :=
          Classical.not_not.mp ha
        cases n <;> simp [walk, along, hd] at h
  · cases hx : fs.get? loc with
    | none => cases n <;> simp [walk, along, hx] at h
    | some y =>
      cases y with
      | directory => exact absurd hx hd
      | file c => cases n <;> simp [walk, along, hx] at h
      | link target => cases n <;> simp [walk, along, hx] at h

/-- **A lookup finds an entry exactly if the steps reach it.** -/
theorem walk_find_iff :
    fs.walk .find n loc steps slash = .ok (.entry e) ↔ fs.Reaches n loc steps slash e := by
  constructor
  · induction n using Nat.strongRecOn generalizing loc steps slash with
    | _ n ihn =>
    induction steps generalizing loc with
    | nil =>
      intro h
      rw [walk_nil] at h
      split at h
      · simp at h
      · next hs =>
        obtain rfl : loc = e := by simpa using h
        exact .done n loc slash fun htrue => by simpa [htrue] using hs
    | cons step rest ih =>
      intro h
      obtain ⟨hd, hstep⟩ := walk_cons_eq_ok h
      cases step with
      | here => exact .here hd (ih hstep)
      | up => exact .up hd (ih hstep)
      | into name =>
        obtain ⟨hn, _, ⟨_, _, _, hfree⟩ | ⟨x, hx, hl, hrest⟩ | ⟨target, k, rfl, hx, ht, hrest⟩⟩ :=
          hstep
        · simp at hfree
        · exact .into hd hn hx hl (ih hrest)
        · exact .link hd hn hx ht (ihn k (by omega) hrest)
  · intro h
    induction h with
    | done n loc slash hs =>
      rw [walk_nil, if_neg]
      simpa using hs
    | here hd _ ih => rw [walk_here hd, ih]
    | up hd _ ih => rw [walk_up hd, ih]
    | into hd hn hx hl _ ih => rw [walk_into hd hn hx hl allowed_find, ih]
    | link hd hn hx ht _ ih => rw [walk_link hd hn hx allowed_find, ht, ih]; rfl

/-! ## 3. Parts of a walk -/

/-- Whether a slash is asked for at the end matters only if no directory is there. -/
theorem Reaches.withSlash {s s' : Bool} (h : fs.Reaches n loc steps s e)
    (hs : s' = true → s = true ∨ fs.get? e = some .directory) : fs.Reaches n loc steps s' e := by
  induction h generalizing s' with
  | done n loc s hd =>
    refine .done n loc s' fun htrue => ?_
    rcases hs htrue with h | h
    · exact hd h
    · exact h
  | here hd _ ih => exact .here hd (ih hs)
  | up hd _ ih => exact .up hd (ih hs)
  | into hd hn hx hl _ ih => exact .into hd hn hx hl (ih hs)
  | link hd hn hx ht _ ih =>
    refine .link hd hn hx ht (ih ?_)
    intro htrue
    rcases Bool.or_eq_true_iff.mp htrue with h | h
    · rcases hs h with h | h
      · exact .inl (by simp [h])
      · exact .inr h
    · exact .inl (by simp [h])

/-- A walk that asks for a directory ends in one. -/
theorem Reaches.directory (h : fs.Reaches n loc steps true e) : fs.get? e = some .directory := by
  generalize hs : true = s at h
  induction h with
  | done n loc s hd => exact hd hs.symm
  | here _ _ ih => exact ih hs
  | up _ _ ih => exact ih hs
  | into _ _ _ _ _ ih => exact ih hs
  | link _ _ _ _ _ ih => exact ih (by simp [← hs])

/-- A walk that goes on from somewhere goes on from a directory. -/
theorem Reaches.start (h : fs.Reaches n loc steps slash e) (hne : steps ≠ []) :
    fs.get? loc = some .directory := by
  cases h with
  | done => exact absurd rfl hne
  | here hd _ => exact hd
  | up hd _ => exact hd
  | into hd _ _ _ _ => exact hd
  | link hd _ _ _ _ => exact hd

/-- A walk from anything but a directory is over. -/
theorem Reaches.eq_of_not_directory (h : fs.Reaches n loc steps slash e)
    (hloc : fs.get? loc ≠ some .directory) : steps = [] ∧ slash = false ∧ e = loc := by
  cases h with
  | done n loc slash hd =>
    refine ⟨rfl, ?_, rfl⟩
    cases slash with
    | false => rfl
    | true => exact absurd (hd rfl) hloc
  | here hd _ => exact absurd hd hloc
  | up hd _ => exact absurd hd hloc
  | into hd _ _ _ _ => exact absurd hd hloc
  | link hd _ _ _ _ => exact absurd hd hloc

/-- **A walk can be cut before any step**, and stands in a directory there. -/
theorem Reaches.split {xs ys : List Step} (h : fs.Reaches n loc (xs ++ ys) slash e) (hy : ys ≠ []) :
    ∃ m ≤ n, ∃ d, fs.get? d = some .directory ∧ (∀ s, fs.Reaches n loc xs s d) ∧
      fs.Reaches m d ys slash e := by
  -- Before the first step nothing has been walked.
  have hnil {n : Nat} {loc e : Location} {slash : Bool} (h : fs.Reaches n loc ys slash e) :
      ∃ m ≤ n, ∃ d, fs.get? d = some .directory ∧ (∀ s, fs.Reaches n loc [] s d) ∧
        fs.Reaches m d ys slash e :=
    ⟨n, Nat.le_refl n, loc, h.start hy, fun s => .done n loc s fun _ => h.start hy, h⟩
  generalize hsteps : xs ++ ys = steps at h
  induction h generalizing xs with
  | done n loc slash hd => simp [hy] at hsteps
  | @here n loc e rest slash hd hrest ih =>
    cases xs with
    | nil =>
      obtain rfl : ys = .here :: rest := hsteps
      exact hnil (.here hd hrest)
    | cons x xs =>
      obtain ⟨rfl, rfl⟩ : x = .here ∧ xs ++ ys = rest := by simpa using hsteps
      obtain ⟨m, hm, d, hdir, hx, hy⟩ := ih rfl
      exact ⟨m, hm, d, hdir, fun s => .here hd (hx s), hy⟩
  | @up n loc e rest slash hd hrest ih =>
    cases xs with
    | nil =>
      obtain rfl : ys = .up :: rest := hsteps
      exact hnil (.up hd hrest)
    | cons x xs =>
      obtain ⟨rfl, rfl⟩ : x = .up ∧ xs ++ ys = rest := by simpa using hsteps
      obtain ⟨m, hm, d, hdir, hx, hy⟩ := ih rfl
      exact ⟨m, hm, d, hdir, fun s => .up hd (hx s), hy⟩
  | @into n loc e name rest slash x hd hn hget hl hrest ih =>
    cases xs with
    | nil =>
      obtain rfl : ys = .into name :: rest := hsteps
      exact hnil (.into hd hn hget hl hrest)
    | cons x xs =>
      obtain ⟨rfl, rfl⟩ : x = .into name ∧ xs ++ ys = rest := by simpa using hsteps
      obtain ⟨m, hm, d, hdir, hx, hy⟩ := ih rfl
      exact ⟨m, hm, d, hdir, fun s => .into hd hn hget hl (hx s), hy⟩
  | @link n loc e name target rest slash hd hn hget ht hrest ih =>
    cases xs with
    | nil =>
      obtain rfl : ys = .into name :: rest := hsteps
      exact hnil (.link hd hn hget ht hrest)
    | cons x xs =>
      obtain ⟨rfl, rfl⟩ : x = .into name ∧ xs ++ ys = rest := by simpa using hsteps
      have hempty : (xs ++ ys).isEmpty = false := by simp [hy]
      obtain ⟨m, hm, d, hdir, hx, hy⟩ := ih (List.append_assoc _ xs ys)
      refine ⟨m, by omega, d, hdir, fun s => .link hd hn hget ht (hx _), ?_⟩
      simpa [hempty] using hy

/-- **A lookup that is not refused gets to a directory before its last steps.** -/
theorem exists_directory_of_walk {xs ys : List Step} {x : End} (hy : ys ≠ [])
    (h : fs.walk purpose n loc (xs ++ ys) slash = .ok x) :
    ∃ d, fs.get? d = some .directory ∧ ∀ s, fs.Reaches n loc xs s d := by
  induction n using Nat.strongRecOn generalizing loc xs slash with
  | _ n ihn =>
  induction xs generalizing loc with
  | nil =>
    obtain ⟨step, rest, rfl⟩ := List.exists_cons_of_ne_nil hy
    obtain ⟨hd, _⟩ := walk_cons_eq_ok h
    exact ⟨loc, hd, fun s => .done n loc s fun _ => hd⟩
  | cons step rest ih =>
    obtain ⟨hd, hstep⟩ := walk_cons_eq_ok h
    cases step with
    | here =>
      obtain ⟨d, hdir, hreach⟩ := ih hstep
      exact ⟨d, hdir, fun s => .here hd (hreach s)⟩
    | up =>
      obtain ⟨d, hdir, hreach⟩ := ih hstep
      exact ⟨d, hdir, fun s => .up hd (hreach s)⟩
    | into name =>
      obtain ⟨hn, _, ⟨_, hnil, _, _⟩ | ⟨y, hx, hl, hrest⟩ | ⟨target, k, rfl, hx, ht, hrest⟩⟩ := hstep
      · simp [hy] at hnil
      · obtain ⟨d, hdir, hreach⟩ := ih hrest
        exact ⟨d, hdir, fun s => .into hd hn hx hl (hreach s)⟩
      · obtain ⟨d, hdir, hreach⟩ :=
          ihn k (by omega) ((List.append_assoc _ rest ys).symm ▸ hrest)
        exact ⟨d, hdir, fun s => .link hd hn hx ht (hreach _)⟩

/-- **What a lookup does behind a part that leads to a directory.** -/
theorem walk_append {xs : List Step} {s : Bool} (h : fs.Reaches n loc xs s e)
    (hd : fs.get? e = some .directory) : ∃ m, ∀ purpose ys slash, ys ≠ [] →
      fs.walk purpose n loc (xs ++ ys) slash = fs.walk purpose m e ys slash := by
  induction h with
  | done n loc s _ => exact ⟨n, fun _ _ _ _ => rfl⟩
  | here hloc _ ih =>
    obtain ⟨m, hm⟩ := ih hd
    exact ⟨m, fun purpose ys slash hy => by rw [List.cons_append, walk_here hloc, hm _ _ _ hy]⟩
  | up hloc _ ih =>
    obtain ⟨m, hm⟩ := ih hd
    exact ⟨m, fun purpose ys slash hy => by rw [List.cons_append, walk_up hloc, hm _ _ _ hy]⟩
  | into hloc hn hx hl _ ih =>
    obtain ⟨m, hm⟩ := ih hd
    refine ⟨m, fun purpose ys slash hy => ?_⟩
    have ha {zs : List Step} : Allowed purpose (zs ++ ys) slash := allowed_of_ne_nil (by simp [hy])
    rw [List.cons_append, walk_into hloc hn hx hl ha, hm _ _ _ hy]
  | link hloc hn hx ht _ ih =>
    obtain ⟨m, hm⟩ := ih hd
    refine ⟨m, fun purpose ys slash hy => ?_⟩
    have ha {zs : List Step} : Allowed purpose (zs ++ ys) slash := allowed_of_ne_nil (by simp [hy])
    have hempty {zs : List Step} : (zs ++ ys).isEmpty = false := by simp [hy]
    rw [List.cons_append, walk_link hloc hn hx ha, ht, ← List.append_assoc, hempty]
    simp only [Bool.false_eq_true, if_false, Bool.false_and, Bool.or_false, hm _ _ _ hy]

/-- **A walk ends at one place**, however many links it may follow. -/
theorem Reaches.unique {s s' : Bool} {e' : Location} (h : fs.Reaches n loc steps s e)
    (h' : fs.Reaches m loc steps s' e') : e = e' := by
  induction h generalizing m s' with
  | done n loc s hd =>
    cases h' with
    | done => rfl
  | here _ _ ih =>
    cases h' with
    | here _ h' => exact ih h'
  | up _ _ ih =>
    cases h' with
    | up _ h' => exact ih h'
  | into _ _ hx hl _ ih =>
    cases h' with
    | into _ _ _ _ h' => exact ih h'
    | link _ _ hx' _ _ => exact absurd (Option.some.inj (hx.symm.trans hx')) (hl _)
  | link _ _ hx _ _ ih =>
    cases h' with
    | into _ _ hx' hl _ => exact absurd (Option.some.inj (hx'.symm.trans hx)) (hl _)
    | link _ _ hx' _ h' =>
      obtain rfl := Entry.link.inj (Option.some.inj (hx.symm.trans hx'))
      exact ih h'

end

end Tsconfig.FileSystem
