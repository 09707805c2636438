/-
# Entries in the order of their insertion

A mapping whose order answers show is a list of keys with values.  Inserting a key that is there
replaces its value in place; a new key goes to the end.  So every key keeps the position of its first
insertion and takes the value of its last one, and a list built by `insert` alone repeats no key
(`Fields.keys_insert`, `Fields.nodup_insert`).
-/

namespace Tsconfig

/-- A mapping from texts to values, in the order of first insertion. -/
abbrev Fields (α : Type) := List (String × α)

namespace Fields

variable {α : Type}

/-- The keys, in order. -/
def keys (m : Fields α) : List String := m.map Prod.fst

/-- The value of a key. -/
def get? : Fields α → String → Option α
  | [], _ => none
  | (k, v) :: rest, key => if k = key then some v else get? rest key

/-- Whether a key is there. -/
def contains (m : Fields α) (key : String) : Bool := (get? m key).isSome

/-- Set a key: in place if it is there, at the end if not. -/
def insert : Fields α → String → α → Fields α
  | [], key, value => [(key, value)]
  | (k, v) :: rest, key, value =>
    if k = key then (k, value) :: rest else (k, v) :: insert rest key value

/-- Set the entries of a list one after the other. -/
def insertAll (m : Fields α) (entries : List (String × α)) : Fields α :=
  entries.foldl (fun m e => insert m e.1 e.2) m

/-! ## What an insertion does -/

@[simp] theorem keys_nil : keys ([] : Fields α) = [] := rfl

@[simp] theorem keys_cons (e : String × α) (m : Fields α) : keys (e :: m) = e.1 :: keys m := rfl

theorem get?_insert (m : Fields α) (key other : String) (value : α) :
    get? (insert m key value) other = if key = other then some value else get? m other := by
  induction m with
  | nil => simp [insert, get?]
  | cons e rest ih =>
    obtain ⟨k, v⟩ := e
    by_cases hk : k = key
    · subst hk; simp [insert, get?]; split <;> simp_all
    · simp only [insert, hk, if_false, get?, ih]
      by_cases ho : k = other
      · subst ho; simp [Ne.symm hk]
      · simp [ho]

theorem keys_insert (m : Fields α) (key : String) (value : α) :
    keys (insert m key value) = if key ∈ keys m then keys m else keys m ++ [key] := by
  induction m with
  | nil => simp [insert, keys]
  | cons e rest ih =>
    obtain ⟨k, v⟩ := e
    by_cases hk : k = key
    · simp [insert, hk]
    · simp only [insert, hk, if_false, keys_cons, ih]
      by_cases hm : key ∈ keys rest
      · simp [hm]
      · simp [hm, Ne.symm hk]

theorem nodup_insert {m : Fields α} (h : (keys m).Nodup) (key : String) (value : α) :
    (keys (insert m key value)).Nodup := by
  rw [keys_insert]
  split
  · exact h
  · next hm =>
    rw [List.nodup_append]
    refine ⟨h, by simp, ?_⟩
    intro a ha b hb hab
    simp only [List.mem_singleton] at hb
    exact hm (hb ▸ hab ▸ ha)

end Fields

end Tsconfig
