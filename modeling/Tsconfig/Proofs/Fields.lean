/-
# Entries and their order

What a list of entries without a repeated key is, seen as a mapping: every entry is the value of its
key (`get?_of_mem`), and inserting one with a new key puts it at the end (`insert_of_not_mem`), so
entries with new keys are inserted as they stand (`insertAll_of_nodup`).  A list that starts with the
keys of another one, in their order, is what its entries give when they are inserted into the other one
(`insertAll_of_isPrefix`).

Of many insertions the last one of a key tells its value (`get?_insertAll`).  Where no key is repeated there is
one only, so a key has the inserted value or the one it had (`get?_insertAll_of_nodup`), and the new keys stand
behind the old ones (`keys_insertAll`).  A change of the values of some keys one after the other is one change
of all entries (`foldl_eq_map`).  Lists with the same keys in the same order are told apart by look-ups
(`eq_of_get?`).
-/
import Tsconfig.Fields

namespace Tsconfig.Fields

variable {α β : Type}

@[simp] theorem keys_append (m m' : Fields α) : keys (m ++ m') = keys m ++ keys m' := by
  simp [keys]

theorem mem_keys_of_mem {m : Fields α} {e : String × α} (h : e ∈ m) : e.1 ∈ m.keys :=
  List.mem_map_of_mem h

theorem insert_of_not_mem {m : Fields α} {key : String} (h : key ∉ m.keys) (value : α) :
    m.insert key value = m ++ [(key, value)] := by
  induction m with
  | nil => rfl
  | cons e m ih =>
    obtain ⟨k, v⟩ := e
    simp only [keys_cons, List.mem_cons, not_or] at h
    simp only [insert, if_neg (Ne.symm h.1), ih h.2, List.cons_append]

/-- An insertion adds no entry but its own. -/
theorem mem_insert {m : Fields α} {key : String} {value : α} {e : String × α}
    (h : e ∈ m.insert key value) : e = (key, value) ∨ e ∈ m := by
  induction m with
  | nil => exact .inl (List.mem_singleton.mp h)
  | cons x m ih =>
    obtain ⟨k, v⟩ := x
    by_cases hk : k = key
    · rw [insert, if_pos hk] at h
      rcases List.mem_cons.mp h with rfl | h
      · exact .inl (by rw [hk])
      · exact .inr (List.mem_cons_of_mem _ h)
    · rw [insert, if_neg hk] at h
      rcases List.mem_cons.mp h with rfl | h
      · exact .inr List.mem_cons_self
      · exact (ih h).imp_right (List.mem_cons_of_mem _)

theorem get?_eq_none {m : Fields α} {key : String} (h : key ∉ m.keys) : get? m key = none := by
  induction m with
  | nil => rfl
  | cons e m ih =>
    obtain ⟨k, v⟩ := e
    simp only [keys_cons, List.mem_cons, not_or] at h
    simp only [get?, if_neg (Ne.symm h.1), ih h.2]

theorem mem_of_get? {m : Fields α} {key : String} {value : α} (h : get? m key = some value) :
    (key, value) ∈ m := by
  induction m with
  | nil => simp [get?] at h
  | cons e m ih =>
    obtain ⟨k, v⟩ := e
    by_cases hk : k = key
    · rw [get?, if_pos hk, Option.some.injEq] at h
      rw [hk, h]
      exact List.mem_cons_self
    · rw [get?, if_neg hk] at h
      exact List.mem_cons_of_mem _ (ih h)

theorem get?_append (m m' : Fields α) (key : String) :
    get? (m ++ m') key = (get? m key).or (get? m' key) := by
  induction m with
  | nil => rfl
  | cons e m ih =>
    obtain ⟨k, v⟩ := e
    by_cases hk : k = key <;> simp [get?, hk, ih]

theorem get?_filter (m : Fields α) (p : String → Bool) (key : String) :
    get? (m.filter fun e => p e.1) key = if p key then get? m key else none := by
  induction m with
  | nil => simp [get?]
  | cons e m ih =>
    obtain ⟨k, v⟩ := e
    by_cases hk : k = key
    · subst hk
      cases hp : p k <;> simp [get?, hp, ih]
    · cases hp : p k <;> simp [get?, hp, hk, ih]

theorem contains_iff {m : Fields α} {key : String} : m.contains key = true ↔ key ∈ m.keys := by
  rw [contains, Option.isSome_iff_exists]
  constructor
  · rintro ⟨value, hvalue⟩
    exact mem_keys_of_mem (mem_of_get? hvalue)
  · intro hmem
    cases hget : get? m key with
    | some value => exact ⟨value, rfl⟩
    | none =>
      induction m with
      | nil => simp at hmem
      | cons e m ih =>
        obtain ⟨k, v⟩ := e
        by_cases hk : k = key
        · simp [get?, hk] at hget
        · rw [get?, if_neg hk] at hget
          exact ih (by simpa [Ne.symm hk] using hmem) hget

/-- In a list that repeats no key every entry is the value of its key. -/
theorem get?_of_mem {m : Fields α} (hm : m.keys.Nodup) {key : String} {value : α}
    (h : (key, value) ∈ m) : get? m key = some value := by
  induction m with
  | nil => simp at h
  | cons e m ih =>
    obtain ⟨k, v⟩ := e
    rw [keys_cons, List.nodup_cons] at hm
    rcases List.mem_cons.mp h with h | h
    · simp only [Prod.mk.injEq] at h
      rw [get?, if_pos h.1.symm, h.2]
    · have hne : k ≠ key := by
        rintro rfl
        have hmem : k ∈ keys m := mem_keys_of_mem h
        exact hm.1 hmem
      rw [get?, if_neg hne, ih hm.2 h]

theorem get?_eq_some_iff {m : Fields α} (hm : m.keys.Nodup) {key : String} {value : α} :
    get? m key = some value ↔ (key, value) ∈ m :=
  ⟨mem_of_get?, get?_of_mem hm⟩

theorem nodup_reverse {m : Fields α} (hm : m.keys.Nodup) : (keys m.reverse).Nodup := by
  rw [keys, List.map_reverse, List.Nodup, List.pairwise_reverse]
  exact hm.imp Ne.symm

/-- Where no key is repeated, the order of the entries does not matter to their keys. -/
theorem get?_reverse {m : Fields α} (hm : m.keys.Nodup) (key : String) :
    get? m.reverse key = get? m key := by
  apply Option.ext
  intro value
  rw [get?_eq_some_iff (nodup_reverse hm), get?_eq_some_iff hm, List.mem_reverse]

/-- Where no key is repeated, entries that are left out leave their keys without a value. -/
theorem get?_filter_entries {m : Fields α} (hm : m.keys.Nodup) (p : String → α → Bool)
    (key : String) : get? (m.filter fun e => p e.1 e.2) key = (get? m key).filter (p key) := by
  have hkept : (keys (m.filter fun e => p e.1 e.2)).Nodup :=
    List.Nodup.sublist (List.filter_sublist.map Prod.fst) hm
  apply Option.ext
  intro value
  rw [get?_eq_some_iff hkept, Option.filter_eq_some_iff, get?_eq_some_iff hm, List.mem_filter]

theorem exists_mem_of_mem_keys {m : Fields α} {key : String} (h : key ∈ m.keys) :
    ∃ value, (key, value) ∈ m := by
  obtain ⟨e, he, rfl⟩ := List.mem_map.mp h
  exact ⟨e.2, he⟩

/-- The values of the keys, in their order, tell the entries. -/
theorem eq_of_get? {m m' : Fields α} (hm : m.keys.Nodup) (hkeys : m.keys = m'.keys)
    (h : ∀ key ∈ m.keys, get? m key = get? m' key) : m = m' := by
  induction m generalizing m' with
  | nil => simpa [keys] using hkeys.symm
  | cons e m ih =>
    cases m' with
    | nil => simp at hkeys
    | cons e' m' =>
      obtain ⟨key, value⟩ := e
      obtain ⟨key', value'⟩ := e'
      obtain ⟨rfl, hrest⟩ : key = key' ∧ keys m = keys m' := by simpa using hkeys
      rw [keys_cons, List.nodup_cons] at hm
      have hvalue : value = value' := by simpa [get?] using h key (by simp)
      have hlater : m = m' := by
        refine ih hm.2 hrest fun other hother => ?_
        have hne : key ≠ other := (ne_of_mem_of_not_mem hother hm.1).symm
        simpa [get?, hne] using h other (by simp [hother])
      rw [hvalue, hlater]

/-- Entries with new keys are put at the end one after the other. -/
theorem insertAll_of_nodup {m entries : Fields α} (h : (m ++ entries).keys.Nodup) :
    insertAll m entries = m ++ entries := by
  induction entries generalizing m with
  | nil => simp [insertAll]
  | cons e entries ih =>
    obtain ⟨key, value⟩ := e
    have hnew : key ∉ m.keys := by
      rw [keys_append, List.nodup_append] at h
      exact fun hmem => h.2.2 key hmem key (by simp) rfl
    have happ : m ++ (key, value) :: entries = (m ++ [(key, value)]) ++ entries := by simp
    rw [happ] at h ⊢
    rw [← ih h, ← insert_of_not_mem hnew]
    rfl

/-- Inserting a key that is there replaces its value. -/
theorem insert_eq_map {m : Fields α} (hm : m.keys.Nodup) {key : String} {old value : α}
    (h : get? m key = some old) :
    insert m key value = m.map fun e => if e.1 = key then (e.1, value) else e := by
  induction m with
  | nil => simp [get?] at h
  | cons e m ih =>
    obtain ⟨k, v⟩ := e
    rw [keys_cons, List.nodup_cons] at hm
    by_cases hk : k = key
    · obtain rfl := hk
      have hrest : m.map (fun e => if e.1 = k then (e.1, value) else e) = m := by
        conv => rhs; rw [← List.map_id m]
        refine List.map_congr_left fun e he => ?_
        have hmem : e.1 ∈ keys m := mem_keys_of_mem he
        have hne : e.1 ≠ k := fun heq => hm.1 (heq ▸ hmem)
        rw [if_neg hne, id]
      rw [insert, if_pos rfl, List.map_cons, if_pos rfl, hrest]
    · rw [get?, if_neg hk] at h
      rw [insert, if_neg hk, List.map_cons, if_neg hk, ih hm.2 h]

theorem insert_append_of_not_mem {pre : Fields α} {key : String} (h : key ∉ pre.keys)
    (m : Fields α) (value : α) : insert (pre ++ m) key value = pre ++ insert m key value := by
  induction pre with
  | nil => rfl
  | cons e pre ih =>
    obtain ⟨k, v⟩ := e
    simp only [keys_cons, List.mem_cons, not_or] at h
    rw [List.cons_append, insert, if_neg (Ne.symm h.1), ih h.2, List.cons_append]

/-- Entries with the keys that are there replace the values one after the other. -/
theorem insertAll_of_keys {m entries : Fields α} (hk : entries.keys = m.keys) :
    ∀ pre : Fields α, (pre ++ entries).keys.Nodup →
      insertAll (pre ++ m) entries = pre ++ entries := by
  induction entries generalizing m with
  | nil =>
    intro pre _
    cases m with
    | nil => rfl
    | cons e m => simp at hk
  | cons e entries ih =>
    obtain ⟨key, value⟩ := e
    intro pre hnodup
    cases m with
    | nil => simp at hk
    | cons e m =>
      obtain ⟨k, old⟩ := e
      obtain ⟨rfl, hrest⟩ : key = k ∧ keys entries = keys m := by simpa using hk
      have hnew : key ∉ pre.keys := by
        rw [keys_append, List.nodup_append] at hnodup
        exact fun hmem => hnodup.2.2 key hmem key (by simp) rfl
      have hinsert : insert (pre ++ (key, old) :: m) key value = (pre ++ [(key, value)]) ++ m := by
        rw [insert_append_of_not_mem hnew, insert, if_pos rfl]
        simp
      have happ : pre ++ (key, value) :: entries = (pre ++ [(key, value)]) ++ entries := by simp
      rw [happ] at hnodup ⊢
      rw [← ih hrest _ hnodup, ← hinsert]
      rfl

/-- **Entries that start with the keys that are there are what inserting them gives.** -/
theorem insertAll_of_isPrefix {m entries : Fields α} (hk : m.keys <+: entries.keys)
    (hnodup : entries.keys.Nodup) : insertAll m entries = entries := by
  obtain ⟨rest, hrest⟩ := hk
  have htake : keys (entries.take m.length) = m.keys := by
    have hlen : m.length = m.keys.length := by simp [keys]
    have hmap : keys (entries.take m.length) = entries.keys.take m.length := by
      simp [keys, List.map_take]
    rw [hmap, ← hrest, hlen, List.take_left]
  have hsplit := List.take_append_drop m.length entries
  rw [← hsplit] at hnodup
  have hfront : (keys ([] ++ entries.take m.length)).Nodup := by
    rw [keys_append, List.nodup_append] at hnodup
    exact hnodup.1
  have hfirst := insertAll_of_keys htake [] hfront
  have hboth : insertAll m entries =
      insertAll (insertAll m (entries.take m.length)) (entries.drop m.length) := by
    unfold insertAll
    rw [← List.foldl_append, hsplit]
  simp only [List.nil_append] at hfirst
  rw [hboth, hfirst, insertAll_of_nodup hnodup, hsplit]

/-! ## Many insertions -/

section

variable {m entries : Fields α} {key : String}

theorem mem_keys_insert {other : String} {value : α} :
    other ∈ (m.insert key value).keys ↔ other ∈ m.keys ∨ other = key := by
  rw [keys_insert]
  split
  · next hmem =>
    constructor
    · exact .inl
    · rintro (h | rfl)
      · exact h
      · exact hmem
  · simp

theorem insertAll_cons (e : String × α) :
    insertAll m (e :: entries) = insertAll (m.insert e.1 e.2) entries := rfl

theorem mem_keys_insertAll :
    key ∈ (insertAll m entries).keys ↔ key ∈ m.keys ∨ key ∈ entries.keys := by
  induction entries generalizing m with
  | nil => simp [insertAll]
  | cons e entries ih => rw [insertAll_cons, ih, mem_keys_insert, keys_cons, List.mem_cons, or_assoc]

theorem nodup_insertAll (h : m.keys.Nodup) (entries : Fields α) :
    (insertAll m entries).keys.Nodup := by
  induction entries generalizing m with
  | nil => exact h
  | cons e entries ih => exact ih (nodup_insert h e.1 e.2)

/-- The keys that are there stay in front. -/
theorem isPrefix_insertAll (m entries : Fields α) : m.keys <+: (insertAll m entries).keys := by
  induction entries generalizing m with
  | nil => exact List.prefix_refl _
  | cons e entries ih =>
    have hfirst : m.keys <+: (m.insert e.1 e.2).keys := by
      rw [keys_insert]
      split
      · exact List.prefix_refl _
      · exact List.prefix_append _ _
    exact hfirst.trans (ih _)

theorem mem_insertAll {e : String × α} (h : e ∈ insertAll m entries) : e ∈ m ∨ e ∈ entries := by
  induction entries generalizing m with
  | nil => exact .inl h
  | cons x entries ih =>
    rcases ih h with h | h
    · rcases mem_insert h with rfl | h
      · exact .inr List.mem_cons_self
      · exact .inl h
    · exact .inr (List.mem_cons_of_mem x h)

/-- **The last value that is inserted for a key is its value**, and a key for which none is inserted has
the value that it had. -/
theorem get?_insertAll (m entries : Fields α) (key : String) :
    (insertAll m entries).get? key = (get? entries.reverse key).or (m.get? key) := by
  induction entries generalizing m with
  | nil => rfl
  | cons e entries ih =>
    rw [insertAll_cons, ih, List.reverse_cons, get?_append, get?_insert, Option.or_assoc]
    by_cases hkey : e.1 = key <;> simp [get?, hkey]

theorem get?_insertAll_of_nodup (h : entries.keys.Nodup) (m : Fields α) (key : String) :
    (insertAll m entries).get? key = (get? entries key).or (m.get? key) := by
  rw [get?_insertAll, get?_reverse h]

/-- New keys are put at the end, in the order of the entries. -/
theorem keys_insertAll (h : entries.keys.Nodup) (m : Fields α) :
    (insertAll m entries).keys = m.keys ++ entries.keys.filter fun key => key ∉ m.keys := by
  induction entries generalizing m with
  | nil => simp [insertAll]
  | cons e entries ih =>
    rw [keys_cons, List.nodup_cons] at h
    rw [insertAll_cons, ih h.2, keys_insert, keys_cons]
    split
    · next hmem => rw [List.filter_cons_of_neg (by simpa using hmem)]
    · next hnew =>
      have hlater : (keys entries).filter (fun key => key ∉ m.keys ++ [e.1]) =
          (keys entries).filter fun key => key ∉ m.keys := by
        refine List.filter_congr fun key hkey => ?_
        have hne : key ≠ e.1 := ne_of_mem_of_not_mem hkey h.1
        simp [hne]
      rw [List.filter_cons_of_pos (by simpa using hnew), hlater, List.append_assoc,
        List.singleton_append]

end

/-! ## Changing values -/

section

variable {m : Fields α}

@[simp] theorem keys_map (f : String → α → β) (m : Fields α) :
    keys (m.map fun e => (e.1, f e.1 e.2)) = m.keys := by
  rw [keys, keys, List.map_map]
  rfl

theorem get?_map (f : String → α → β) (m : Fields α) (key : String) :
    get? (m.map fun e => (e.1, f e.1 e.2)) key = (get? m key).map (f key) := by
  induction m with
  | nil => rfl
  | cons e m ih =>
    by_cases hkey : e.1 = key
    · simp [get?, hkey]
    · simp [get?, hkey, ih]

/-- **Changes of some keys one after the other are one change.** -/
theorem foldl_eq_map {step : Fields α → String → Fields α} {f : String → α → α} {names : List String}
    (hstep : ∀ m : Fields α, m.keys.Nodup → ∀ name,
      step m name = m.map fun e => (e.1, if e.1 = name then f e.1 e.2 else e.2))
    (hnames : names.Nodup) (hm : m.keys.Nodup) :
    names.foldl step m = m.map fun e => (e.1, if e.1 ∈ names then f e.1 e.2 else e.2) := by
  induction names generalizing m with
  | nil => simp
  | cons name names ih =>
    rw [List.nodup_cons] at hnames
    have hkeys : (step m name).keys = m.keys := by
      rw [hstep m hm]
      exact keys_map (fun key value => if key = name then f key value else value) m
    rw [List.foldl_cons, ih hnames.2 (hkeys ▸ hm), hstep m hm, List.map_map]
    refine List.map_congr_left fun e _ => ?_
    by_cases hname : e.1 = name
    · simp [hname, hnames.1]
    · simp [hname]

end

end Tsconfig.Fields
