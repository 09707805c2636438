/-
# Values read back

A laid out value is read with each number replaced by what its text is read as
(`value_prettyChars`), provided that it nests no deeper than the reader goes and that no object in it
repeats a key.  These two hold of whatever a reader has read (`nests_of_value`), so they are facts about
documents and not assumptions about them.  A value whose numbers read back is read as the value it was
(`parseObject?_pretty`).

The loops over items and entries are opened once (`items_first`, `items_later`, `members_first`,
`members_later` and the ends), for any reader of an item; what a whole list does follows by induction
on the list, with a property of the state that each entry hands on to the next
(`members_prettyFields`).
-/
import Tsconfig.Proofs.Fields
import Tsconfig.Proofs.Json.Lexeme

namespace Tsconfig.Json

open Reader

/-- A value in which arrays and objects nest at most `depth` deep and no object repeats a key. -/
inductive Nests : Nat → Json → Prop
  | null (depth : Nat) : Nests depth .null
  | bool (depth : Nat) (b : Bool) : Nests depth (.bool b)
  | number (depth : Nat) (n : Number) : Nests depth (.number n)
  | string (depth : Nat) (s : String) : Nests depth (.string s)
  | array (depth : Nat) (items : List Json) (h : ∀ v ∈ items, Nests depth v) :
      Nests (depth + 1) (.array items)
  | object (depth : Nat) (fields : Fields Json) (hk : fields.keys.Nodup)
      (h : ∀ e ∈ fields, Nests depth e.2) : Nests (depth + 1) (.object fields)

mutual

/-- The numbers in a value. -/
def numbers : Json → List Number
  | .number n => [n]
  | .array items => itemNumbers items
  | .object fields => fieldNumbers fields
  | _ => []

/-- The numbers in the items of an array. -/
def itemNumbers : List Json → List Number
  | [] => []
  | v :: rest => numbers v ++ itemNumbers rest

/-- The numbers in the entries of an object. -/
def fieldNumbers : List (String × Json) → List Number
  | [] => []
  | (_, v) :: rest => numbers v ++ fieldNumbers rest

end

theorem itemNumbers_eq (items : List Json) : itemNumbers items = items.flatMap numbers := by
  induction items with
  | nil => simp [itemNumbers]
  | cons v rest ih => simp [itemNumbers, ih]

theorem fieldNumbers_eq (fields : List (String × Json)) :
    fieldNumbers fields = fields.flatMap fun e => numbers e.2 := by
  induction fields with
  | nil => simp [fieldNumbers]
  | cons e rest ih => simp [fieldNumbers, ih]

mutual

/-- A value with its numbers replaced. -/
def mapNumbers (f : Number → Number) : Json → Json
  | .number n => .number (f n)
  | .array items => .array (mapItems f items)
  | .object fields => .object (mapFields f fields)
  | v => v

/-- Items with their numbers replaced. -/
def mapItems (f : Number → Number) : List Json → List Json
  | [] => []
  | v :: rest => mapNumbers f v :: mapItems f rest

/-- Entries with their numbers replaced. -/
def mapFields (f : Number → Number) : List (String × Json) → List (String × Json)
  | [] => []
  | (key, v) :: rest => (key, mapNumbers f v) :: mapFields f rest

end

section

variable {f : Number → Number}

theorem mapItems_eq (items : List Json) : mapItems f items = items.map (mapNumbers f) := by
  induction items with
  | nil => simp [mapItems]
  | cons v rest ih => simp [mapItems, ih]

theorem mapFields_eq (fields : List (String × Json)) :
    mapFields f fields = fields.map fun e => (e.1, mapNumbers f e.2) := by
  induction fields with
  | nil => simp [mapFields]
  | cons e rest ih => simp [mapFields, ih]

@[simp] theorem keys_mapFields (fields : Fields Json) :
    Fields.keys (mapFields f fields) = fields.keys := by
  simp [mapFields_eq, Fields.keys]

@[simp] theorem mapFields_append (fields more : Fields Json) :
    mapFields f (fields ++ more) = mapFields f fields ++ mapFields f more := by
  simp [mapFields_eq]

theorem get?_mapFields (fields : Fields Json) (key : String) :
    Fields.get? (mapFields f fields) key = (fields.get? key).map (mapNumbers f) := by
  induction fields with
  | nil => rfl
  | cons e rest ih =>
    obtain ⟨k, v⟩ := e
    by_cases hk : k = key <;> simp [mapFields, Fields.get?, hk, ih]

@[simp] theorem mapNumbers_strings (xs : List String) :
    (strings xs).mapNumbers f = .strings xs := by
  have hsame : mapNumbers f ∘ .string = Json.string := by
    funext s
    simp [mapNumbers]
  rw [strings, mapNumbers, mapItems_eq, List.map_map, hsame]

theorem mapNumbers_eq_null {v : Json} : v.mapNumbers f = .null ↔ v = .null := by
  cases v <;> simp [mapNumbers]

/-- Replacing numbers does not change how a value nests. -/
theorem Nests.mapNumbers {depth : Nat} {v : Json} (h : Nests depth v) :
    Nests depth (v.mapNumbers f) := by
  induction h with
  | null depth => simpa [Json.mapNumbers] using .null depth
  | bool depth b => simpa [Json.mapNumbers] using .bool depth b
  | number depth n => simpa [Json.mapNumbers] using .number depth (f n)
  | string depth s => simpa [Json.mapNumbers] using .string depth s
  | array depth items _ ih =>
    rw [Json.mapNumbers, mapItems_eq]
    refine .array depth _ fun w hw => ?_
    obtain ⟨v, hv, rfl⟩ := List.mem_map.mp hw
    exact ih v hv
  | object depth fields hk _ ih =>
    rw [Json.mapNumbers]
    refine .object depth _ (by rwa [keys_mapFields]) fun e' he' => ?_
    rw [mapFields_eq] at he'
    obtain ⟨e, he, rfl⟩ := List.mem_map.mp he'
    exact ih e he

end

mutual

/-- Numbers that are replaced by themselves leave the value as it is. -/
theorem mapNumbers_id : ∀ v : Json, v.mapNumbers id = v
  | .null | .bool _ | .number _ | .string _ => by simp [mapNumbers]
  | .array items => by rw [mapNumbers, mapItems_id items]
  | .object fields => by rw [mapNumbers, mapFields_id fields]

theorem mapItems_id : ∀ items : List Json, mapItems id items = items
  | [] => rfl
  | v :: rest => by rw [mapItems, mapNumbers_id v, mapItems_id rest]

theorem mapFields_id : ∀ fields : List (String × Json), mapFields id fields = fields
  | [] => rfl
  | (key, v) :: rest => by rw [mapFields, mapNumbers_id v, mapFields_id rest]

end

namespace Reader

/-! ## 1. Turns of the loops -/

section

variable {α σ : Type} {item : Reader α} {member : σ → String → Reader σ}

/-- A reader that reads past blanks in front and takes neither the end of the text nor a closing
bracket for an item. -/
structure ReadsItems (item : Reader α) : Prop where
  past (cs : List Char) : item (skipBlanks cs) = item cs
  nonempty (x : α) (r : List Char) : item [] ≠ .ok (x, r)
  unclosed (cs : List Char) (x : α) (r : List Char) : item (']' :: cs) ≠ .ok (x, r)

/-- Where an item is read, the text behind the blanks begins with no closing bracket. -/
theorem ReadsItems.begins (hi : ReadsItems item) {cs r : List Char} {x : α}
    (h : item cs = .ok (x, r)) : ∃ c text, skipBlanks cs = c :: text ∧ c ≠ ']' := by
  rw [← hi.past] at h
  cases ht : skipBlanks cs with
  | nil => exact absurd (ht ▸ h) (hi.nonempty x r)
  | cons c text =>
    refine ⟨c, text, rfl, ?_⟩
    rintro rfl
    exact hi.unclosed text x r (ht ▸ h)

theorem items_end {cs r : List Char} (h : skipBlanks cs = ']' :: r) (limit : Nat) (first : Bool) :
    items item (limit + 1) first cs = .ok ([], r) := by
  unfold items
  simp [h]

theorem items_first (hi : ReadsItems item) {cs r₁ r : List Char} {x : α} {xs : List α}
    (hx : item cs = .ok (x, r₁)) {limit : Nat} (hxs : items item limit false r₁ = .ok (xs, r)) :
    items item (limit + 1) true cs = .ok (x :: xs, r) := by
  obtain ⟨c, text, ht, hc⟩ := hi.begins hx
  rw [← hi.past, ht] at hx
  unfold items
  simp [ht, hx, hxs]

theorem items_later (hi : ReadsItems item) {cs cs' r₁ r : List Char} {x : α} {xs : List α}
    (hcs : skipBlanks cs = ',' :: cs') (hx : item cs' = .ok (x, r₁)) {limit : Nat}
    (hxs : items item limit false r₁ = .ok (xs, r)) :
    items item (limit + 1) false cs = .ok (x :: xs, r) := by
  obtain ⟨c, text, ht, hc⟩ := hi.begins hx
  rw [← hi.past, ht] at hx
  unfold items
  simp [hcs, ht, hc, hx, hxs]

theorem members_end {cs r : List Char} (h : skipBlanks cs = '\x7d' :: r) (limit : Nat)
    (first : Bool) (s : σ) : members member (limit + 1) first s cs = .ok (s, r) := by
  unfold members
  simp [h]

theorem members_first {cs text r₁ r₂ : List Char} {key : String} {s s' : σ}
    {result : Except Fault (σ × List Char)}
    (hcs : skipBlanks cs = '"' :: text) (hk : string text = .ok (key, r₁))
    (hm : member s key r₁ = .ok (s', r₂)) {limit : Nat}
    (hrest : members member limit false s' r₂ = result) :
    members member (limit + 1) true s cs = result := by
  rw [← hrest]
  conv => lhs; unfold members
  simp [hcs, hk, hm]

theorem members_later {cs cs' text r₁ r₂ : List Char} {key : String} {s s' : σ}
    {result : Except Fault (σ × List Char)}
    (hcs : skipBlanks cs = ',' :: cs') (hcs' : skipBlanks cs' = '"' :: text)
    (hk : string text = .ok (key, r₁)) (hm : member s key r₁ = .ok (s', r₂)) {limit : Nat}
    (hrest : members member limit false s' r₂ = result) :
    members member (limit + 1) false s cs = result := by
  rw [← hrest]
  conv => lhs; unfold members
  simp [hcs, hcs', hk, hm]

end

/-! ## 2. Laid out lists -/

theorem endsNumber_prettyItems (indent level : Nat) (items : List Json) (rest : List Char) :
    EndsNumber (prettyItems indent level items ++ rest) := by
  cases items with
  | nil => exact endsNumber_cons (by decide) (by decide) (by decide) (by decide) _
  | cons v vs => exact endsNumber_cons (by decide) (by decide) (by decide) (by decide) _

theorem endsNumber_prettyFields (indent level : Nat) (fields : List (String × Json))
    (rest : List Char) : EndsNumber (prettyFields indent level fields ++ rest) := by
  cases fields with
  | nil => exact endsNumber_cons (by decide) (by decide) (by decide) (by decide) _
  | cons e es => exact endsNumber_cons (by decide) (by decide) (by decide) (by decide) _

theorem length_le_prettyItems (indent level : Nat) (items : List Json) :
    items.length < (prettyItems indent level items).length := by
  induction items with
  | nil => simp [prettyItems]
  | cons v vs ih =>
    simp only [prettyItems, List.length_cons, List.length_append]
    omega

theorem length_le_prettyFields (indent level : Nat) (fields : List (String × Json)) :
    fields.length < (prettyFields indent level fields).length := by
  induction fields with
  | nil => simp [prettyFields]
  | cons e es ih =>
    simp only [prettyFields, List.length_cons, List.length_append]
    omega

/-- The written form of an item is read as the item, whatever ends it. -/
def ReadsAs {α : Type} (item : Reader α) (indent level : Nat) (v : Json) (x : α) : Prop :=
  ∀ rest, EndsNumber rest → item (prettyChars indent level v ++ rest) = .ok (x, rest)

theorem items_prettyItems {α β : Type} {item : Reader α} (hi : ReadsItems item) {f : β → Json}
    {g : β → α} {indent level : Nat} (xs : List β)
    (h : ∀ x ∈ xs, ReadsAs item indent (level + 1) (f x) (g x)) (rest : List Char) :
    ∀ limit, xs.length < limit →
      items item limit false (prettyItems indent level (xs.map f) ++ rest) =
        .ok (xs.map g, rest) := by
  induction xs with
  | nil =>
    intro limit hl
    obtain ⟨n, rfl⟩ : ∃ n, limit = n + 1 := ⟨limit - 1, by simp at hl; omega⟩
    refine items_end ?_ n false
    rw [List.map_nil, prettyItems, List.append_assoc, skipBlanks_newLine]
    exact skipBlanks_cons (by decide) _
  | cons x xs ih =>
    intro limit hl
    obtain ⟨n, rfl⟩ : ∃ n, limit = n + 1 := ⟨limit - 1, by simp at hl; omega⟩
    rw [List.map_cons, prettyItems]
    simp only [List.cons_append, List.append_assoc]
    refine items_later hi (skipBlanks_cons (by decide) _) ?_
      (ih (fun y hy => h y (List.mem_cons_of_mem _ hy)) n (by simpa using hl))
    rw [← hi.past, skipBlanks_newLine, hi.past]
    exact h x List.mem_cons_self _ (endsNumber_prettyItems _ _ _ _)

/-- **A laid out array is read item by item.** -/
theorem items_prettyArray {α β : Type} {item : Reader α} (hi : ReadsItems item) {f : β → Json}
    {g : β → α} {indent level : Nat} (xs : List β)
    (h : ∀ x ∈ xs, ReadsAs item indent (level + 1) (f x) (g x)) :
    ∃ body, prettyChars indent level (.array (xs.map f)) = '[' :: body ∧
      ∀ rest limit, body.length ≤ limit →
        items item limit true (body ++ rest) = .ok (xs.map g, rest) := by
  cases xs with
  | nil =>
    refine ⟨[']'], by simp [prettyChars], ?_⟩
    intro rest limit hl
    obtain ⟨n, rfl⟩ : ∃ n, limit = n + 1 := ⟨limit - 1, by simp at hl; omega⟩
    exact items_end (skipBlanks_cons (by decide) _) n true
  | cons x xs =>
    refine ⟨_, by rw [List.map_cons, prettyChars], ?_⟩
    intro rest limit hl
    have hlen := length_le_prettyItems indent level (xs.map f)
    simp only [List.length_append, List.length_map] at hl hlen
    obtain ⟨n, rfl⟩ : ∃ n, limit = n + 1 := ⟨limit - 1, by omega⟩
    simp only [List.append_assoc]
    refine items_first hi ?_ (items_prettyItems hi xs
      (fun y hy => h y (List.mem_cons_of_mem _ hy)) rest n (by
        simp only [newLine, List.length_cons] at hl; omega))
    rw [← hi.past, skipBlanks_newLine, hi.past]
    exact h x List.mem_cons_self _ (endsNumber_prettyItems _ _ _ _)

section

variable {σ : Type} {member : σ → String → Reader σ} {indent level : Nat}

/-- The text of an entry from the colon on. -/
def afterKey (indent level : Nat) (v : Json) (rest : List Char) : List Char :=
  ':' :: ' ' :: (prettyChars indent (level + 1) v ++ rest)

/-- An entry that is read turns a state that is fit for it into one that is fit for the rest. -/
def StepsThrough (member : σ → String → Reader σ) (indent level : Nat)
    (Fit : Fields Json → σ → Prop) : Prop :=
  ∀ key v fields s, Fit ((key, v) :: fields) s → ∃ s', Fit fields s' ∧
    ∀ rest, EndsNumber rest → member s key (afterKey indent level v rest) = .ok (s', rest)

theorem members_prettyFields {Fit : Fields Json → σ → Prop}
    (hstep : StepsThrough member indent level Fit) (fields : Fields Json) :
    ∀ s, Fit fields s → ∃ s', Fit [] s' ∧ ∀ rest limit, fields.length < limit →
      members member limit false s (prettyFields indent level fields ++ rest) = .ok (s', rest) := by
  induction fields with
  | nil =>
    intro s hs
    refine ⟨s, hs, ?_⟩
    intro rest limit hl
    obtain ⟨n, rfl⟩ : ∃ n, limit = n + 1 := ⟨limit - 1, by simp at hl; omega⟩
    refine members_end ?_ n false s
    rw [prettyFields, List.append_assoc, skipBlanks_newLine]
    exact skipBlanks_cons (by decide) _
  | cons e fields ih =>
    obtain ⟨key, v⟩ := e
    intro s hs
    obtain ⟨s₁, hs₁, hread⟩ := hstep key v fields s hs
    obtain ⟨s', hs', hrest⟩ := ih s₁ hs₁
    refine ⟨s', hs', ?_⟩
    intro rest limit hl
    obtain ⟨n, rfl⟩ : ∃ n, limit = n + 1 := ⟨limit - 1, by simp at hl; omega⟩
    rw [prettyFields]
    simp only [List.cons_append, List.append_assoc]
    refine members_later (skipBlanks_cons (by decide) _) ?_ (string_stringText key _)
      (hread _ (endsNumber_prettyFields _ _ _ _)) (hrest rest n (by simpa using hl))
    rw [skipBlanks_newLine, stringText]
    simp only [List.cons_append, List.append_assoc, List.nil_append]
    exact skipBlanks_cons (by decide) _

/-- **A laid out object is read entry by entry.** -/
theorem members_prettyObject {Fit : Fields Json → σ → Prop}
    (hstep : StepsThrough member indent level Fit) (fields : Fields Json) {s : σ}
    (hs : Fit fields s) : ∃ s', Fit [] s' ∧
      ∃ body, prettyChars indent level (.object fields) = '\x7b' :: body ∧
        ∀ rest limit, body.length ≤ limit →
          members member limit true s (body ++ rest) = .ok (s', rest) := by
  cases fields with
  | nil =>
    refine ⟨s, hs, ['\x7d'], by simp [prettyChars], ?_⟩
    intro rest limit hl
    obtain ⟨n, rfl⟩ : ∃ n, limit = n + 1 := ⟨limit - 1, by simp at hl; omega⟩
    exact members_end (skipBlanks_cons (by decide) _) n true s
  | cons e fields =>
    obtain ⟨key, v⟩ := e
    obtain ⟨s₁, hs₁, hread⟩ := hstep key v fields s hs
    obtain ⟨s', hs', hrest⟩ := members_prettyFields hstep fields s₁ hs₁
    refine ⟨s', hs', _, by rw [prettyChars], ?_⟩
    intro rest limit hl
    have hlen := length_le_prettyFields indent level fields
    simp only [List.length_append, List.length_cons] at hl
    obtain ⟨n, rfl⟩ : ∃ n, limit = n + 1 := ⟨limit - 1, by omega⟩
    simp only [List.cons_append, List.append_assoc]
    refine members_first ?_ (string_stringText key _)
      (hread _ (endsNumber_prettyFields _ _ _ _)) (hrest rest n (by omega))
    rw [skipBlanks_newLine, stringText]
    simp only [List.cons_append, List.append_assoc, List.nil_append]
    exact skipBlanks_cons (by decide) _

end

/-! ## 3. Values -/

theorem readsItems_value (depth : Nat) : ReadsItems (value depth) := by
  have hpast (container : Reader Json) (cs : List Char) :
      valueWith container (skipBlanks cs) = valueWith container cs := by
    simp only [valueWith, skipBlanks_skipBlanks]
  have hend (container : Reader Json) (hc : ∀ cs x r, container (']' :: cs) ≠ .ok (x, r)) :
      ReadsItems (valueWith container) := by
    refine ⟨hpast container, ?_, ?_⟩
    · intro x r h
      simp [valueWith, skipBlanks] at h
    · intro cs x r h
      obtain ⟨c, text, ht, hb⟩ := begins_of_valueWith h
      rw [skipBlanks_cons (by decide)] at ht
      obtain ⟨rfl, rfl⟩ : ']' = c ∧ cs = text := by simpa using ht
      cases hb with
      | container hk _ => revert hk; decide
      | null hk => revert hk; decide
      | bool hk => revert hk; decide
      | negative hk => revert hk; decide
      | number hk => revert hk; decide
      | string hk => revert hk; decide
  cases depth with
  | zero => exact hend _ fun cs x r h => by simp at h
  | succ depth => exact hend _ fun cs x r h => by simp [containerOf] at h

theorem colon_afterKey (indent level : Nat) (v : Json) (rest : List Char) :
    colon (afterKey indent level v rest) =
      .ok (' ' :: (prettyChars indent (level + 1) v ++ rest)) := by
  simp [colon, afterKey, skipBlanks_cons (c := ':') (by decide)]

theorem ReadsItems.blank {α : Type} {item : Reader α} (hi : ReadsItems item) (cs : List Char) :
    item (' ' :: cs) = item cs := by
  rw [← hi.past, skipBlanks_cons_of_blank (by decide), hi.past]

/-- Entries with different keys are read in their order. -/
theorem stepsThrough_entry {f : Number → Number} {depth indent level : Nat} {fields : Fields Json}
    (hk : fields.keys.Nodup)
    (h : ∀ e ∈ fields, ReadsAs (value depth) indent (level + 1) e.2 (e.2.mapNumbers f)) :
    StepsThrough (entry (value depth)) indent level fun later m =>
      ∃ before, before ++ later = fields ∧ m = mapFields f before := by
  rintro key v later m ⟨before, hbefore, rfl⟩
  have hnew : key ∉ Fields.keys (mapFields f before) := by
    rw [← hbefore, Fields.keys_append, List.nodup_append] at hk
    rw [keys_mapFields]
    exact fun hmem => hk.2.2 key hmem key (by simp) rfl
  refine ⟨mapFields f before ++ [(key, v.mapNumbers f)],
    ⟨before ++ [(key, v)], by simp [hbefore], by simp [mapFields]⟩, ?_⟩
  intro rest hr
  have hv := h (key, v) (by simp [← hbefore]) rest hr
  simp only [entry, colon_afterKey, (readsItems_value depth).blank, hv,
    Fields.insert_of_not_mem hnew]

theorem value_bracket (depth : Nat) (rest : List Char) :
    value (depth + 1) ('[' :: rest) =
      mapped .array (items (value depth) (rest.length + 1) true) rest := by
  simp [value, valueWith, skipBlanks_cons (c := '[') (by decide), containerOf]

theorem value_brace (depth : Nat) (rest : List Char) :
    value (depth + 1) ('\x7b' :: rest) =
      mapped .object (members (entry (value depth)) (rest.length + 1) true []) rest := by
  simp [value, valueWith, skipBlanks_cons (c := '\x7b') (by decide), containerOf]

/-- **A laid out value is read with each number replaced by what its text is read as.** -/
theorem value_prettyChars {f : Number → Number} {depth indent : Nat} {v : Json} (h : Nests depth v) :
    ∀ level, (∀ n ∈ v.numbers, n.ReadsTo (f n)) →
      ReadsAs (value depth) indent level v (v.mapNumbers f) := by
  induction h with
  | null depth =>
    intro level _ rest _
    cases depth <;>
      simp [value, valueWith, prettyChars, skipBlanks, isBlank, literal, word, mapNumbers]
  | bool depth b =>
    intro level _ rest _
    cases depth <;> cases b <;>
      simp [value, valueWith, prettyChars, skipBlanks, isBlank, literal, word, mapNumbers]
  | number depth n =>
    intro level hn rest hr
    rw [prettyChars, mapNumbers]
    have hto : n.ReadsTo (f n) := hn n (by simp [numbers])
    cases depth with
    | zero => exact valueWith_numberText hto hr _
    | succ depth => exact valueWith_numberText hto hr _
  | string depth s =>
    intro level _ rest _
    have := string_stringText s rest
    cases depth <;>
      simp [value, valueWith, prettyChars, stringText, skipBlanks, isBlank, mapped, this, mapNumbers]
  | array depth items _ ih =>
    intro level hn rest _
    have hitems : ∀ v ∈ items, ReadsAs (value depth) indent (level + 1) (id v) (v.mapNumbers f) := by
      intro v hv
      refine ih v hv (level + 1) fun n hmem => hn n ?_
      rw [numbers, itemNumbers_eq]
      exact List.mem_flatMap_of_mem hv hmem
    obtain ⟨body, hbody, hread⟩ := items_prettyArray (readsItems_value depth) items hitems
    rw [List.map_id] at hbody
    rw [hbody, List.cons_append, value_bracket, mapped, hread rest _ (by simp; omega), mapNumbers,
      mapItems_eq]
  | object depth fields hk _ ih =>
    intro level hn rest _
    have hfields : ∀ e ∈ fields,
        ReadsAs (value depth) indent (level + 1) e.2 (e.2.mapNumbers f) := by
      intro e he
      refine ih e he (level + 1) fun n hmem => hn n ?_
      rw [numbers, fieldNumbers_eq]
      exact List.mem_flatMap_of_mem he hmem
    obtain ⟨m, ⟨before, hbefore, rfl⟩, body, hbody, hread⟩ :=
      members_prettyObject (stepsThrough_entry hk hfields) fields (s := []) ⟨[], rfl, rfl⟩
    obtain rfl : before = fields := by simpa using hbefore
    rw [hbody, List.cons_append, value_brace, mapped, hread rest _ (by simp; omega), mapNumbers]

end Reader

/-- **The laid out text of an object is a document with its entries.** -/
theorem parseObject?_pretty {indent : Nat} {fields : Fields Json}
    (h : Nests depthLimit (.object fields))
    (hn : ∀ n ∈ (Json.object fields).numbers, n.ReadsBack) :
    parseObject? ((Json.object fields).pretty indent) = some fields := by
  have := @value_prettyChars id _ indent _ h 0 hn [] endsNumber_nil
  rw [List.append_nil, mapNumbers_id] at this
  simp [parseObject?, parse?, parse, atEnd, pretty, this, skipBlanks]

/-! ## 4. What is read nests -/

namespace Reader

section

variable {α σ : Type} {item : Reader α} {member : σ → String → Reader σ}

/-- The next item of an array, or the next key of an object, begins a text.  Unless it is the first one
it stands behind a comma. -/
def AtNext (first : Bool) (cs text : List Char) : Prop :=
  if first then skipBlanks cs = text
  else ∃ tail, skipBlanks cs = ',' :: tail ∧ skipBlanks tail = text

/-- What one turn over items does: it ends, or it reads an item and goes on. -/
theorem items_turn {limit : Nat} {first : Bool} {cs r : List Char} {xs : List α}
    (h : items item (limit + 1) first cs = .ok (xs, r)) :
    (skipBlanks cs = ']' :: r ∧ xs = []) ∨ ∃ text x r' xs', AtNext first cs text ∧
      item text = .ok (x, r') ∧ items item limit false r' = .ok (xs', r) ∧ xs = x :: xs' := by
  unfold items at h
  simp only at h
  split at h
  · simp at h
  · next hcs =>
    simp only [Except.ok.injEq, Prod.mk.injEq] at h
    obtain ⟨rfl, rfl⟩ := h
    exact .inl ⟨hcs, rfl⟩
  · next hcs =>
    -- The first item, or a later one behind its comma.
    split at h
    · next hfirst =>
      split at h
      · simp at h
      · next hx =>
        split at h
        · simp at h
        · next hxs =>
          simp only [Except.ok.injEq, Prod.mk.injEq] at h
          obtain ⟨rfl, rfl⟩ := h
          exact .inr ⟨_, _, _, _, by rw [AtNext, if_pos hfirst, hcs], hx, hxs, rfl⟩
    · next hfirst =>
      split at h
      · next hcomma =>
        split at h
        · simp at h
        · simp at h
        · split at h
          · simp at h
          · next hx =>
            split at h
            · simp at h
            · next hxs =>
              simp only [Except.ok.injEq, Prod.mk.injEq] at h
              obtain ⟨rfl, rfl⟩ := h
              refine .inr ⟨_, _, _, _, ?_, hx, hxs, rfl⟩
              rw [AtNext, if_neg hfirst]
              exact ⟨_, by rw [hcs, hcomma], rfl⟩
      · simp at h

/-- What one turn over entries does: it ends, or it reads an entry and goes on. -/
theorem members_turn {limit : Nat} {first : Bool} {s s' : σ} {cs r : List Char}
    (h : members member (limit + 1) first s cs = .ok (s', r)) :
    (skipBlanks cs = '\x7d' :: r ∧ s' = s) ∨ ∃ text key cs' s₁ r', AtNext first cs ('"' :: text) ∧
      string text = .ok (key, cs') ∧ member s key cs' = .ok (s₁, r') ∧
      members member limit false s₁ r' = .ok (s', r) := by
  unfold members at h
  simp only at h
  split at h
  · simp at h
  · next hcs =>
    simp only [Except.ok.injEq, Prod.mk.injEq] at h
    obtain ⟨rfl, rfl⟩ := h
    exact .inl ⟨hcs, rfl⟩
  · next hcs =>
    -- The first entry, or a later one behind its comma.
    split at h
    · next hfirst =>
      split at h
      · next hquote =>
        split at h
        · simp at h
        · next hkey =>
          split at h
          · simp at h
          · next hm =>
            exact .inr ⟨_, _, _, _, _, by rw [AtNext, if_pos hfirst, hcs, hquote], hkey, hm, h⟩
      · simp at h
    · next hfirst =>
      split at h
      · next hcomma =>
        split at h
        · simp at h
        · next hquote =>
          split at h
          · simp at h
          · next hkey =>
            split at h
            · simp at h
            · next hm =>
              refine .inr ⟨_, _, _, _, _, ?_, hkey, hm, h⟩
              rw [AtNext, if_neg hfirst]
              exact ⟨_, by rw [hcs, hcomma], hquote⟩
        · simp at h
        · simp at h
      · simp at h

/-- What holds of every item that is read holds of all items of a list. -/
theorem forall_of_items {P : α → Prop} (h : ∀ cs x r, item cs = .ok (x, r) → P x) :
    ∀ limit first cs xs r, items item limit first cs = .ok (xs, r) → ∀ x ∈ xs, P x := by
  intro limit
  induction limit with
  | zero =>
    intro first cs xs r hread
    simp [items] at hread
  | succ limit ih =>
    intro first cs xs r hread
    rcases items_turn hread with ⟨_, rfl⟩ | ⟨cs', x, r', xs', _, hx, hxs, rfl⟩
    · simp
    · intro y hy
      rcases List.mem_cons.mp hy with rfl | hy
      · exact h _ _ _ hx
      · exact ih false r' xs' r hxs y hy

/-- What every entry keeps holds at the end of an object if it holds at its beginning. -/
theorem invariant_of_members {P : σ → Prop}
    (h : ∀ s key cs s' r, P s → member s key cs = .ok (s', r) → P s') :
    ∀ limit first s cs s' r, P s → members member limit first s cs = .ok (s', r) → P s' := by
  intro limit
  induction limit with
  | zero =>
    intro first s cs s' r _ hread
    simp [members] at hread
  | succ limit ih =>
    intro first s cs s' r hs hread
    rcases members_turn hread with ⟨_, rfl⟩ | ⟨_, key, cs', s₁, r', _, _, hm, hrest⟩
    · exact hs
    · exact ih false s₁ r' s' r (h s key cs' s₁ r' hs hm) hrest

end

/-- Entries that repeat no key and whose values nest. -/
def FieldsNest (depth : Nat) (fields : Fields Json) : Prop :=
  fields.keys.Nodup ∧ ∀ e ∈ fields, Nests depth e.2

theorem FieldsNest.mapFields {f : Number → Number} {depth : Nat} {fields : Fields Json}
    (h : FieldsNest depth fields) : FieldsNest depth (mapFields f fields) := by
  refine ⟨by rw [keys_mapFields]; exact h.1, fun e' he' => ?_⟩
  rw [mapFields_eq] at he'
  obtain ⟨e, he, rfl⟩ := List.mem_map.mp he'
  exact (h.2 e he).mapNumbers

theorem FieldsNest.insert {depth : Nat} {fields : Fields Json} (h : FieldsNest depth fields)
    (key : String) {v : Json} (hv : Nests depth v) : FieldsNest depth (fields.insert key v) := by
  refine ⟨Fields.nodup_insert h.1 key v, ?_⟩
  intro e he
  rcases Fields.mem_insert he with rfl | he
  · exact hv
  · exact h.2 e he

/-- An entry that is read is a value behind a colon. -/
theorem entry_eq_ok {read : Reader Json} {fields fields' : Fields Json} {key : String}
    {cs r : List Char} (h : entry read fields key cs = .ok (fields', r)) :
    ∃ text v, colon cs = .ok text ∧ read text = .ok (v, r) ∧ fields' = fields.insert key v := by
  unfold entry at h
  cases hc : colon cs with
  | error f => simp [hc] at h
  | ok text =>
    cases hv : read text with
    | error f => simp [hc, hv] at h
    | ok p =>
      simp only [hc, hv, Except.ok.injEq, Prod.mk.injEq] at h
      exact ⟨text, p.1, rfl, by rw [hv, ← h.2], h.1.symm⟩

theorem fieldsNest_of_entry {depth : Nat} {read : Reader Json}
    (hread : ∀ cs v r, read cs = .ok (v, r) → Nests depth v) {fields fields' : Fields Json}
    {key : String} {cs r : List Char} (hf : FieldsNest depth fields)
    (h : entry read fields key cs = .ok (fields', r)) : FieldsNest depth fields' := by
  obtain ⟨text, v, _, hv, rfl⟩ := entry_eq_ok h
  exact hf.insert key (hread _ _ _ hv)

/-- **Whatever is read nests no deeper than the reader goes, and its objects repeat no key.** -/
theorem nests_of_value (depth : Nat) :
    ∀ cs v r, value depth cs = .ok (v, r) → Nests depth v := by
  induction depth with
  | zero =>
    intro cs v r h
    obtain ⟨c, text, _, hb⟩ := begins_of_valueWith h
    cases hb with
    | null _ hv => exact hv ▸ .null 0
    | bool _ b hv => exact hv ▸ .bool 0 b
    | negative _ n hv => exact hv ▸ .number 0 n
    | number _ n hv => exact hv ▸ .number 0 n
    | string _ s hv => exact hv ▸ .string 0 s
    | container _ hv => simp at hv
  | succ depth ih =>
    intro cs v r h
    obtain ⟨c, text, _, hb⟩ := begins_of_valueWith h
    cases hb with
    | null _ hv => exact hv ▸ .null _
    | bool _ b hv => exact hv ▸ .bool _ b
    | negative _ n hv => exact hv ▸ .number _ n
    | number _ n hv => exact hv ▸ .number _ n
    | string _ s hv => exact hv ▸ .string _ s
    | container hc hv =>
      rcases hc with rfl | rfl
      · obtain ⟨xs, hxs, rfl⟩ := mapped_eq_ok hv
        exact .array depth xs (forall_of_items ih _ _ _ _ _ hxs)
      · obtain ⟨fields, hf, rfl⟩ := mapped_eq_ok hv
        have hnest : FieldsNest depth fields :=
          invariant_of_members (P := FieldsNest depth)
            (fun _ _ _ _ _ hs hm => fieldsNest_of_entry ih hs hm) _ _ [] _ _ _
            ⟨List.nodup_nil, by simp⟩ hf
        exact .object depth fields hnest.1 hnest.2

end Reader

end Tsconfig.Json
