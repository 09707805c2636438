/-
# What is known of a descriptor that was read

Reading a descriptor keeps five facts about the draft: its options and its unknown values nest within
the depth that the reader allows and repeat no key, the editor settings are never null, the unknown
keys are really unknown, the order mentions no key twice, and the unknown keys stand in the order in
which they are mentioned.  They are collected in `WellFormed`; one entry keeps them
(`wellFormed_of_member`), so a whole descriptor has them (`wellFormed_of_parse`).

None of them speaks about the files or the patterns, which is why both may be replaced at will.
-/
import Tsconfig.Descriptor.Parser
import Tsconfig.Proofs.Json.RoundTrip

namespace Tsconfig.Descriptor

open Json Json.Reader

/-! ## 1. The invariant -/

/-- The keys with a meaning. -/
def knownKeys : List String :=
  ["version", "compilerOptions", "files", "filesGlob", "formatCodeOptions", "compileOnSave"]

/-- Whether a key is without a meaning. -/
def isUnknown (key : String) : Bool := !knownKeys.contains key

/-- What holds of every descriptor that is read from a text. -/
structure WellFormed (d : Descriptor) : Prop where
  options : FieldsNest (depthLimit - 2) d.compilerOptions
  settings : ∀ v, d.formatCodeOptions = some v → v ≠ .null ∧ Nests (depthLimit - 1) v
  extra : FieldsNest (depthLimit - 1) d.extra
  unknown : ∀ key ∈ d.extra.keys, isUnknown key = true
  order : d.keyOrder.Nodup
  extraOrder : d.keyOrder.filter isUnknown = d.extra.keys

/-- The numbers in a descriptor. -/
def numbers (d : Descriptor) : List Number :=
  fieldNumbers d.compilerOptions ++ (d.formatCodeOptions.elim [] Json.numbers) ++
    fieldNumbers d.extra

theorem wellFormed_empty : empty.WellFormed := by
  refine ⟨⟨List.nodup_nil, by simp [empty]⟩, by simp [empty], ⟨List.nodup_nil, by simp [empty]⟩,
    by simp [empty, Fields.keys], List.nodup_nil, rfl⟩

/-- The files and the patterns may be replaced. -/
theorem WellFormed.withFiles {d : Descriptor} (h : d.WellFormed)
    (files patterns : Option (List String)) :
    { d with files := files, filesGlob := patterns }.WellFormed :=
  ⟨h.options, h.settings, h.extra, h.unknown, h.order, h.extraOrder⟩

/-- A descriptor with its numbers replaced. -/
def mapNumbers (f : Number → Number) (d : Descriptor) : Descriptor :=
  { d with
    compilerOptions := mapFields f d.compilerOptions
    formatCodeOptions := d.formatCodeOptions.map (Json.mapNumbers f)
    extra := mapFields f d.extra }

theorem mapNumbers_id (d : Descriptor) : d.mapNumbers id = d := by
  have hsame : Json.mapNumbers id = id := funext Json.mapNumbers_id
  simp [mapNumbers, mapFields_id, hsame]

theorem WellFormed.mapNumbers {f : Number → Number} {d : Descriptor} (h : d.WellFormed) :
    (d.mapNumbers f).WellFormed := by
  refine ⟨h.options.mapFields, ?_, h.extra.mapFields, ?_, h.order, ?_⟩
  · intro w hw
    obtain ⟨v, hv, rfl⟩ := Option.map_eq_some_iff.mp hw
    obtain ⟨hnull, hnest⟩ := h.settings v hv
    exact ⟨mt mapNumbers_eq_null.mp hnull, hnest.mapNumbers⟩
  · intro key hkey
    exact h.unknown key (by simpa [Descriptor.mapNumbers] using hkey)
  · rw [Descriptor.mapNumbers, keys_mapFields]
    exact h.extraOrder

/-! ## 2. Typed values -/

/-- A value that is read is null exactly if it begins with an `n`. -/
theorem value_begins {depth : Nat} {cs r : List Char} {v : Json}
    (h : value depth cs = .ok (v, r)) :
    ∃ c text, skipBlanks cs = c :: text ∧ (v = .null ↔ c = 'n') := by
  have hcontainer (container : Reader Json)
      (hc : ∀ cs v r, container cs = .ok (v, r) → v ≠ .null)
      (h : valueWith container cs = .ok (v, r)) :
      ∃ c text, skipBlanks cs = c :: text ∧ (v = .null ↔ c = 'n') := by
    obtain ⟨c, text, ht, hb⟩ := begins_of_valueWith h
    refine ⟨c, text, ht, ?_⟩
    cases hb with
    | null hn hv => simp [hn, hv]
    | bool hn b hv => rcases hn with rfl | rfl <;> simp [hv]
    | negative hn n hv => simp [hn, hv]
    | number hn n hv =>
      have : c ≠ 'n' := by
        rintro rfl
        simp at hn
      simp [hv, this]
    | string hn s hv => simp [hn, hv]
    | container hn hv =>
      have := hc _ _ _ hv
      rcases hn with rfl | rfl <;> simp [this]
  cases depth with
  | zero => exact hcontainer _ (fun cs v r h => by simp at h) h
  | succ depth =>
    refine hcontainer _ (fun cs v r h => ?_) h
    unfold containerOf at h
    split at h
    · obtain ⟨xs, _, rfl⟩ := mapped_eq_ok h
      simp
    · obtain ⟨fields, _, rfl⟩ := mapped_eq_ok h
      simp
    · simp at h

/-- A value or null is null, or it is read from a text that begins with no `n`. -/
theorem optional_eq_ok {α : Type} {read : Reader α} {cs r : List Char} {x : Option α}
    (h : optional read cs = .ok (x, r)) :
    x = none ∨ ∃ y text, x = some y ∧ read text = .ok (y, r) ∧ skipBlanks text = text ∧
      text.head? ≠ some 'n' := by
  unfold optional at h
  split at h
  · next rest _ =>
    cases hw : word "ull".toList rest with
    | error f =>
      rw [hw] at h
      simp [Except.map] at h
    | ok r' =>
      simp only [hw, Except.map, Except.ok.injEq, Prod.mk.injEq] at h
      exact .inl h.1.symm
  · next hn =>
    cases hread : read (skipBlanks cs) with
    | error f => simp [hread] at h
    | ok p =>
      simp only [hread, Except.ok.injEq, Prod.mk.injEq] at h
      refine .inr ⟨p.1, skipBlanks cs, h.1.symm, by rw [hread, ← h.2], skipBlanks_skipBlanks cs, ?_⟩
      intro hhead
      obtain ⟨text, ht⟩ := List.head?_eq_some_iff.mp hhead
      exact hn text ht

theorem nests_of_objectValue {cs r : List Char} {fields : Fields Json}
    (h : objectValue cs = .ok (fields, r)) : FieldsNest (depthLimit - 2) fields := by
  unfold objectValue at h
  split at h
  · exact invariant_of_members (P := FieldsNest (depthLimit - 2))
      (fun _ _ _ _ _ hs hm => fieldsNest_of_entry (nests_of_value _) hs hm) _ _ [] _ _ _
      ⟨List.nodup_nil, by simp⟩ h
  · simp at h

theorem nests_of_anyValue {cs r : List Char} {v : Json} {x : Option Json}
    (h : optional anyValue cs = .ok (x, r)) (hx : x = some v) :
    v ≠ .null ∧ Nests (depthLimit - 1) v := by
  rcases optional_eq_ok h with rfl | ⟨y, text, rfl, hread, hblank, hhead⟩
  · simp at hx
  · obtain rfl : y = v := by simpa using hx
    refine ⟨?_, nests_of_value _ _ _ _ hread⟩
    obtain ⟨c, rest, ht, hnull⟩ := value_begins hread
    intro hv
    rw [hblank] at ht
    rw [ht, hnull.mp hv] at hhead
    exact hhead rfl

/-! ## 3. Entries -/

theorem field_eq_ok {α : Type} {name : String} {old : Option (Option α)}
    {read : Reader (Option α)} {put : Option α → Draft} {cs r : List Char} {m : Draft}
    (h : field name old read put cs = .ok (m, r)) :
    ∃ x text, colon cs = .ok text ∧ read text = .ok (x, r) ∧ m = put x := by
  unfold field at h
  split at h
  · simp at h
  · cases hc : colon cs with
    | error f => simp [hc] at h
    | ok text =>
      cases hx : read text with
      | error f => simp [hc, hx] at h
      | ok p =>
        simp only [hc, hx, Except.ok.injEq, Prod.mk.injEq] at h
        exact ⟨p.1, text, rfl, by rw [hx, ← h.2], h.1.symm⟩

/-- The order after a key. -/
theorem mention_eq (m : Draft) (key : String) : m.mention key =
    { m with keyOrder := if key ∈ m.keyOrder then m.keyOrder else m.keyOrder ++ [key] } := by
  by_cases h : key ∈ m.keyOrder <;> simp [Draft.mention, h]

theorem nodup_mention {m : Draft} (h : m.keyOrder.Nodup) (key : String) :
    (m.mention key).keyOrder.Nodup := by
  rw [mention_eq]
  split
  · exact h
  · next hk =>
    rw [List.nodup_append]
    refine ⟨h, by simp, ?_⟩
    rintro a ha b hb rfl
    obtain rfl : a = key := by simpa using hb
    exact hk ha

/-- A key is mentioned exactly as it is inserted into the unknown ones. -/
theorem filter_mention {m : Draft} (h : m.keyOrder.filter isUnknown = m.extra.keys)
    {key : String} (hk : isUnknown key = true) (v : Json) :
    (m.mention key).keyOrder.filter isUnknown = (m.extra.insert key v).keys := by
  have hmem : key ∈ m.extra.keys ↔ key ∈ m.keyOrder := by simp [← h, hk]
  rw [mention_eq, Fields.keys_insert]
  by_cases hin : key ∈ m.keyOrder <;> simp [hmem, hin, h, hk]

theorem WellFormed.mention {m : Draft} (h : m.finish.WellFormed) {key : String}
    (hk : isUnknown key = false) : (m.mention key).finish.WellFormed := by
  have horder : (m.mention key).keyOrder.filter isUnknown = m.extra.keys := by
    have hold : m.keyOrder.filter isUnknown = m.extra.keys := h.extraOrder
    rw [mention_eq]
    split
    · exact hold
    · simp [hold, hk]
  have hnodup := nodup_mention h.order key
  unfold Draft.mention at horder hnodup ⊢
  split
  · exact h
  · next hnew =>
    rw [if_neg hnew] at horder hnodup
    exact ⟨h.options, h.settings, h.extra, h.unknown, hnodup, horder⟩

theorem WellFormed.insert {m : Draft} (h : m.finish.WellFormed) {key : String}
    (hk : isUnknown key = true) {v : Json} (hv : Nests (depthLimit - 1) v) :
    { m.mention key with extra := m.extra.insert key v }.finish.WellFormed := by
  have hunknown : ∀ other ∈ (m.extra.insert key v).keys, isUnknown other = true := by
    intro other ho
    rw [Fields.keys_insert] at ho
    split at ho
    · exact h.unknown other ho
    · rcases List.mem_append.mp ho with ho | ho
      · exact h.unknown other ho
      · obtain rfl : other = key := by simpa using ho
        exact hk
  have horder := filter_mention h.extraOrder hk v
  have hnodup := nodup_mention h.order key
  unfold Draft.mention at horder hnodup ⊢
  split
  · next hold =>
    rw [if_pos hold] at horder hnodup
    exact ⟨h.options, h.settings, h.extra.insert key hv, hunknown, hnodup, horder⟩
  · next hnew =>
    rw [if_neg hnew] at horder hnodup
    exact ⟨h.options, h.settings, h.extra.insert key hv, hunknown, hnodup, horder⟩

/-- **An entry keeps a draft well formed**, whichever key it has. -/
theorem wellFormed_of_member {m m' : Draft} {key : String} {cs r : List Char}
    (h : m.finish.WellFormed) (hm : member m key cs = .ok (m', r)) : m'.finish.WellFormed := by
  unfold member at hm
  split at hm
  · obtain ⟨x, text, _, _, rfl⟩ := field_eq_ok hm
    have := h.mention (show isUnknown "version" = false by decide)
    exact ⟨this.options, this.settings, this.extra, this.unknown, this.order, this.extraOrder⟩
  · obtain ⟨x, text, _, hx, rfl⟩ := field_eq_ok hm
    have := h.mention (show isUnknown "compilerOptions" = false by decide)
    refine ⟨?_, this.settings, this.extra, this.unknown, this.order, this.extraOrder⟩
    rcases optional_eq_ok hx with rfl | ⟨fields, cs', rfl, hread, _⟩
    · exact ⟨List.nodup_nil, by simp [Draft.finish]⟩
    · exact nests_of_objectValue hread
  · obtain ⟨x, text, _, _, rfl⟩ := field_eq_ok hm
    have := h.mention (show isUnknown "files" = false by decide)
    exact ⟨this.options, this.settings, this.extra, this.unknown, this.order, this.extraOrder⟩
  · obtain ⟨x, text, _, _, rfl⟩ := field_eq_ok hm
    have := h.mention (show isUnknown "filesGlob" = false by decide)
    exact ⟨this.options, this.settings, this.extra, this.unknown, this.order, this.extraOrder⟩
  · obtain ⟨x, text, _, hx, rfl⟩ := field_eq_ok hm
    have := h.mention (show isUnknown "formatCodeOptions" = false by decide)
    exact ⟨this.options, fun v hv => nests_of_anyValue hx (by simpa [Draft.finish] using hv),
      this.extra, this.unknown, this.order, this.extraOrder⟩
  · obtain ⟨x, text, _, _, rfl⟩ := field_eq_ok hm
    have := h.mention (show isUnknown "compileOnSave" = false by decide)
    exact ⟨this.options, this.settings, this.extra, this.unknown, this.order, this.extraOrder⟩
  · next hv hc hf hg hs ho =>
    have hk : isUnknown key = true := by
      simpa [isUnknown, knownKeys] using ⟨hv, hc, hf, hg, hs, ho⟩
    cases he : entry anyValue m.extra key cs with
    | error f => simp [he] at hm
    | ok p =>
      obtain ⟨text, v, _, hread, hextra⟩ := entry_eq_ok he
      simp only [he, Except.ok.injEq, Prod.mk.injEq] at hm
      rw [← hm.1, hextra]
      exact h.insert hk (nests_of_value _ _ _ _ hread)

/-- **Whatever is read as a descriptor is well formed.** -/
theorem wellFormed_of_parse {text : String} {d : Descriptor} (h : parse text = .ok d) :
    d.WellFormed := by
  unfold parse at h
  cases hd : atEnd draft (withoutMark text) with
  | error f => simp [hd] at h
  | ok m =>
    obtain rfl : m.finish = d := by simpa [hd] using h
    unfold atEnd at hd
    cases hm : draft (withoutMark text) with
    | error f => simp [hm] at hd
    | ok p =>
      obtain rfl : p.1 = m := by
        simp only [hm] at hd
        split at hd
        · simpa using hd
        · simp at hd
      unfold draft at hm
      split at hm
      · exact invariant_of_members (P := fun m : Draft => m.finish.WellFormed)
          (fun _ _ _ _ _ hs hstep => wellFormed_of_member hs hstep) _ _ {} _ _ _
          wellFormed_empty hm
      · simp at hm

end Tsconfig.Descriptor
