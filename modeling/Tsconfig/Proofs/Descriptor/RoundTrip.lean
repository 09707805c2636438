/-
# Descriptors read back

The canonical text of a descriptor that was read is read as that descriptor again, whatever files and
patterns it was given in between, and is its own canonical text (`canonical_roundTrip`).

The writer and the reader are tied by the entries of the text (`entries`).  They are a reordering of
the fields (`mem_entries`) that leaves the unknown ones in their own order (`filter_entries`), and each
of them has the shape that the reader of its key expects (`Holds`).  While the text is read, the draft
is a function of the entries that have been read so far (`draftOf`): one entry takes the draft of a
list to the draft of a list that is longer by one (`members_entries`).
-/
import Tsconfig.Proofs.Descriptor.Ordered

namespace Tsconfig.Descriptor

open Json Json.Reader

/-! ## 1. The entries of the text -/

section

variable {fields : Fields Json} {order : List String}

/-- Picking by keys that differ is looking each of them up. -/
theorem picked_eq (ho : order.Nodup) :
    picked fields order = order.filterMap fun key => (fields.get? key).map (key, ·) := by
  induction order using List.reverseRecOn with
  | nil => rfl
  | append_singleton order key ih =>
    obtain ⟨hnodup, hkey⟩ : order.Nodup ∧ key ∉ order := by
      simpa [List.nodup_append, List.forall_mem_ne'] using ho
    rw [picked_concat, List.filterMap_append]
    cases hv : fields.get? key with
    | none => simp [ih hnodup, hv]
    | some v =>
      have hnew : key ∉ (picked fields order).keys := by
        rw [keys_picked, List.mem_eraseDups]
        exact fun hmem => hkey (List.mem_filter.mp hmem).1
      rw [Option.elim_some, Fields.insert_of_not_mem hnew, ih hnodup]
      simp [hv]

/-- Of keys that differ, those are picked that are there. -/
theorem keys_picked_of_nodup (ho : order.Nodup) :
    (picked fields order).keys = order.filter fun key => (fields.get? key).isSome := by
  rw [picked_eq ho]
  clear ho
  induction order with
  | nil => rfl
  | cons key order ih =>
    cases hv : fields.get? key <;> simp [hv, ih]

/-- Looking up the keys of some of the entries gives those entries. -/
theorem filterMap_keys (hf : fields.keys.Nodup) (es : Fields Json) (h : ∀ e ∈ es, e ∈ fields) :
    (es.keys.filterMap fun key => (fields.get? key).map (key, ·)) = es := by
  induction es with
  | nil => rfl
  | cons e es ih =>
    rw [Fields.keys_cons, List.filterMap_cons, Fields.get?_of_mem hf (h e List.mem_cons_self)]
    simp [ih fun x hx => h x (List.mem_cons_of_mem _ hx)]

/-- Entries that are put into their own order stay as they are. -/
theorem ordered_keys {es : Fields Json} (he : es.keys.Nodup) (hf : fields.keys.Nodup)
    (h : ∀ e, e ∈ es ↔ e ∈ fields) : ordered fields es.keys = es := by
  have hrest : (fields.filter fun e => !es.keys.contains e.1) = [] := by
    rw [List.filter_eq_nil_iff]
    intro e hmem
    have hkey : e.1 ∈ es.keys := Fields.mem_keys_of_mem ((h e).mpr hmem)
    simp [hkey]
  rw [ordered, picked_eq he, filterMap_keys hf es fun e hmem => (h e).mp hmem, hrest,
    List.append_nil]

/-- Only the keys of a kind are picked if the others are left out of the order. -/
theorem filter_picked (ho : order.Nodup) (p : String → Bool) :
    ((picked fields order).filter fun e => p e.1) =
      (order.filter p).filterMap fun key => (fields.get? key).map (key, ·) := by
  rw [picked_eq ho, List.filter_filterMap, List.filterMap_filter]
  congr 1
  funext key
  cases fields.get? key <;> cases hp : p key <;> simp [hp]

end

section

variable {d : Descriptor}

theorem nodup_knownFields_append (h : d.WellFormed) : (d.knownFields ++ d.extra).keys.Nodup := by
  rw [Fields.keys_append, List.nodup_append]
  refine ⟨keys_knownFields d ▸ nodup_presentKeys d, h.extra.1, ?_⟩
  rintro key hkey other hother rfl
  have hmem : key ∈ knownKeys := mem_knownKeys hkey
  have := h.unknown key hother
  simp [isUnknown, hmem] at this

theorem fields_eq (h : d.WellFormed) : d.fields = d.knownFields ++ d.extra :=
  Fields.insertAll_of_nodup (nodup_knownFields_append h)

/-- What an entry of the text is. -/
inductive Holds (d : Descriptor) : String → Json → Prop
  | version (s : String) (h : d.version = some s) : Holds d "version" (.string s)
  | compilerOptions : Holds d "compilerOptions" (.object d.compilerOptions)
  | files (xs : List String) (h : d.files = some xs) : Holds d "files" (.strings xs)
  | filesGlob (xs : List String) (h : d.filesGlob = some xs) : Holds d "filesGlob" (.strings xs)
  | formatCodeOptions (v : Json) (h : d.formatCodeOptions = some v) : Holds d "formatCodeOptions" v
  | compileOnSave (b : Bool) (h : d.compileOnSave = some b) : Holds d "compileOnSave" (.bool b)
  | extra (key : String) (v : Json) (h : (key, v) ∈ d.extra) : Holds d key v

theorem mem_optionalEntry {α : Type} {name key : String} {f : α → Json} {x : Option α} {v : Json} :
    (key, v) ∈ optionalEntry name f x ↔ key = name ∧ ∃ y, x = some y ∧ v = f y := by
  cases x <;> simp [optionalEntry]

theorem mem_fields (h : d.WellFormed) {key : String} {v : Json} :
    (key, v) ∈ d.fields ↔ d.Holds key v := by
  rw [fields_eq h]
  simp only [knownFields, List.mem_append, mem_optionalEntry, List.mem_singleton, Prod.mk.injEq]
  constructor
  · rintro ((((((⟨rfl, s, hs, rfl⟩ | ⟨rfl, rfl⟩) | ⟨rfl, xs, hx, rfl⟩) | ⟨rfl, xs, hx, rfl⟩) |
      ⟨rfl, w, hw, hv⟩) | ⟨rfl, b, hb, rfl⟩) | hextra)
    · exact .version s hs
    · exact .compilerOptions
    · exact .files xs hx
    · exact .filesGlob xs hx
    · obtain rfl : v = w := hv
      exact .formatCodeOptions v hw
    · exact .compileOnSave b hb
    · exact .extra key v hextra
  · intro he
    cases he with
    | version s hs => simp [hs]
    | compilerOptions => simp
    | files xs hx => simp [hx]
    | filesGlob xs hx => simp [hx]
    | formatCodeOptions v hv => simp [hv]
    | compileOnSave b hb => simp [hb]
    | extra key v hextra => simp [hextra]

theorem knownFields_mapNumbers (f : Number → Number) (d : Descriptor) :
    (d.mapNumbers f).knownFields = mapFields f d.knownFields := by
  have hentry {α : Type} (name : String) (g : α → Json) (hg : ∀ x, (g x).mapNumbers f = g x)
      (x : Option α) : mapFields f (optionalEntry name g x) = optionalEntry name g x := by
    cases x <;> simp [optionalEntry, mapFields, hg]
  have hsettings : mapFields f (optionalEntry "formatCodeOptions" id d.formatCodeOptions) =
      optionalEntry "formatCodeOptions" id (d.formatCodeOptions.map (Json.mapNumbers f)) := by
    cases d.formatCodeOptions <;> simp [optionalEntry, mapFields]
  simp only [knownFields, mapNumbers, mapFields_append, hentry _ _ mapNumbers_strings, hsettings,
    hentry "version" Json.string fun s => by simp [Json.mapNumbers],
    hentry "compileOnSave" Json.bool fun b => by simp [Json.mapNumbers]]
  simp [mapFields, Json.mapNumbers]

/-- Replacing the numbers replaces them in the entries of the text. -/
theorem entries_mapNumbers (f : Number → Number) (h : d.WellFormed) :
    (d.mapNumbers f).entries = mapFields f d.entries := by
  have hfields : (d.mapNumbers f).fields = mapFields f d.fields := by
    rw [fields_eq h, fields_eq h.mapNumbers, knownFields_mapNumbers, mapFields_append]
    rfl
  have hpicked : picked (mapFields f d.fields) d.keyOrder =
      mapFields f (picked d.fields d.keyOrder) := by
    rw [picked_eq h.order, picked_eq h.order, mapFields_eq (List.filterMap _ _), List.map_filterMap]
    congr 1
    funext key
    cases hv : d.fields.get? key <;> simp [get?_mapFields, hv]
  have hrest : (mapFields f d.fields).filter (fun e => !d.keyOrder.contains e.1) =
      mapFields f (d.fields.filter fun e => !d.keyOrder.contains e.1) := by
    rw [mapFields_eq, mapFields_eq, List.filter_map]
    rfl
  rw [entries, hfields, entries, ordered, ordered, mapFields_append, ← hpicked, ← hrest]
  rfl

/-- The unknown entries stand in their own order. -/
theorem filter_entries (h : d.WellFormed) :
    (d.entries.filter fun e => isUnknown e.1) = d.extra := by
  have hrest : ((d.fields.filter fun e => !d.keyOrder.contains e.1).filter
      fun e => isUnknown e.1) = [] := by
    rw [List.filter_eq_nil_iff]
    intro e he hunknown
    obtain ⟨hmem, hnot⟩ := List.mem_filter.mp he
    have hextra : e.1 ∈ d.extra.keys := by
      rw [fields_eq h, List.mem_append] at hmem
      rcases hmem with hmem | hmem
      · have hknown : e.1 ∈ knownKeys := mem_knownKeys (Fields.mem_keys_of_mem hmem)
        simp [isUnknown, hknown] at hunknown
      · exact Fields.mem_keys_of_mem hmem
    rw [← h.extraOrder] at hextra
    simp [(List.mem_filter.mp hextra).1] at hnot
  rw [entries, ordered, List.filter_append, hrest, List.append_nil, filter_picked h.order,
    h.extraOrder]
  refine filterMap_keys (nodup_fields d) d.extra fun e he => ?_
  rw [fields_eq h]
  exact List.mem_append_right _ he

end

/-! ## 2. Values of a type -/

section

variable {α : Type} {read : Reader α} {indent level : Nat} {f : Number → Number}

theorem optional_past (cs : List Char) : optional read (skipBlanks cs) = optional read cs := by
  simp only [optional, skipBlanks_skipBlanks]

/-- A value that does not begin as null does is read as one that is there. -/
theorem readsAs_optional {v : Json} {x : α}
    (h : ∀ rest, EndsNumber rest → ∃ c text,
      skipBlanks (prettyChars indent level v ++ rest) = c :: text ∧ c ≠ 'n' ∧
        read (c :: text) = .ok (x, rest)) :
    ReadsAs (optional read) indent level v (some x) := by
  intro rest hr
  obtain ⟨c, text, ht, hc, hread⟩ := h rest hr
  unfold optional
  rw [ht]
  split
  · next hn =>
    simp only [List.cons.injEq] at hn
    exact absurd hn.1 hc
  · rw [hread]

theorem stringValue_stringText (s : String) (rest : List Char) :
    stringValue (stringText s ++ rest) = .ok (s, rest) := by
  rw [stringText, List.cons_append, stringValue, skipBlanks_cons (by decide)]
  simpa using string_stringText s rest

theorem readsAs_optional_stringValue (s : String) :
    ReadsAs (optional stringValue) indent level (.string s) (some s) := by
  refine readsAs_optional fun rest _ => ?_
  rw [prettyChars, stringText, List.cons_append]
  exact ⟨'"', _, skipBlanks_cons (by decide) _, by decide, stringValue_stringText s rest⟩

theorem readsItems_stringValue : ReadsItems stringValue := by
  refine ⟨?_, ?_, ?_⟩
  · intro cs
    simp only [stringValue, skipBlanks_skipBlanks]
  · intro x r h
    simp [stringValue, skipBlanks] at h
  · intro cs x r h
    rw [stringValue, skipBlanks_cons (by decide)] at h
    simp at h

theorem readsAs_optional_stringList (xs : List String) :
    ReadsAs (optional stringList) indent level (.strings xs) (some xs) := by
  have hitems : ∀ x ∈ xs, ReadsAs stringValue indent (level + 1) (.string x) x := by
    intro x _ rest _
    rw [prettyChars]
    exact stringValue_stringText x rest
  obtain ⟨body, hbody, hread⟩ := items_prettyArray (g := id) readsItems_stringValue xs hitems
  rw [List.map_id] at hread
  refine readsAs_optional fun rest _ => ?_
  rw [strings, hbody, List.cons_append]
  refine ⟨'[', _, skipBlanks_cons (by decide) _, by decide, ?_⟩
  rw [stringList, skipBlanks_cons (by decide)]
  exact hread rest _ (by simp; omega)

theorem readsAs_optional_boolValue (b : Bool) :
    ReadsAs (optional boolValue) indent level (.bool b) (some b) := by
  refine readsAs_optional fun rest _ => ?_
  cases b with
  | false =>
    refine ⟨'f', "alse".toList ++ rest, by simp [prettyChars, skipBlanks, isBlank], by decide, ?_⟩
    simp [boolValue, skipBlanks, isBlank, word, Except.map]
  | true =>
    refine ⟨'t', "rue".toList ++ rest, by simp [prettyChars, skipBlanks, isBlank], by decide, ?_⟩
    simp [boolValue, skipBlanks, isBlank, word, Except.map]

theorem readsAs_optional_objectValue {fields : Fields Json}
    (h : FieldsNest (depthLimit - 2) fields) (hn : ∀ n ∈ fieldNumbers fields, n.ReadsTo (f n)) :
    ReadsAs (optional objectValue) indent level (.object fields) (some (mapFields f fields)) := by
  have hvalues : ∀ e ∈ fields,
      ReadsAs (value (depthLimit - 2)) indent (level + 1) e.2 (e.2.mapNumbers f) := by
    intro e he
    refine value_prettyChars (h.2 e he) (level + 1) fun n hmem => hn n ?_
    rw [fieldNumbers_eq]
    exact List.mem_flatMap_of_mem he hmem
  obtain ⟨m, ⟨before, hbefore, rfl⟩, body, hbody, hread⟩ :=
    members_prettyObject (stepsThrough_entry h.1 hvalues) fields (s := []) ⟨[], rfl, rfl⟩
  obtain rfl : before = fields := by simpa using hbefore
  refine readsAs_optional fun rest _ => ?_
  rw [hbody, List.cons_append]
  refine ⟨'\x7b', _, skipBlanks_cons (by decide) _, by decide, ?_⟩
  rw [objectValue, skipBlanks_cons (by decide)]
  exact hread rest _ (by simp; omega)

theorem readsAs_anyValue (indent level : Nat) {v : Json} (h : Nests (depthLimit - 1) v)
    (hn : ∀ n ∈ v.numbers, n.ReadsTo (f n)) : ReadsAs anyValue indent level v (v.mapNumbers f) :=
  value_prettyChars h level hn

theorem readsAs_optional_anyValue {v : Json} (hv : v ≠ .null) (h : Nests (depthLimit - 1) v)
    (hn : ∀ n ∈ v.numbers, n.ReadsTo (f n)) :
    ReadsAs (optional anyValue) indent level v (some (v.mapNumbers f)) := by
  refine readsAs_optional fun rest hr => ?_
  have hread := readsAs_anyValue indent level h hn rest hr
  obtain ⟨c, text, ht, hnull⟩ := value_begins hread
  refine ⟨c, text, ht, fun hc => hv (mapNumbers_eq_null.mp (hnull.mpr hc)), ?_⟩
  rw [← ht, ← hread]
  exact (readsItems_value _).past _

end

/-! ## 3. The draft while the text is read -/

section

variable {d : Descriptor}

/-- A value of the descriptor, once its key has been read. -/
def seen {α : Type} (before : Fields Json) (name : String) (x : α) : Option α :=
  if name ∈ Fields.keys before then some x else none

theorem seen_append {α : Type} (before : Fields Json) (name key : String) (v : Json) (x : α) :
    seen (before ++ [(key, v)]) name x = if name = key then some x else seen before name x := by
  by_cases h : name = key <;> simp [seen, h]

/-- The draft after the entries in front. -/
def draftOf (d : Descriptor) (before : Fields Json) : Draft where
  version := seen before "version" d.version
  compilerOptions := seen before "compilerOptions" (some d.compilerOptions)
  files := seen before "files" d.files
  filesGlob := seen before "filesGlob" d.filesGlob
  formatCodeOptions := seen before "formatCodeOptions" d.formatCodeOptions
  compileOnSave := seen before "compileOnSave" d.compileOnSave
  extra := before.filter fun e => isUnknown e.1
  keyOrder := before.keys

/-- A known entry that is read for the first time. -/
theorem field_afterKey {α : Type} {name : String} {read : Reader α} {put : Option α → Draft}
    {indent level : Nat} {v : Json} {x : α}
    (h : ReadsAs (optional read) indent (level + 1) v (some x)) {rest : List Char}
    (hr : EndsNumber rest) :
    field name none (optional read) put (afterKey indent level v rest) =
      .ok (put (some x), rest) := by
  have hread : optional read (' ' :: (prettyChars indent (level + 1) v ++ rest)) =
      .ok (some x, rest) := by
    rw [← optional_past, skipBlanks_cons_of_blank (by decide), optional_past]
    exact h rest hr
  simp [field, colon_afterKey, hread]

/-- **An entry of the canonical text takes the draft of the entries in front of it to the draft of
one entry more.** -/
theorem member_afterKey {f : Number → Number} (h : d.WellFormed)
    (hn : ∀ n ∈ d.numbers, n.ReadsTo (f n)) {indent : Nat} {before : Fields Json} {key : String}
    {v : Json} (hnew : key ∉ before.keys) (he : d.Holds key v) {rest : List Char}
    (hr : EndsNumber rest) :
    member ((d.mapNumbers f).draftOf before) key (afterKey indent 0 v rest) =
      .ok ((d.mapNumbers f).draftOf (before ++ [(key, v.mapNumbers f)]), rest) := by
  have hmention : ((d.mapNumbers f).draftOf before).mention key =
      { (d.mapNumbers f).draftOf before with keyOrder := before.keys ++ [key] } := by
    simp [Draft.mention, draftOf, hnew]
  have hfirst {α : Type} (x : α) : seen before key x = none := if_neg hnew
  cases he with
  | version s hs =>
    simp only [member, hmention]
    rw [draftOf, hfirst, field_afterKey (readsAs_optional_stringValue s) hr]
    simp [draftOf, seen_append, mapNumbers, hs, isUnknown, knownKeys]
  | compilerOptions =>
    have hread : ReadsAs (optional objectValue) indent 1 (.object d.compilerOptions) _ :=
      readsAs_optional_objectValue h.options fun n hmem => hn n (by simp [numbers, hmem])
    simp only [member, hmention]
    rw [draftOf, hfirst, field_afterKey hread hr]
    simp [draftOf, seen_append, mapNumbers, isUnknown, knownKeys]
  | files xs hx =>
    simp only [member, hmention]
    rw [draftOf, hfirst, field_afterKey (readsAs_optional_stringList xs) hr]
    simp [draftOf, seen_append, mapNumbers, hx, isUnknown, knownKeys]
  | filesGlob xs hx =>
    simp only [member, hmention]
    rw [draftOf, hfirst, field_afterKey (readsAs_optional_stringList xs) hr]
    simp [draftOf, seen_append, mapNumbers, hx, isUnknown, knownKeys]
  | formatCodeOptions v hv =>
    obtain ⟨hnull, hnest⟩ := h.settings v hv
    have hread : ReadsAs (optional anyValue) indent 1 v _ :=
      readsAs_optional_anyValue hnull hnest fun n hmem => hn n (by simp [numbers, hv, hmem])
    simp only [member, hmention]
    rw [draftOf, hfirst, field_afterKey hread hr]
    simp [draftOf, seen_append, mapNumbers, hv, isUnknown, knownKeys]
  | compileOnSave b hb =>
    simp only [member, hmention]
    rw [draftOf, hfirst, field_afterKey (readsAs_optional_boolValue b) hr]
    simp [draftOf, seen_append, mapNumbers, hb, isUnknown, knownKeys]
  | extra key v hextra =>
    have hk : isUnknown key = true := h.unknown key (Fields.mem_keys_of_mem hextra)
    have hread : ReadsAs anyValue indent 1 v (v.mapNumbers f) := by
      refine readsAs_anyValue indent 1 (h.extra.2 _ hextra) fun n hmem => hn n ?_
      rw [numbers, fieldNumbers_eq d.extra]
      exact List.mem_append_right _ (List.mem_flatMap_of_mem hextra hmem)
    have hinsert : ((d.mapNumbers f).draftOf before).extra.insert key (v.mapNumbers f) =
        ((d.mapNumbers f).draftOf before).extra ++ [(key, v.mapNumbers f)] := by
      refine Fields.insert_of_not_mem (fun hmem => hnew ?_) _
      obtain ⟨e, he, rfl⟩ := List.mem_map.mp hmem
      exact Fields.mem_keys_of_mem (List.mem_filter.mp he).1
    unfold member
    split
    all_goals try exact absurd hk (by decide)
    next hv hc hf hg hs ho =>
      have hcs : anyValue (' ' :: (prettyChars indent 1 v ++ rest)) =
          .ok (v.mapNumbers f, rest) := by
        rw [anyValue, (readsItems_value _).blank]
        exact hread rest hr
      simp only [entry, colon_afterKey, hcs, hmention, hinsert]
      simp [draftOf, seen_append, hk, Ne.symm hv, Ne.symm hc, Ne.symm hf, Ne.symm hg, Ne.symm hs,
        Ne.symm ho]

/-- The draft at the end of the text is the descriptor. -/
theorem finish_draftOf (h : d.WellFormed) :
    (d.draftOf d.entries).finish = { d with keyOrder := d.entries.keys } := by
  have hkeys {key : String} {v : Json} (he : d.Holds key v) : key ∈ d.entries.keys :=
    Fields.mem_keys_of_mem (mem_entries.mpr ((mem_fields h).mpr he))
  have hjoin {α : Type} {name : String} {x : Option α}
      (hx : ∀ y, x = some y → name ∈ d.entries.keys) : (seen d.entries name x).join = x := by
    unfold seen
    split
    · rfl
    · next hnot =>
      cases x with
      | none => rfl
      | some y => exact absurd (hx y rfl) hnot
  have hversion : (seen d.entries "version" d.version).join = d.version :=
    hjoin fun s hs => hkeys (.version s hs)
  have hoptions : (seen d.entries "compilerOptions" (some d.compilerOptions)).join =
      some d.compilerOptions := hjoin fun _ _ => hkeys .compilerOptions
  have hfiles : (seen d.entries "files" d.files).join = d.files :=
    hjoin fun xs hx => hkeys (.files xs hx)
  have hpatterns : (seen d.entries "filesGlob" d.filesGlob).join = d.filesGlob :=
    hjoin fun xs hx => hkeys (.filesGlob xs hx)
  have hsettings : (seen d.entries "formatCodeOptions" d.formatCodeOptions).join =
      d.formatCodeOptions := hjoin fun v hv => hkeys (.formatCodeOptions v hv)
  have honSave : (seen d.entries "compileOnSave" d.compileOnSave).join = d.compileOnSave :=
    hjoin fun b hb => hkeys (.compileOnSave b hb)
  simp only [Draft.finish, draftOf, hversion, hoptions, hfiles, hpatterns, hsettings, honSave,
    filter_entries h, Option.getD_some]

/-! ## 4. The whole text -/

theorem members_entries {f : Number → Number} (h : d.WellFormed)
    (hn : ∀ n ∈ d.numbers, n.ReadsTo (f n)) :
    StepsThrough member indent 0 fun later m =>
      ∃ before, before ++ later = d.entries ∧ m = (d.mapNumbers f).draftOf (mapFields f before) := by
  rintro key v later m ⟨before, hbefore, rfl⟩
  refine ⟨(d.mapNumbers f).draftOf (mapFields f before ++ [(key, v.mapNumbers f)]),
    ⟨before ++ [(key, v)], by simp [hbefore], by simp [mapFields]⟩, ?_⟩
  intro rest hr
  have hnew : key ∉ Fields.keys (mapFields f before) := by
    have hnodup := nodup_entries d
    rw [← hbefore, Fields.keys_append, List.nodup_append] at hnodup
    rw [keys_mapFields]
    exact fun hmem => hnodup.2.2 key hmem key (by simp) rfl
  have hentry : d.Holds key v := by
    rw [← mem_fields h, ← mem_entries, ← hbefore]
    simp
  exact member_afterKey h hn hnew hentry hr

/-- **The canonical text of a well formed descriptor is read as that descriptor with each number
replaced by what its text is read as**, and with the order of the text as the order of its keys. -/
theorem parse_canonical_mapNumbers {f : Number → Number} (h : d.WellFormed)
    (hn : ∀ n ∈ d.numbers, n.ReadsTo (f n)) :
    parse d.canonical = .ok { d.mapNumbers f with keyOrder := d.entries.keys } := by
  obtain ⟨m, ⟨before, hbefore, rfl⟩, body, hbody, hread⟩ :=
    members_prettyObject (members_entries h hn) d.entries (s := (d.mapNumbers f).draftOf [])
      ⟨[], rfl, rfl⟩
  obtain rfl : before = d.entries := by simpa using hbefore
  rw [← entries_mapNumbers f h] at hread
  have htext : d.canonical.toList = '\x7b' :: body := by
    rw [← hbody]
    exact String.toList_ofList
  have hmark : withoutMark d.canonical = '\x7b' :: body := by
    rw [withoutMark, htext]
    rfl
  have hdraft : draft ('\x7b' :: body) =
      .ok ((d.mapNumbers f).draftOf (d.mapNumbers f).entries, []) := by
    rw [draft, skipBlanks_cons (by decide)]
    have := hread [] (body.length + 1) (by omega)
    rw [List.append_nil] at this
    exact this
  have hkeys : (d.mapNumbers f).entries.keys = d.entries.keys := by
    rw [entries_mapNumbers f h, keys_mapFields]
  rw [parse, hmark, atEnd, hdraft]
  simp [skipBlanks, finish_draftOf h.mapNumbers, hkeys]

/-- **The canonical text of a well formed descriptor is read as that descriptor** if its numbers read
back. -/
theorem parse_canonical (h : d.WellFormed) (hn : ∀ n ∈ d.numbers, n.ReadsBack) :
    parse d.canonical = .ok { d with keyOrder := d.entries.keys } := by
  rw [parse_canonical_mapNumbers (f := id) h hn, mapNumbers_id]

/-- The values of the text nest. -/
theorem nests_entries (h : d.WellFormed) : Nests depthLimit (.object d.entries) := by
  refine .object (depthLimit - 1) d.entries (nodup_entries d) fun e he => ?_
  have hstrings (xs : List String) : Nests (depthLimit - 1) (.strings xs) := by
    refine .array (depthLimit - 2) _ fun v hv => ?_
    obtain ⟨s, _, rfl⟩ := List.mem_map.mp hv
    exact .string _ s
  have hentry := (mem_fields h).mp (mem_entries.mp he)
  obtain ⟨key, v⟩ := e
  cases hentry with
  | version s _ => exact .string _ s
  | compilerOptions => exact .object (depthLimit - 2) _ h.options.1 h.options.2
  | files xs _ => exact hstrings xs
  | filesGlob xs _ => exact hstrings xs
  | formatCodeOptions v hv => exact (h.settings v hv).2
  | compileOnSave b _ => exact .bool _ b
  | extra key v hextra => exact h.extra.2 _ hextra

theorem numbers_entries (h : d.WellFormed) {n : Number}
    (hn : n ∈ (Json.object d.entries).numbers) : n ∈ d.numbers := by
  rw [Json.numbers, fieldNumbers_eq] at hn
  obtain ⟨⟨key, v⟩, he, hmem⟩ := List.mem_flatMap.mp hn
  have hstrings (xs : List String) : n ∉ (strings xs).numbers := by
    rw [strings, Json.numbers, itemNumbers_eq]
    simp [Json.numbers]
  cases (mem_fields h).mp (mem_entries.mp he) with
  | version s _ => simp [Json.numbers] at hmem
  | compilerOptions => simp [numbers, show n ∈ fieldNumbers d.compilerOptions from hmem]
  | files xs _ => exact absurd hmem (hstrings xs)
  | filesGlob xs _ => exact absurd hmem (hstrings xs)
  | formatCodeOptions v hv => simp [numbers, hv, show n ∈ v.numbers from hmem]
  | compileOnSave b _ => simp [Json.numbers] at hmem
  | extra key v hextra =>
    rw [numbers, fieldNumbers_eq d.extra]
    exact List.mem_append_right _ (List.mem_flatMap_of_mem hextra hmem)

/-- A descriptor that is read back has the text from which it was read back. -/
theorem canonical_keyOrder (d : Descriptor) :
    { d with keyOrder := d.entries.keys }.canonical = d.canonical := by
  have hentries : ordered d.fields d.entries.keys = d.entries :=
    ordered_keys (nodup_entries d) (nodup_fields d) fun _ => mem_entries
  exact congrArg (fun es => (Json.object es).pretty indent) hentries

/-- **A descriptor that was read, with any files and any patterns, is read back from its canonical
text**: every part is the part it was, the order of the keys is that of the text, and the text is the
canonical text of what was read back. -/
theorem canonical_roundTrip {text : String} (hd : parse text = .ok d)
    (files patterns : Option (List String)) (hn : ∀ n ∈ d.numbers, n.ReadsBack) :
    let written : Descriptor := { d with files := files, filesGlob := patterns }
    ∃ back, parse written.canonical = .ok back ∧
      back.version = d.version ∧ back.compilerOptions = d.compilerOptions ∧
      back.files = files ∧ back.filesGlob = patterns ∧
      back.formatCodeOptions = d.formatCodeOptions ∧ back.compileOnSave = d.compileOnSave ∧
      back.extra = d.extra ∧
      (∃ m, parseObject? written.canonical = some m ∧ back.keyOrder = Fields.keys m) ∧
      back.canonical = written.canonical := by
  intro written
  have h : written.WellFormed := (wellFormed_of_parse hd).withFiles files patterns
  refine ⟨{ written with keyOrder := written.entries.keys }, parse_canonical h hn, rfl, rfl, rfl, rfl,
    rfl, rfl, rfl, ⟨written.entries, ?_, rfl⟩, canonical_keyOrder written⟩
  exact parseObject?_pretty (nests_entries h) fun n hmem => hn n (numbers_entries h hmem)

/-- Whether a text is read as a descriptor that has a property. -/
def readsWith (text : String) (p : Descriptor → Bool) : Bool :=
  match parse text with
  | .ok d => p d
  | .error _ => false

theorem exists_of_readsWith {text : String} {p : Descriptor → Bool} (h : readsWith text p = true) :
    ∃ d, parse text = .ok d ∧ p d = true := by
  unfold readsWith at h
  split at h
  · next d hd => exact ⟨d, hd, h⟩
  · simp at h

/-- A descriptor with a null, a number and an unknown key in front of the known ones. -/
def mixedText : String :=
  "\x7b\"build\": [1, null], \"files\": null, \"compilerOptions\": \x7b\"target\": \"es5\"\x7d\x7d"

theorem canonical_roundTrip_mixed : ∃ d, parse mixedText = .ok d ∧ d.numbers ≠ [] ∧
    ∃ back, parse { d with files := some ["a.ts"], filesGlob := none }.canonical = .ok back ∧
      back.files = some ["a.ts"] ∧ back.extra = d.extra := by
  have hread : readsWith mixedText
      (fun d => decide (d.numbers ≠ [] ∧ ∀ n ∈ d.numbers, n.ReadsBack)) = true := by decide +kernel
  obtain ⟨d, hd, hp⟩ := exists_of_readsWith hread
  obtain ⟨hsome, hn⟩ := of_decide_eq_true hp
  obtain ⟨back, hback, _, _, hfiles, _, _, _, hextra, _⟩ :=
    canonical_roundTrip hd (some ["a.ts"]) none hn
  exact ⟨d, hd, hsome, back, hback, hfiles, hextra⟩

end

end Tsconfig.Descriptor
