/-
# A descriptor as an object

A text that is read as a descriptor is a document, and the document is an object
(`says_of_parse`).  The typed readers are followed by the reader of values one by one: where a text or
null is read, the value is a string or null, and so on (`value_of_optional`).  While the text is read,
the draft and the entries that a reader of plain values would have at the same place agree (`Agrees`),
and one entry keeps them in agreement (`agrees_of_member`).

At the end the object says what the descriptor is (`Says`): a known key that is absent or null is
absent, the other known keys have the values that they show, and the unknown keys are those of the
object.
-/
import Tsconfig.Proofs.Descriptor.RoundTrip
import Tsconfig.Proofs.Json.Reading

namespace Tsconfig

/-- A value unless it is null. -/
def Json.nonNull? : Json → Option Json
  | .null => none
  | v => some v

theorem Json.nonNull?_of_ne {v : Json} (h : v ≠ .null) : v.nonNull? = some v := by
  cases v <;> first | rfl | exact absurd rfl h

namespace Descriptor

open Json Json.Reader

/-! ## 1. Typed values are values -/

section

variable {α : Type} {depth : Nat} {cs r : List Char}

/-- The value that stands for a part that may be missing. -/
def shown (f : α → Json) (x : Option α) : Json := x.elim .null f

theorem value_eq (depth : Nat) : ∃ container, value depth = valueWith container := by
  cases depth with
  | zero => exact ⟨_, rfl⟩
  | succ depth => exact ⟨_, rfl⟩

theorem value_of_word {v : Json} {c : Char} {w rest : List Char} (hcs : skipBlanks cs = c :: rest)
    (hc : ∀ container, valueWith container (c :: rest) = literal v w rest)
    (hw : word w rest = .ok r) : value depth cs = .ok (v, r) := by
  obtain ⟨container, hvalue⟩ := value_eq depth
  rw [← (readsItems_value depth).past, hcs, hvalue, hc, literal, hw]

theorem value_of_stringValue {s : String} (h : stringValue cs = .ok (s, r)) :
    value depth cs = .ok (.string s, r) := by
  obtain ⟨container, hvalue⟩ := value_eq depth
  unfold stringValue at h
  split at h
  · next rest hcs =>
    rw [hvalue, valueWith, hcs]
    simp [mapped, h]
  · simp at h

theorem value_of_boolValue {b : Bool} (h : boolValue cs = .ok (b, r)) :
    value depth cs = .ok (.bool b, r) := by
  unfold boolValue at h
  split at h
  · next rest hcs =>
    cases hw : word "rue".toList rest with
    | error f =>
      rw [hw] at h
      simp [Except.map] at h
    | ok r' =>
      rw [hw] at h
      obtain ⟨rfl, rfl⟩ : true = b ∧ r' = r := by simpa [Except.map] using h
      exact value_of_word hcs (fun _ => by simp [valueWith, skipBlanks_cons, isBlank]) hw
  · next rest hcs =>
    cases hw : word "alse".toList rest with
    | error f =>
      rw [hw] at h
      simp [Except.map] at h
    | ok r' =>
      rw [hw] at h
      obtain ⟨rfl, rfl⟩ : false = b ∧ r' = r := by simpa [Except.map] using h
      exact value_of_word hcs (fun _ => by simp [valueWith, skipBlanks_cons, isBlank]) hw
  · simp at h

theorem value_of_stringList {xs : List String} (h : stringList cs = .ok (xs, r)) :
    value (depth + 1) cs = .ok (.strings xs, r) := by
  unfold stringList at h
  split at h
  · next rest hcs =>
    have hitems := items_simulated (readsItems_value depth) (consumes_value depth)
      (fun _ _ _ hs => value_of_stringValue hs) _ _ _ _ _ h (rest.length + 1) (by omega)
    rw [← (readsItems_value (depth + 1)).past, hcs, value_bracket, mapped, hitems]
    rfl
  · simp at h

theorem value_of_objectValue {fields : Fields Json} (h : objectValue cs = .ok (fields, r)) :
    value (depthLimit - 1) cs = .ok (.object fields, r) := by
  unfold objectValue at h
  split at h
  · next rest hcs =>
    obtain ⟨_, rfl, hmembers⟩ := members_simulated (R := Eq)
      (fun fields key => consumes_entry (consumes_value (depthLimit - 2)) fields key)
      (fun s t key cs s' r hst hs => ⟨s', rfl, hst ▸ hs⟩) _ _ _ _ _ _ _ rfl h (rest.length + 1)
      (by omega)
    have hbrace : value (depthLimit - 1) ('\x7b' :: rest) = _ := value_brace (depthLimit - 2) rest
    rw [← (readsItems_value _).past, hcs, hbrace, mapped, hmembers]
  · simp at h

/-- A part that may be null is read as a value. -/
theorem value_of_optional {read : Reader α} {f : α → Json} {x : Option α}
    (hf : ∀ cs x r, read cs = .ok (x, r) → value depth cs = .ok (f x, r))
    (h : optional read cs = .ok (x, r)) : value depth cs = .ok (shown f x, r) := by
  unfold optional at h
  split at h
  · next rest hcs =>
    cases hw : word "ull".toList rest with
    | error f =>
      rw [hw] at h
      simp [Except.map] at h
    | ok r' =>
      rw [hw] at h
      obtain ⟨rfl, rfl⟩ : none = x ∧ r' = r := by simpa [Except.map] using h
      have hnull : value depth cs = .ok (.null, r') :=
        value_of_word hcs (fun _ => by simp [valueWith, skipBlanks_cons, isBlank]) hw
      exact hnull
  · cases hread : read (skipBlanks cs) with
    | error e => simp [hread] at h
    | ok p =>
      obtain ⟨rfl, rfl⟩ : some p.1 = x ∧ p.2 = r := by simpa [hread] using h
      rw [← (readsItems_value depth).past]
      exact hf _ _ _ hread

end

/-! ## 2. The draft and the entries -/

/-- The draft has what the entries show. -/
structure Agrees (m : Draft) (g : Fields Json) : Prop where
  keys : m.keyOrder = g.keys
  nodup : g.keys.Nodup
  version : m.version.map (shown .string) = g.get? "version"
  compilerOptions : m.compilerOptions.map (shown .object) = g.get? "compilerOptions"
  files : m.files.map (shown .strings) = g.get? "files"
  filesGlob : m.filesGlob.map (shown .strings) = g.get? "filesGlob"
  formatCodeOptions : m.formatCodeOptions.map (shown id) = g.get? "formatCodeOptions"
  compileOnSave : m.compileOnSave.map (shown .bool) = g.get? "compileOnSave"
  extra : m.extra = g.filter fun e => isUnknown e.1

theorem agrees_empty : Agrees {} [] :=
  ⟨rfl, List.nodup_nil, rfl, rfl, rfl, rfl, rfl, rfl, rfl⟩

section

variable {m m' : Draft} {g : Fields Json} {key : String} {cs r : List Char}

theorem keys_mention (h : Agrees m g) (key : String) (v : Json) :
    (if key ∈ m.keyOrder then m.keyOrder else m.keyOrder ++ [key]) = (g.insert key v).keys := by
  rw [Fields.keys_insert, h.keys]

theorem filter_insert_known (hk : isUnknown key = false) (v : Json) :
    ((g.insert key v).filter fun e => isUnknown e.1) = g.filter fun e => isUnknown e.1 := by
  induction g with
  | nil => simp [Fields.insert, hk]
  | cons e g ih =>
    obtain ⟨k, w⟩ := e
    by_cases h : k = key
    · subst h
      simp [Fields.insert, hk]
    · simp only [Fields.insert, if_neg h, List.filter_cons, ih]

theorem filter_insert_unknown (hk : isUnknown key = true) (v : Json) :
    ((g.insert key v).filter fun e => isUnknown e.1) =
      Fields.insert (g.filter fun e => isUnknown e.1) key v := by
  induction g with
  | nil => simp [Fields.insert, hk]
  | cons e g ih =>
    obtain ⟨k, w⟩ := e
    by_cases h : k = key
    · subst h
      simp [Fields.insert, hk]
    · cases hu : isUnknown k <;> simp [Fields.insert, h, hu, ih]

theorem entry_anyValue {text : List Char} {v : Json} (hc : colon cs = .ok text)
    (hv : anyValue text = .ok (v, r)) : entry anyValue g key cs = .ok (g.insert key v, r) := by
  simp only [entry, hc, hv]

/-- **An entry of a descriptor is an entry of an object**, and what has been read agrees behind it as
it did in front of it. -/
theorem agrees_of_member (h : Agrees m g) (hm : member m key cs = .ok (m', r)) :
    ∃ g', Agrees m' g' ∧ entry anyValue g key cs = .ok (g', r) := by
  -- A known key leaves everything as it was but the field that it names.
  have hkeys := keys_mention h key
  have hnodup := Fields.nodup_insert h.nodup key
  have hextra (hk : isUnknown key = false) (v : Json) :=
    h.extra.trans (filter_insert_known hk v).symm
  have hget := fun v other => Fields.get?_insert g key other v
  unfold member at hm
  split at hm
  · obtain ⟨x, text, hc, hx, rfl⟩ := field_eq_ok hm
    refine ⟨_, ?_, entry_anyValue hc (value_of_optional (fun _ _ _ => value_of_stringValue) hx)⟩
    rw [mention_eq]
    refine ⟨hkeys _, hnodup _, ?_, ?_, ?_, ?_, ?_, ?_, hextra (by decide) _⟩ <;>
      simp [hget, h.compilerOptions, h.files, h.filesGlob, h.formatCodeOptions, h.compileOnSave]
  · obtain ⟨x, text, hc, hx, rfl⟩ := field_eq_ok hm
    refine ⟨_, ?_, entry_anyValue hc (value_of_optional (fun _ _ _ => value_of_objectValue) hx)⟩
    rw [mention_eq]
    refine ⟨hkeys _, hnodup _, ?_, ?_, ?_, ?_, ?_, ?_, hextra (by decide) _⟩ <;>
      simp [hget, h.version, h.files, h.filesGlob, h.formatCodeOptions, h.compileOnSave]
  · obtain ⟨x, text, hc, hx, rfl⟩ := field_eq_ok hm
    refine ⟨_, ?_, entry_anyValue hc (value_of_optional (fun _ _ _ => value_of_stringList) hx)⟩
    rw [mention_eq]
    refine ⟨hkeys _, hnodup _, ?_, ?_, ?_, ?_, ?_, ?_, hextra (by decide) _⟩ <;>
      simp [hget, h.version, h.compilerOptions, h.filesGlob, h.formatCodeOptions, h.compileOnSave]
  · obtain ⟨x, text, hc, hx, rfl⟩ := field_eq_ok hm
    refine ⟨_, ?_, entry_anyValue hc (value_of_optional (fun _ _ _ => value_of_stringList) hx)⟩
    rw [mention_eq]
    refine ⟨hkeys _, hnodup _, ?_, ?_, ?_, ?_, ?_, ?_, hextra (by decide) _⟩ <;>
      simp [hget, h.version, h.compilerOptions, h.files, h.formatCodeOptions, h.compileOnSave]
  · obtain ⟨x, text, hc, hx, rfl⟩ := field_eq_ok hm
    refine ⟨_, ?_, entry_anyValue hc (value_of_optional (f := id) (fun _ _ _ hv => hv) hx)⟩
    rw [mention_eq]
    refine ⟨hkeys _, hnodup _, ?_, ?_, ?_, ?_, ?_, ?_, hextra (by decide) _⟩ <;>
      simp [hget, h.version, h.compilerOptions, h.files, h.filesGlob, h.compileOnSave]
  · obtain ⟨x, text, hc, hx, rfl⟩ := field_eq_ok hm
    refine ⟨_, ?_, entry_anyValue hc (value_of_optional (fun _ _ _ => value_of_boolValue) hx)⟩
    rw [mention_eq]
    refine ⟨hkeys _, hnodup _, ?_, ?_, ?_, ?_, ?_, ?_, hextra (by decide) _⟩ <;>
      simp [hget, h.version, h.compilerOptions, h.files, h.filesGlob, h.formatCodeOptions]
  · next hv hc hf hg hs ho =>
    have hk : isUnknown key = true := by
      simpa [isUnknown, knownKeys] using ⟨hv, hc, hf, hg, hs, ho⟩
    cases he : entry anyValue m.extra key cs with
    | error f => simp [he] at hm
    | ok p =>
      obtain ⟨text, v, hcolon, hread, hp⟩ := entry_eq_ok he
      simp only [he, Except.ok.injEq, Prod.mk.injEq] at hm
      obtain ⟨rfl, rfl⟩ := hm
      have hother {other : String} (hu : isUnknown other = false) :
          (g.insert key v).get? other = g.get? other := by
        rw [hget, if_neg]
        rintro rfl
        simp [hk] at hu
      refine ⟨_, ?_, entry_anyValue hcolon hread⟩
      rw [mention_eq, hp]
      exact ⟨hkeys v, hnodup v, h.version.trans (hother (by decide)).symm,
        h.compilerOptions.trans (hother (by decide)).symm, h.files.trans (hother (by decide)).symm,
        h.filesGlob.trans (hother (by decide)).symm,
        h.formatCodeOptions.trans (hother (by decide)).symm,
        h.compileOnSave.trans (hother (by decide)).symm,
        (congrArg (Fields.insert · key v) h.extra).trans (filter_insert_unknown hk v).symm⟩

end

/-! ## 3. The descriptor and the object -/

/-- What an object says as a descriptor. -/
structure Says (g : Fields Json) (d : Descriptor) : Prop where
  keys : d.keyOrder = g.keys
  version : d.version.map .string = (g.get? "version").bind nonNull?
  compilerOptions :
    Json.object d.compilerOptions = ((g.get? "compilerOptions").bind nonNull?).getD (.object [])
  files : d.files.map .strings = (g.get? "files").bind nonNull?
  filesGlob : d.filesGlob.map .strings = (g.get? "filesGlob").bind nonNull?
  formatCodeOptions : d.formatCodeOptions = (g.get? "formatCodeOptions").bind nonNull?
  compileOnSave : d.compileOnSave.map .bool = (g.get? "compileOnSave").bind nonNull?
  extra : d.extra = g.filter fun e => isUnknown e.1

/-- A part that is null counts as absent. -/
theorem map_join {α : Type} {f : α → Json} {x : Option (Option α)}
    (h : ∀ y, x.join = some y → f y ≠ .null) : x.join.map f = (x.map (shown f)).bind nonNull? := by
  rcases x with _ | _ | y
  · rfl
  · rfl
  · exact (nonNull?_of_ne (h y rfl)).symm

theorem Agrees.finish {m : Draft} {g : Fields Json} (h : Agrees m g)
    (hsettings : ∀ v, m.formatCodeOptions.join = some v → v ≠ .null) : Says g m.finish := by
  have hoptions : m.compilerOptions.join.map Json.object =
      (g.get? "compilerOptions").bind nonNull? := by
    rw [← h.compilerOptions]
    exact map_join (by simp)
  constructor
  case keys => exact h.keys
  case version =>
    rw [← h.version]
    exact map_join (by simp)
  case compilerOptions =>
    rw [← hoptions, Draft.finish]
    cases m.compilerOptions.join <;> rfl
  case files =>
    rw [← h.files]
    exact map_join (by simp [Json.strings])
  case filesGlob =>
    rw [← h.filesGlob]
    exact map_join (by simp [Json.strings])
  case formatCodeOptions =>
    rw [← h.formatCodeOptions, ← map_join (f := id) hsettings, Option.map_id]
    rfl
  case compileOnSave =>
    rw [← h.compileOnSave]
    exact map_join (by simp)
  case extra => exact h.extra

/-- **A text that is read as a descriptor is an object**, once a byte order mark is set aside, and the
object says what the descriptor is. -/
theorem says_of_parse {text : String} {d : Descriptor} (h : parse text = .ok d) :
    ∃ g, parseObject? (String.ofList (withoutMark text)) = some g ∧ Says g d := by
  have hwf := wellFormed_of_parse h
  unfold parse at h
  cases hd : atEnd draft (withoutMark text) with
  | error f => simp [hd] at h
  | ok m =>
    obtain rfl : m.finish = d := by simpa [hd] using h
    unfold atEnd at hd
    cases hm : draft (withoutMark text) with
    | error f => simp [hm] at hd
    | ok p =>
      obtain ⟨hend, rfl⟩ : skipBlanks p.2 = [] ∧ p.1 = m := by
        simp only [hm] at hd
        split at hd
        · next hend => exact ⟨hend, by simpa using hd⟩
        · simp at hd
      unfold draft at hm
      split at hm
      · next rest hcs =>
        obtain ⟨g, hg, hmembers⟩ := members_simulated (R := Agrees)
          (fun g key => consumes_entry (consumes_value (depthLimit - 1)) g key)
          (fun _ _ _ _ _ _ hs hstep => agrees_of_member hs hstep) _ _ _ _ _ _ _ agrees_empty hm
          (rest.length + 1) (by omega)
        have hvalue : value depthLimit (withoutMark text) = .ok (.object g, p.2) := by
          have hbrace : value depthLimit ('\x7b' :: rest) = _ := value_brace (depthLimit - 1) rest
          rw [← (readsItems_value depthLimit).past, hcs, hbrace, mapped, hmembers]
        refine ⟨g, ?_, hg.finish fun v hv => (hwf.settings v hv).1⟩
        simp [parseObject?, parse?, Json.parse, atEnd, hvalue, hend]
      · simp at hm

/-! ## 4. The numbers of a descriptor -/

section

variable {old : Fields Json} {d : Descriptor}

/-- A value that is there is the value of an entry. -/
theorem mem_of_nonNull? {key : String} {v : Json}
    (h : (old.get? key).bind nonNull? = some v) : (key, v) ∈ old := by
  obtain ⟨w, hw, hv⟩ := Option.bind_eq_some_iff.mp h
  obtain rfl : w = v := by cases w <;> simp_all [nonNull?]
  exact Fields.mem_of_get? hw

theorem mem_numbers_of_mem {e : String × Json} (he : e ∈ old) {n : Number}
    (hn : n ∈ e.2.numbers) : n ∈ (Json.object old).numbers := by
  rw [Json.numbers, fieldNumbers_eq]
  exact List.mem_flatMap_of_mem he hn

/-- The numbers of a descriptor stand in the object that it was read from. -/
theorem mem_numbers_of_object (h : Says old d) {n : Number} (hn : n ∈ d.numbers) :
    n ∈ (Json.object old).numbers := by
  rw [Descriptor.numbers, List.mem_append, List.mem_append] at hn
  rcases hn with (hn | hn) | hn
  · have hoptions := h.compilerOptions
    cases hv : (old.get? "compilerOptions").bind nonNull? with
    | none =>
      rw [hv, Option.getD_none] at hoptions
      rw [Json.object.inj hoptions] at hn
      simp [fieldNumbers] at hn
    | some v =>
      rw [hv, Option.getD_some] at hoptions
      exact mem_numbers_of_mem (mem_of_nonNull? hv) (hoptions ▸ hn)
  · cases hv : d.formatCodeOptions with
    | none => simp [hv] at hn
    | some v =>
      rw [hv] at hn
      exact mem_numbers_of_mem (mem_of_nonNull? (h.formatCodeOptions ▸ hv)) hn
  · rw [h.extra, fieldNumbers_eq] at hn
    obtain ⟨e, he, hmem⟩ := List.mem_flatMap.mp hn
    exact mem_numbers_of_mem (List.mem_filter.mp he).1 hmem

end

/-! ## 5. What the canonical text keeps -/

section

variable {d : Descriptor} {key : String}

theorem get?_unknown (h : d.WellFormed) (hk : isUnknown key = true) :
    d.entries.get? key = d.extra.get? key := by
  have hnone : d.knownFields.get? key = none := by
    refine Fields.get?_eq_none fun hmem => ?_
    have hknown : key ∈ knownKeys := mem_knownKeys hmem
    simp [isUnknown, hknown] at hk
  rw [get?_entries, fields_eq h, Fields.get?_append, hnone, Option.none_or]

theorem get?_known (h : d.WellFormed) (hk : isUnknown key = false) :
    d.entries.get? key = d.known? key := by
  have hnone : d.extra.get? key = none := by
    refine Fields.get?_eq_none fun hmem => ?_
    simp [h.unknown key hmem] at hk
  rw [get?_entries, get?_fields h.extra.1, value?, hnone, Option.none_or]

end

/-- The descriptor with the files that patterns have been expanded into. -/
def expanded (d : Descriptor) (patterns files : List String) : Descriptor :=
  { d with files := some files, filesGlob := some patterns }

theorem WellFormed.expanded {d : Descriptor} (h : d.WellFormed) (patterns files : List String) :
    (d.expanded patterns files).WellFormed :=
  h.withFiles _ _

theorem numbers_expanded (d : Descriptor) (patterns files : List String) :
    (d.expanded patterns files).numbers = d.numbers := rfl

/-- What a rewrite keeps of an object: the values of all keys but those of the files and the patterns,
and the order of the keys that stay, in front of those that are added. -/
structure Keeps (old new : Fields Json) (patterns files : List String) : Prop where
  unknown : ∀ key, isUnknown key = true → new.get? key = old.get? key
  optional : ∀ key ∈ ["version", "formatCodeOptions", "compileOnSave"],
    new.get? key = (old.get? key).bind nonNull?
  compilerOptions : new.get? "compilerOptions" =
    some (((old.get? "compilerOptions").bind nonNull?).getD (.object []))
  filesGlob : new.get? "filesGlob" = some (.strings patterns)
  files : new.get? "files" = some (.strings files)
  order : ∃ added, new.keys = old.keys.filter new.contains ++ added ∧ ∀ key ∈ added, key ∉ old.keys

/-- **The canonical text of a descriptor that was given files and patterns keeps the object that it was
read from.** -/
theorem keeps_entries {d : Descriptor} {old : Fields Json} (h : d.WellFormed) (hs : Says old d)
    (patterns files : List String) :
    Keeps old (d.expanded patterns files).entries patterns files := by
  have hwf := h.expanded patterns files
  have hknown {key : String} (hk : isUnknown key = false) :
      (d.expanded patterns files).entries.get? key = (d.expanded patterns files).known? key :=
    get?_known hwf hk
  constructor
  case unknown =>
    intro key hk
    have hextra : (d.expanded patterns files).extra = old.filter fun e => isUnknown e.1 := hs.extra
    rw [get?_unknown hwf hk, hextra, Fields.get?_filter, if_pos hk]
  case optional =>
    intro key hk
    simp only [List.mem_cons, List.not_mem_nil, or_false] at hk
    rcases hk with rfl | rfl | rfl
    · rw [hknown (by decide), ← hs.version]
      rfl
    · rw [hknown (by decide), ← hs.formatCodeOptions]
      rfl
    · rw [hknown (by decide), ← hs.compileOnSave]
      rfl
  case compilerOptions =>
    rw [hknown (by decide), ← hs.compilerOptions]
    rfl
  case filesGlob =>
    rw [hknown (by decide)]
    rfl
  case files =>
    rw [hknown (by decide)]
    rfl
  case order =>
    have horder : (d.expanded patterns files).keyOrder = old.keys := hs.keys
    have hcontains : (d.expanded patterns files).entries.contains =
        fun key => ((d.expanded patterns files).fields.get? key).isSome := by
      funext key
      rw [Fields.contains, get?_entries]
    refine ⟨Fields.keys ((d.expanded patterns files).fields.filter
      fun e => !(d.expanded patterns files).keyOrder.contains e.1), ?_, ?_⟩
    · rw [hcontains, ← horder, ← keys_picked_of_nodup hwf.order, ← Fields.keys_append]
      rfl
    · intro key hkey
      obtain ⟨e, he, rfl⟩ := List.mem_map.mp hkey
      rw [← horder]
      simpa using (List.mem_filter.mp he).2

end Descriptor

end Tsconfig
