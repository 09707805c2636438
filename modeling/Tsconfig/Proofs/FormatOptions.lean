/-
# Each formatting setting by itself

A setting is a size, a text or a flag, and an entry is usable if its value is of the type of the setting that
it names, a size being a number of 32 bits (`FormatOptions.isUsable`).  Seen as entries, laying an entry over
the settings inserts it if it is usable, and changes nothing if it is not (`FormatOptions.entries_layer`).  So
the settings that an object gives are its usable entries inserted into the defaults
(`FormatOptions.entries_ofSetting`).

Hence each setting has the value that the object gives it, or its default
(`FormatOptions.get?_entries_ofSetting`), and **settings are read back from the object they are written as, and
objects that give the same values are read alike** (`FormatOptions.ofSetting_given`).
-/
import Tsconfig.FormatOptions
import Tsconfig.Proofs.Fields

namespace Tsconfig.FormatOptions

/-! ## 1. Settings as entries -/

/-- The settings that are sizes. -/
def sizeNames : List String := ["indentSize", "tabSize"]

/-- The settings that are texts. -/
def textNames : List String := ["newLineCharacter"]

/-- The settings that are flags. -/
def flagNames : List String := [
  "convertTabsToSpaces",
  "insertSpaceAfterCommaDelimiter",
  "insertSpaceAfterSemicolonInForStatements",
  "insertSpaceBeforeAndAfterBinaryOperators",
  "insertSpaceAfterKeywordsInControlFlowStatements",
  "insertSpaceAfterFunctionKeywordForAnonymousFunctions",
  "insertSpaceAfterOpeningAndBeforeClosingNonemptyParenthesis",
  "placeOpenBraceOnNewLineForFunctions",
  "placeOpenBraceOnNewLineForControlBlocks"]

/-- The names of all settings. -/
def names : List String := sizeNames ++ textNames ++ flagNames

/-- Whether a value is of the type of a setting, and in its range. -/
def isUsable (name : String) : Json → Bool
  | .number (.integer i) => sizeNames.contains name && 0 ≤ i && i < 4294967296
  | .string _ => textNames.contains name
  | .bool _ => flagNames.contains name
  | _ => false

/-- The value that an object gives to a setting.  A value that is not usable counts as none. -/
def given? (fields : Fields Json) (name : String) : Option Json :=
  (fields.get? name).filter (isUsable name)

/-- The settings as entries. -/
def entries (o : FormatOptions) : Fields Json :=
  match o.toJson with
  | .object fields => fields
  | _ => []

section

variable {o o' : FormatOptions} {fields : Fields Json} {name : String} {value : Json}

theorem toJson_eq (o : FormatOptions) : o.toJson = .object o.entries := rfl

/-- The settings are written under their names. -/
theorem keys_entries (o : FormatOptions) : o.entries.keys = names := rfl

theorem nodup_keys_entries (o : FormatOptions) : o.entries.keys.Nodup := by
  rw [keys_entries]
  decide

/-- The entries tell the settings. -/
theorem eq_of_entries (h : o.entries = o'.entries) : o = o' := by
  obtain ⟨⟩ := o
  obtain ⟨⟩ := o'
  simpa [entries, toJson, Json.int, Int.natCast_inj, UInt32.toNat_inj] using h

/-- A number of 32 bits is usable as a size. -/
theorem isUsable_size (hname : name ∈ sizeNames) (n : UInt32) :
    isUsable name (.int n.toNat) = true := by
  have hlt : n.toNat < 4294967296 := n.toNat_lt
  simp [isUsable, Json.int, hname]
  omega

/-- What is written is usable. -/
theorem isUsable_of_mem_entries {e : String × Json} (h : e ∈ o.entries) :
    isUsable e.1 e.2 = true := by
  simp only [entries, toJson, List.mem_cons, List.not_mem_nil, or_false] at h
  rcases h with rfl | rfl | h
  · exact isUsable_size List.mem_cons_self _
  · exact isUsable_size (List.mem_cons_of_mem _ List.mem_cons_self) _
  · rcases h with rfl | rfl | rfl | rfl | rfl | rfl | rfl | rfl | rfl | rfl <;> rfl

/-! ## 2. An entry laid over the settings -/

/-- A size is read from a value just when the value is usable, and is the number that it is. -/
theorem size?_cases (hname : name ∈ sizeNames) (value : Json) :
    size? value = none ∧ isUsable name value = false ∨
      ∃ n : UInt32, size? value = some n ∧ isUsable name value = true ∧ value = .int n.toNat := by
  have hname' : name ∉ textNames ∧ name ∉ flagNames := by
    simp only [sizeNames, List.mem_cons, List.not_mem_nil, or_false] at hname
    rcases hname with rfl | rfl <;> decide
  cases value with
  | number n =>
    cases n with
    | integer i =>
      by_cases hrange : 0 ≤ i ∧ i.toNat < UInt32.size
      · refine .inr ⟨UInt32.ofNat i.toNat, by simp only [size?, if_pos hrange], ?_⟩
        have hn : ((UInt32.ofNat i.toNat).toNat : Int) = i := by
          rw [UInt32.toNat_ofNat_of_lt' hrange.2, Int.toNat_of_nonneg hrange.1]
        have husable := isUsable_size hname (UInt32.ofNat i.toNat)
        rw [hn] at husable ⊢
        exact ⟨husable, rfl⟩
      · refine .inl ⟨by simp only [size?, if_neg hrange], ?_⟩
        have hsize : UInt32.size = 4294967296 := rfl
        simp [isUsable]
        omega
    | real x => exact .inl ⟨rfl, rfl⟩
  | string s => exact .inl ⟨rfl, by simpa [isUsable] using hname'.1⟩
  | bool b => exact .inl ⟨rfl, by simpa [isUsable] using hname'.2⟩
  | null | array items | object fields => exact .inl ⟨rfl, rfl⟩

theorem entries_setFlag (o : FormatOptions) (name : String) (b : Bool) :
    (o.setFlag name b).entries =
      if name ∈ flagNames then o.entries.insert name (.bool b) else o.entries := by
  unfold setFlag
  split
  case h_10 =>
    have hno : name ∉ flagNames := by simp_all [flagNames]
    rw [if_neg hno]
  all_goals
    rw [if_pos (by decide)]
    rfl

/-- **Laying an entry over the settings inserts it if it is usable**, and changes nothing if it is not. -/
theorem entries_layer (o : FormatOptions) (name : String) (value : Json) :
    (o.layer name value).entries =
      if isUsable name value then o.entries.insert name value else o.entries := by
  unfold layer
  split
  · rcases @size?_cases "indentSize" (by decide) value with ⟨hsize, hno⟩ | ⟨n, hsize, husable, hvalue⟩
    · rw [hsize, hno]
      rfl
    · rw [hsize, husable, hvalue]
      rfl
  · rcases @size?_cases "tabSize" (by decide) value with ⟨hsize, hno⟩ | ⟨n, hsize, husable, hvalue⟩
    · rw [hsize, hno]
      rfl
    · rw [hsize, husable, hvalue]
      rfl
  · rfl
  · rw [entries_setFlag]
    simp [isUsable]
  · next hindent htab hflag htext =>
    have hno : isUsable name value = false := by
      cases value with
      | number n =>
        cases n with
        | integer i =>
          have hname : sizeNames.contains name = false := by
            simpa [sizeNames] using ⟨hindent, htab⟩
          rw [isUsable, hname]
          rfl
        | real x => rfl
      | string s => simpa [isUsable, textNames] using fun hname => htext s hname rfl
      | bool b => exact absurd rfl (hflag b)
      | null | array items | object fields => rfl
    rw [hno]
    rfl

/-! ## 3. All entries -/

theorem foldl_layer (fields : Fields Json) (o : FormatOptions) :
    (fields.foldl (fun o e => o.layer e.1 e.2) o).entries =
      o.entries.insertAll (fields.filter fun e => isUsable e.1 e.2) := by
  induction fields generalizing o with
  | nil => rfl
  | cons e fields ih =>
    rw [List.foldl_cons, ih, entries_layer, List.filter_cons]
    split <;> rfl

/-- **The settings of an object are its usable entries inserted into the defaults.** -/
theorem entries_ofSetting (fields : Fields Json) : (ofSetting (some (.object fields))).entries =
    defaults.entries.insertAll (fields.filter fun e => isUsable e.1 e.2) :=
  foldl_layer fields defaults

/-- **Each setting has the value that the object gives it**, or its default. -/
theorem get?_entries_ofSetting (h : fields.keys.Nodup) (name : String) :
    (ofSetting (some (.object fields))).entries.get? name =
      (given? fields name).or (defaults.entries.get? name) := by
  have hkept : (Fields.keys (fields.filter fun e => isUsable e.1 e.2)).Nodup :=
    List.Nodup.sublist (List.filter_sublist.map Prod.fst) h
  rw [entries_ofSetting, Fields.get?_insertAll_of_nodup hkept, Fields.get?_filter_entries h, given?]

/-- The settings are told by the values of their names. -/
theorem eq_of_get?_entries (h : ∀ name ∈ names, o.entries.get? name = o'.entries.get? name) :
    o = o' :=
  eq_of_entries (Fields.eq_of_get? (nodup_keys_entries o) rfl h)

/-- **Settings are read back from what they are written as.** -/
theorem ofSetting_toJson (o : FormatOptions) : ofSetting (some o.toJson) = o := by
  have hall : (o.entries.filter fun e => isUsable e.1 e.2) = o.entries :=
    List.filter_eq_self.mpr fun e he => isUsable_of_mem_entries he
  refine eq_of_entries ?_
  rw [toJson_eq, entries_ofSetting, hall]
  exact Fields.insertAll_of_isPrefix List.prefix_rfl (nodup_keys_entries o)

end

/-- **Settings survive being written, and each of them acts by itself.**  Whatever settings are written are
read back.  Two objects that give the same values to the settings, where a value of another type or out of
range counts as none, are read alike, whatever else is in them and in whatever order; and each setting is the
value that is given to it, or has its default if none is. -/
theorem ofSetting_given : (∀ o : FormatOptions, ofSetting (some o.toJson) = o) ∧
    ∀ fields fields' : Fields Json, fields.keys.Nodup → fields'.keys.Nodup →
      (∀ name ∈ names, given? fields name = given? fields' name) →
        ofSetting (some (.object fields)) = ofSetting (some (.object fields')) ∧
          ∀ name ∈ names, (ofSetting (some (.object fields))).entries.get? name =
            (given? fields name).or (defaults.entries.get? name) := by
  refine ⟨ofSetting_toJson, ?_⟩
  intro fields fields' h h' hsame
  constructor
  · apply eq_of_get?_entries
    intro name hname
    rw [get?_entries_ofSetting h, get?_entries_ofSetting h', hsame name hname]
  · intro name _
    exact get?_entries_ofSetting h name

/-- Settings with an unknown one among them, one out of range and one of another type. -/
def staleFields : Fields Json := [
  ("tabSize", .int 4294967296),
  ("bogus", .bool true),
  ("convertTabsToSpaces", .bool false),
  ("newLineCharacter", .bool true),
  ("indentSize", .int 2)]

/-- The settings of `staleFields` that are usable. -/
def freshFields : Fields Json := [("indentSize", .int 2), ("convertTabsToSpaces", .bool false)]

theorem ofSetting_given_stale : (Fields.keys staleFields).Nodup ∧ (Fields.keys freshFields).Nodup ∧
    (∀ name ∈ names, given? staleFields name = given? freshFields name) ∧
    ofSetting (some (.object staleFields)) = ofSetting (some (.object freshFields)) ∧
    (ofSetting (some (.object staleFields))).entries.get? "tabSize" = some (.int 4) ∧
    (ofSetting (some (.object staleFields))).entries.get? "indentSize" = some (.int 2) := by
  have hstale : (Fields.keys staleFields).Nodup := by decide
  have hfresh : (Fields.keys freshFields).Nodup := by decide
  have hsame : ∀ name ∈ names, given? staleFields name = given? freshFields name := by
    intro name hname
    simp only [names, sizeNames, textNames, flagNames, List.cons_append, List.nil_append,
      List.mem_cons, List.not_mem_nil, or_false] at hname
    rcases hname with rfl | rfl | rfl | rfl | rfl | rfl | rfl | rfl | rfl | rfl | rfl | rfl <;> rfl
  obtain ⟨heq, hget⟩ := ofSetting_given.2 staleFields freshFields hstale hfresh hsame
  refine ⟨hstale, hfresh, hsame, heq, ?_, ?_⟩
  · rw [hget "tabSize" (by decide)]
    rfl
  · rw [hget "indentSize" (by decide)]
    rfl

end Tsconfig.FormatOptions
