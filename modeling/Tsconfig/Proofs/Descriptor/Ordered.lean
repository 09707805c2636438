/-
# The keys of the canonical text

The canonical text has its entries in the order in which they were read, and the new ones behind.  An order may
name a key twice or a key that is not there: picking takes each key where it is first named
(`Descriptor.keys_picked`), and what is not picked stays in its own order (`Descriptor.keys_ordered`).  No value
is lost or changed by that (`Descriptor.get?_ordered`).

The entries that are put in order are the known fields that are there and the extra keys.  An extra key with the
name of a known one stands in the place of that one and has the extra value (`Descriptor.keys_fields`,
`Descriptor.get?_fields`).  So **the canonical text of a descriptor is an object with each of its keys once**,
the named ones first, and with the value that the descriptor gives it (`Descriptor.canonical_ordered`).
-/
import Mathlib.Data.List.Induction
import Tsconfig.Descriptor.Canonical
import Tsconfig.Proofs.Descriptor.WellFormed

namespace Tsconfig.Descriptor

open Json

/-! ## 1. Entries put in order -/

section

variable {fields : Fields Json} {order : List String} {key : String}

/-- What one more key picks. -/
theorem picked_concat (fields : Fields Json) (order : List String) (key : String) :
    picked fields (order ++ [key]) = (fields.get? key).elim (picked fields order)
      fun v => (picked fields order).insert key v := by
  rw [picked, List.foldl_append, List.foldl_cons, List.foldl_nil, ← picked]
  cases fields.get? key <;> rfl

/-- **The keys that are there are picked where they are first named**, each once. -/
theorem keys_picked (fields : Fields Json) (order : List String) :
    (picked fields order).keys = (order.filter fun key => key ∈ fields.keys).eraseDups := by
  induction order using List.reverseRecOn with
  | nil => rfl
  | append_singleton order key ih =>
    rw [picked_concat, List.filter_append, List.eraseDups_append, ← ih]
    cases hv : fields.get? key with
    | none =>
      have hno : key ∉ fields.keys := by
        rw [← Fields.contains_iff, Fields.contains, hv]
        simp
      simp [hno]
    | some v =>
      have hkey : key ∈ fields.keys := Fields.mem_keys_of_mem (Fields.mem_of_get? hv)
      rw [Option.elim_some, Fields.keys_insert]
      have hmem : key ∈ (picked fields order).keys ↔ key ∈ order := by
        rw [ih, List.mem_eraseDups]
        simp [hkey]
      have hone : [key].eraseDups = [key] := by simp [List.eraseDups_cons]
      by_cases hold : key ∈ order <;> simp [hmem, hkey, hold, hone, List.removeAll]

theorem get?_picked (fields : Fields Json) (order : List String) (key : String) :
    (picked fields order).get? key = if key ∈ order then fields.get? key else none := by
  induction order using List.reverseRecOn with
  | nil => rfl
  | append_singleton order other ih =>
    rw [picked_concat]
    cases hv : fields.get? other with
    | none =>
      rw [Option.elim_none, ih]
      by_cases heq : key = other
      · simp [heq, hv]
      · simp [heq]
    | some v =>
      rw [Option.elim_some, Fields.get?_insert, ih]
      by_cases heq : other = key
      · simp [heq, ← hv]
      · simp [heq, Ne.symm heq]

theorem nodup_picked (fields : Fields Json) (order : List String) :
    (picked fields order).keys.Nodup := by
  induction order using List.reverseRecOn with
  | nil => exact List.nodup_nil
  | append_singleton order key ih =>
    rw [picked_concat]
    cases fields.get? key with
    | none => exact ih
    | some v => exact Fields.nodup_insert ih key v

/-- **The keys that are named come first, the others stay in their order.** -/
theorem keys_ordered (fields : Fields Json) (order : List String) :
    (ordered fields order).keys = (order.filter fun key => key ∈ fields.keys).eraseDups ++
      fields.keys.filter fun key => key ∉ order := by
  have hrest : Fields.keys (fields.filter fun e => !order.contains e.1) =
      fields.keys.filter fun key => key ∉ order := by
    rw [Fields.keys, Fields.keys, List.filter_map]
    congr 2
    funext e
    simp
  rw [ordered, Fields.keys_append, keys_picked, hrest]

/-- **No value is lost or changed.** -/
theorem get?_ordered (fields : Fields Json) (order : List String) (key : String) :
    (ordered fields order).get? key = fields.get? key := by
  rw [ordered, Fields.get?_append, get?_picked,
    Fields.get?_filter fields fun key => !order.contains key]
  by_cases h : key ∈ order <;> simp [h]

theorem nodup_ordered (hf : fields.keys.Nodup) (order : List String) :
    (ordered fields order).keys.Nodup := by
  have hpicked := nodup_picked fields order
  rw [keys_picked] at hpicked
  rw [keys_ordered, List.nodup_append]
  refine ⟨hpicked, hf.filter _, ?_⟩
  rintro key hkey other hother rfl
  have hnamed : key ∈ order := (List.mem_filter.mp (List.mem_eraseDups.mp hkey)).1
  simp [hnamed] at hother

theorem mem_ordered (hf : fields.keys.Nodup) {e : String × Json} :
    e ∈ ordered fields order ↔ e ∈ fields := by
  rw [← Fields.get?_eq_some_iff (nodup_ordered hf order), ← Fields.get?_eq_some_iff hf, get?_ordered]

end

/-! ## 2. What a descriptor says of a key -/

/-- The value of a known key. -/
def known? (d : Descriptor) : String → Option Json
  | "version" => d.version.map .string
  | "compilerOptions" => some (.object d.compilerOptions)
  | "files" => d.files.map .strings
  | "filesGlob" => d.filesGlob.map .strings
  | "formatCodeOptions" => d.formatCodeOptions
  | "compileOnSave" => d.compileOnSave.map .bool
  | _ => none

/-- The known keys that are there. -/
def presentKeys (d : Descriptor) : List String := knownKeys.filter fun key => (d.known? key).isSome

/-- The keys of a descriptor: the known ones that are there, then the extra ones. -/
def allKeys (d : Descriptor) : List String :=
  d.presentKeys ++ d.extra.keys.filter fun key => key ∉ d.presentKeys

/-- The value of a key.  An extra value goes before a known one. -/
def value? (d : Descriptor) (key : String) : Option Json := (d.extra.get? key).or (d.known? key)

section

variable {d : Descriptor} {key : String}

theorem keys_optionalEntry {α : Type} (name : String) (f : α → Json) (x : Option α) :
    (optionalEntry name f x).keys = [name].filter fun _ => x.isSome := by
  cases x <;> rfl

theorem get?_optionalEntry {α : Type} (name : String) (f : α → Json) (x : Option α) (key : String) :
    (optionalEntry name f x).get? key = if name = key then x.map f else none := by
  cases x <;> simp [optionalEntry, Fields.get?]

theorem keys_knownFields (d : Descriptor) : d.knownFields.keys = d.presentKeys := by
  have hsplit : knownKeys = ["version"] ++ ["compilerOptions"] ++ ["files"] ++ ["filesGlob"] ++
      ["formatCodeOptions"] ++ ["compileOnSave"] := rfl
  rw [presentKeys, hsplit, knownFields]
  simp only [Fields.keys_append, keys_optionalEntry, List.filter_append]
  simp [List.filter_cons, known?]

theorem get?_knownFields (d : Descriptor) (key : String) : d.knownFields.get? key = d.known? key := by
  simp only [knownFields, Fields.get?_append, get?_optionalEntry]
  fun_cases known? d key with
  | case7 _ hversion hoptions hfiles hpatterns hsettings honSave =>
    simp [Fields.get?, Ne.symm hversion, Ne.symm hoptions, Ne.symm hfiles, Ne.symm hpatterns,
      Ne.symm hsettings, Ne.symm honSave]
  | _ => simp [Fields.get?]

theorem mem_knownKeys (h : key ∈ d.knownFields.keys) : key ∈ knownKeys :=
  (List.mem_filter.mp (keys_knownFields d ▸ h)).1

theorem nodup_presentKeys (d : Descriptor) : d.presentKeys.Nodup :=
  (show knownKeys.Nodup by decide).filter _

/-- **The keys of the fields**: an extra key with the name of a known one stands in its place. -/
theorem keys_fields (h : d.extra.keys.Nodup) : d.fields.keys = d.allKeys := by
  rw [fields, Fields.keys_insertAll h, keys_knownFields, allKeys]

theorem get?_fields (h : d.extra.keys.Nodup) (key : String) : d.fields.get? key = d.value? key := by
  rw [fields, Fields.get?_insertAll_of_nodup h, get?_knownFields, value?]

theorem nodup_fields (d : Descriptor) : d.fields.keys.Nodup := by
  refine Fields.nodup_insertAll ?_ d.extra
  rw [keys_knownFields]
  exact nodup_presentKeys d

/-- The entries of the canonical text. -/
def entries (d : Descriptor) : Fields Json := ordered d.fields d.keyOrder

theorem mem_entries {e : String × Json} : e ∈ d.entries ↔ e ∈ d.fields :=
  mem_ordered (nodup_fields d)

theorem nodup_entries (d : Descriptor) : d.entries.keys.Nodup :=
  nodup_ordered (nodup_fields d) d.keyOrder

theorem get?_entries (d : Descriptor) (key : String) : d.entries.get? key = d.fields.get? key :=
  get?_ordered d.fields d.keyOrder key

/-! ## 3. The text -/

/-- What is asked of a descriptor for its text to be read back: no extra key is repeated, no value nests too
deep for the reader or repeats a key, and the numbers read back. -/
structure Readable (d : Descriptor) : Prop where
  extra : d.extra.keys.Nodup
  nests : ∀ key v, d.value? key = some v → Nests (depthLimit - 1) v
  numbers : ∀ key v, d.value? key = some v → ∀ n ∈ v.numbers, n.ReadsBack

theorem Readable.value?_of_mem (h : d.Readable) {e : String × Json} (he : e ∈ d.entries) :
    d.value? e.1 = some e.2 := by
  rw [← get?_fields h.extra]
  exact Fields.get?_of_mem (nodup_fields d) (mem_entries.mp he)

/-- The text of a readable descriptor is an object with its entries. -/
theorem Readable.parseObject?_canonical (h : d.Readable) :
    parseObject? d.canonical = some d.entries := by
  apply parseObject?_pretty
  · refine .object (depthLimit - 1) d.entries (nodup_entries d) ?_
    intro e he
    exact h.nests e.1 e.2 (h.value?_of_mem he)
  · intro n hn
    rw [Json.numbers, fieldNumbers_eq] at hn
    obtain ⟨e, he, hmem⟩ := List.mem_flatMap.mp hn
    exact h.numbers e.1 e.2 (h.value?_of_mem he) n hmem

/-- **The canonical text orders the keys without losing or repeating any.**  Read back, it is an object with
each key of the descriptor once: those that the order names, where it first names them, then the others, known
ones in front of extra ones; and each key has the value that the descriptor gives it. -/
theorem canonical_ordered (h : d.Readable) : ∃ m, parseObject? d.canonical = some m ∧ m.keys.Nodup ∧
    (∀ key, key ∈ m.keys ↔ (d.known? key).isSome ∨ key ∈ d.extra.keys) ∧
    m.keys = (d.keyOrder.filter fun key => key ∈ d.allKeys).eraseDups ++
      d.allKeys.filter (fun key => key ∉ d.keyOrder) ∧
    ∀ key, m.get? key = d.value? key := by
  have hvalue (key : String) : d.entries.get? key = d.value? key := by
    rw [get?_entries, get?_fields h.extra]
  refine ⟨d.entries, h.parseObject?_canonical, nodup_entries d, ?_, ?_, hvalue⟩
  · intro key
    rw [← Fields.contains_iff, ← Fields.contains_iff, Fields.contains, Fields.contains, hvalue, value?,
      Option.isSome_or, Bool.or_eq_true, or_comm]
  · rw [entries, keys_ordered, keys_fields h.extra]

/-- A descriptor whose order repeats a key and names one that is not there, with an extra version. -/
def strayOrder : Descriptor where
  version := some "1"
  compilerOptions := [("target", .string "es5")]
  files := none
  filesGlob := none
  formatCodeOptions := some .null
  compileOnSave := none
  extra := [("zeta", .number (.integer 1)), ("version", .null)]
  keyOrder := ["zeta", "nope", "zeta", "compilerOptions"]

/-- The extra version stands where the known one would, behind the keys that the order names. -/
theorem canonical_ordered_strayOrder : strayOrder.Readable ∧
    ∃ m, parseObject? strayOrder.canonical = some m ∧
      m.keys = ["zeta", "compilerOptions", "version", "formatCodeOptions"] ∧
      m.get? "version" = some .null := by
  have hvalue (key : String) (v : Json) (hv : strayOrder.value? key = some v) :
      v = .number (.integer 1) ∨ v = .null ∨ v = .object [("target", .string "es5")] := by
    have hfields : strayOrder.fields = [("version", .null),
        ("compilerOptions", .object [("target", .string "es5")]), ("formatCodeOptions", .null),
        ("zeta", .number (.integer 1))] := rfl
    rw [← get?_fields (by decide), hfields] at hv
    have hmem := Fields.mem_of_get? hv
    simp only [List.mem_cons, Prod.mk.injEq, List.not_mem_nil, or_false] at hmem
    rcases hmem with ⟨_, rfl⟩ | ⟨_, rfl⟩ | ⟨_, rfl⟩ | ⟨_, rfl⟩ <;> simp
  have hreadable : strayOrder.Readable := by
    refine ⟨by decide, ?_, ?_⟩
    · intro key v hv
      rcases hvalue key v hv with rfl | rfl | rfl
      · exact .number _ _
      · exact .null _
      · exact .object (depthLimit - 2) _ (by decide) (by simpa using .string _ _)
    · intro key v hv n hn
      rcases hvalue key v hv with rfl | rfl | rfl
      · obtain rfl : n = .integer 1 := by simpa [Json.numbers] using hn
        decide
      · simp [Json.numbers] at hn
      · simp [Json.numbers, fieldNumbers] at hn
  obtain ⟨m, hm, -, -, hkeys, hget⟩ := canonical_ordered hreadable
  refine ⟨hreadable, m, hm, ?_, ?_⟩
  · rw [hkeys]
    decide
  · rw [hget]
    rfl

end

end Tsconfig.Descriptor
