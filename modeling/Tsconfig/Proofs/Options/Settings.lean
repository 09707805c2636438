/-
# What the entries of a descriptor set

An entry sets the option of its current name, to a code where the option has codes and to its own value
where it has none (`setting?`).  Decoding inserts what the entries set into the defaults, one after the
other, and then makes the paths absolute, each by itself (`decode_eq`).  So the last entry that sets an
option tells its value (`get?_decode`), and an option that no entry sets has its default.

An entry that passes the check sets the option of its name, whatever it says (`setting?_of_check`).  With
that, **options that pass the check all take effect** (`decode_of_check`).
-/
import Tsconfig.Proofs.Options

namespace Tsconfig.Options

/-! ## 1. Entries -/

/-- What an entry sets.  A name that has no code sets nothing. -/
def setting? (name : String) (value : Json) : Option (String × Json) :=
  match codes? (currentName name) with
  | none => some (currentName name, value)
  | some codes =>
    (value.asString?.bind (codeOf? codes)).map fun code => (currentName name, .int code)

/-- What the entries of a descriptor set, in their order. -/
def settings (raw : Fields Json) : Fields Json := raw.filterMap fun e => setting? e.1 e.2

/-- A path made absolute, in slashes. -/
def absolute (dir : Path) : Json → Json
  | .string path => .string (WrittenPath.withSlashes (dir.resolve path).written)
  | value => value

/-- The value of an option in a project: paths are absolute. -/
def settled (dir : Path) (name : String) (value : Json) : Json :=
  if name ∈ pathNames then absolute dir value else value

section

variable {m raw : Fields Json} {name key : String} {value v : Json}

theorem layer_eq_insertAll (m : Fields Json) (name : String) (value : Json) :
    layer m name value = m.insertAll (setting? name value).toList := by
  cases hcodes : codes? (currentName name) with
  | none =>
    simp only [layer, setting?, hcodes]
    rfl
  | some codes =>
    simp only [layer, setting?, hcodes]
    cases value.asString?.bind (codeOf? codes) <;> rfl

theorem foldl_layer (raw m : Fields Json) :
    raw.foldl (fun m e => layer m e.1 e.2) m = m.insertAll (settings raw) := by
  induction raw generalizing m with
  | nil => rfl
  | cons e raw ih =>
    rw [List.foldl_cons, ih, layer_eq_insertAll, settings, settings, List.filterMap_cons]
    cases setting? e.1 e.2 <;> rfl

/-- An entry sets the option of its current name only. -/
theorem fst_of_setting? (h : setting? name value = some (key, v)) : key = currentName name := by
  unfold setting? at h
  split at h
  · exact (congrArg Prod.fst (Option.some.inj h)).symm
  · obtain ⟨_, _, heq⟩ := Option.map_eq_some_iff.mp h
    exact (congrArg Prod.fst heq).symm

theorem mem_settings {e : String × Json} :
    e ∈ settings raw ↔ ∃ r ∈ raw, setting? r.1 r.2 = some e := List.mem_filterMap

theorem mem_keys_settings (h : key ∈ (settings raw).keys) : ∃ e ∈ raw, currentName e.1 = key := by
  obtain ⟨v, hv⟩ := Fields.exists_mem_of_mem_keys h
  obtain ⟨e, he, hset⟩ := mem_settings.mp hv
  exact ⟨e, he, (fst_of_setting? hset).symm⟩

/-- What no entry names is not set. -/
theorem get?_reverse_settings (h : ∀ e ∈ raw, currentName e.1 ≠ key) :
    Fields.get? (settings raw).reverse key = none := by
  refine Fields.get?_eq_none fun hmem => ?_
  rw [Fields.keys, List.map_reverse, List.mem_reverse] at hmem
  obtain ⟨e, he, heq⟩ := mem_keys_settings hmem
  exact h e he heq

theorem settings_append_cons (earlier later : Fields Json)
    (h : setting? name value = some (key, v)) : settings (earlier ++ (name, value) :: later) =
      settings earlier ++ (key, v) :: settings later := by
  rw [settings, List.filterMap_append, List.filterMap_cons]
  simp only [h]
  rfl

/-! ## 2. Decoding -/

theorem resolvePath_eq_map (dir : Path) (h : m.keys.Nodup) (name : String) :
    resolvePath dir m name = m.map fun e => (e.1, if e.1 = name then absolute dir e.2 else e.2) := by
  have hvalue : ∀ e ∈ m, e.1 = name → m.get? name = some e.2 := by
    rintro e he rfl
    exact Fields.get?_of_mem h he
  unfold resolvePath
  split
  · next path hpath =>
    rw [Fields.insert_eq_map h hpath]
    refine List.map_congr_left fun e he => ?_
    by_cases hname : e.1 = name
    · have hstring : e.2 = .string path := Option.some.inj ((hvalue e he hname).symm.trans hpath)
      rw [if_pos hname, if_pos hname, hstring, absolute]
    · rw [if_neg hname, if_neg hname]
  · next hno =>
    conv => lhs; rw [← List.map_id m]
    refine List.map_congr_left fun e he => ?_
    by_cases hname : e.1 = name
    · have hsame : absolute dir e.2 = e.2 := by
        unfold absolute
        split
        · next path hpath => exact absurd (hpath ▸ hvalue e he hname) (hno path)
        · rfl
      rw [if_pos hname, hsame, id]
    · rw [if_neg hname, id]

/-- **Decoding inserts what the entries set into the defaults**, and makes paths absolute. -/
theorem decode_eq (raw : Fields Json) (dir : Path) : decode raw dir =
    (defaults.insertAll (settings raw)).map fun e => (e.1, settled dir e.1 e.2) := by
  have hnodup : (defaults.insertAll (settings raw)).keys.Nodup :=
    Fields.nodup_insertAll (by decide) _
  rw [decode, foldl_layer]
  exact Fields.foldl_eq_map (f := fun _ => absolute dir)
    (fun m hm name => resolvePath_eq_map dir hm name) (by decide) hnodup

theorem keys_decode (raw : Fields Json) (dir : Path) :
    (decode raw dir).keys = (defaults.insertAll (settings raw)).keys := by
  rw [decode_eq, Fields.keys_map (settled dir)]

theorem nodup_decode (raw : Fields Json) (dir : Path) : (decode raw dir).keys.Nodup := by
  rw [keys_decode]
  exact Fields.nodup_insertAll (by decide) _

/-- The options of a project start with the defaults, in their order. -/
theorem isPrefix_decode (raw : Fields Json) (dir : Path) :
    defaults.keys <+: (decode raw dir).keys := by
  rw [keys_decode]
  exact Fields.isPrefix_insertAll _ _

/-- **The last entry that sets an option tells its value.** -/
theorem get?_decode (raw : Fields Json) (dir : Path) (key : String) : (decode raw dir).get? key =
    ((Fields.get? (settings raw).reverse key).or (defaults.get? key)).map (settled dir key) := by
  rw [decode_eq, Fields.get?_map (settled dir), Fields.get?_insertAll]

/-- An option of a project is a default or has been set by an entry. -/
theorem exists_of_mem_decode {dir : Path} {e : String × Json} (h : e ∈ decode raw dir) :
    ∃ v, e.2 = settled dir e.1 v ∧
      ((e.1, v) ∈ defaults ∨ ∃ r ∈ raw, setting? r.1 r.2 = some (e.1, v)) := by
  rw [decode_eq] at h
  obtain ⟨e', he', rfl⟩ := List.mem_map.mp h
  refine ⟨e'.2, rfl, ?_⟩
  exact (Fields.mem_insertAll he').imp_right mem_settings.mp

end

/-! ## 3. Entries that pass the check -/

/-- What a value in a descriptor stands for in a project in `dir`: the code that its text is a name of,
the path that it is for the directory, or itself. -/
inductive Translates (dir : Path) : String → Json → Json → Prop
  | code {name s : String} {codes : Fields Int} {code : Int} (hc : codes? name = some codes)
      (h : codes.get? s = some code) : Translates dir name (.string s) (.int code)
  | path {name s : String} (hp : name ∈ pathNames) :
      Translates dir name (.string s) (.string (WrittenPath.withSlashes (dir.resolve s).written))
  | plain {name : String} {value : Json} (hc : codes? name = none) (hp : name ∉ pathNames) :
      Translates dir name value value

section

variable {raw : Fields Json} {name : String} {value : Json}

theorem codes?_eq_some {codes : Fields Int} (h : codes? name = some codes) :
    (name = "target" ∧ codes = targetCodes) ∨ (name = "module" ∧ codes = moduleCodes) := by
  unfold codes? at h
  split at h
  · next hname => exact .inl ⟨hname, (Option.some.inj h).symm⟩
  · split at h
    · next hname => exact .inr ⟨hname, (Option.some.inj h).symm⟩
    · simp at h

/-- **The values that a descriptor may hold have codes**, and are written as the codes name them. -/
theorem spec_of_codes? {codes : Fields Int} {spec : Spec} (hc : codes? name = some codes)
    (hs : spec? name = some spec) : ∃ allowed, spec = ⟨.string, some allowed⟩ ∧
      ∀ s ∈ allowed, lowered s = s ∧ ∃ code, codes.get? s = some code := by
  have hnamed (table : Fields Int) (allowed : List String)
      (h : ∀ s ∈ allowed, lowered s = s ∧ (table.get? s).isSome = true) :
      ∀ s ∈ allowed, lowered s = s ∧ ∃ code, table.get? s = some code := fun s hs =>
    (h s hs).imp_right Option.isSome_iff_exists.mp
  rcases codes?_eq_some hc with ⟨rfl, rfl⟩ | ⟨rfl, rfl⟩
  · obtain rfl : spec = ⟨.string, some ["es3", "es5", "es6"]⟩ :=
      Option.some.inj (hs.symm.trans (by decide))
    exact ⟨_, rfl, hnamed _ _ (by decide)⟩
  · obtain rfl : spec = ⟨.string, some ["commonjs", "amd"]⟩ :=
      Option.some.inj (hs.symm.trans (by decide))
    exact ⟨_, rfl, hnamed _ _ (by decide)⟩

/-- The options that hold a path take a text. -/
theorem kind_of_mem_pathNames {spec : Spec} (hp : name ∈ pathNames) (hs : spec? name = some spec) :
    spec.kind = .string := by
  have hall : ∀ other ∈ pathNames, spec? other = some ⟨.string, none⟩ := by decide
  exact congrArg Spec.kind (Option.some.inj (hs.symm.trans (hall name hp)))

theorem exists_string (h : Kind.string.accepts value = true) : ∃ s, value = .string s := by
  cases value with
  | string s => exact ⟨s, rfl⟩
  | _ => simp [Kind.accepts] at h

/-- **An entry that passes the check sets the option of its name** to what it stands for. -/
theorem setting?_of_check (h : offence? name value = none) (dir : Path) :
    ∃ v, setting? name value = some (currentName name, v) ∧
      Translates dir (currentName name) value (settled dir (currentName name) v) := by
  obtain ⟨spec, hspec, hkind, hallowed⟩ := offence?_eq_none h
  unfold setting?
  cases hcodes : codes? (currentName name) with
  | some codes =>
    obtain ⟨allowed, rfl, hnamed⟩ := spec_of_codes? hcodes hspec
    obtain ⟨s, rfl⟩ := exists_string hkind
    obtain ⟨hlower, code, hcode⟩ := hnamed s (hallowed allowed s rfl rfl)
    have hfound : (Json.string s).asString?.bind (codeOf? codes) = some code := by
      simp only [Json.asString?, Option.bind_some, codeOf?, hlower, hcode]
    have hpath : currentName name ∉ pathNames := by
      rcases codes?_eq_some hcodes with ⟨hname, _⟩ | ⟨hname, _⟩ <;> rw [hname] <;> decide
    refine ⟨.int code, by simp only [hfound, Option.map_some], ?_⟩
    rw [settled, if_neg hpath]
    exact .code hcodes hcode
  | none =>
    refine ⟨value, rfl, ?_⟩
    by_cases hpath : currentName name ∈ pathNames
    · obtain ⟨s, rfl⟩ := exists_string (kind_of_mem_pathNames hpath hspec ▸ hkind)
      rw [settled, if_pos hpath]
      exact .path hpath
    · rw [settled, if_neg hpath]
      exact .plain hcodes hpath

theorem setting?_of_mem (hcheck : check raw = none) {e : String × Json} (he : e ∈ raw) (dir : Path) :
    ∃ v, setting? e.1 e.2 = some (currentName e.1, v) ∧
      Translates dir (currentName e.1) e.2 (settled dir (currentName e.1) v) :=
  setting?_of_check (List.findSome?_eq_none_iff.mp hcheck e he) dir

/-- **Options that pass the check all take effect.**  The project has the defaults and the options that
the entries name, each once.  Every entry is put over the options so far; the last one of a name tells
the value, and an option without an entry has its default. -/
theorem decode_of_check (hcheck : check raw = none) (dir : Path) :
    (decode raw dir).keys.Nodup ∧
    (∀ key, key ∈ (decode raw dir).keys ↔
      key ∈ defaults.keys ∨ ∃ e ∈ raw, currentName e.1 = key) ∧
    (∀ e ∈ raw, ∃ v, ∀ m, layer m e.1 e.2 = m.insert (currentName e.1) v) ∧
    (∀ earlier name value later, raw = earlier ++ (name, value) :: later →
      (∀ e ∈ later, currentName e.1 ≠ currentName name) →
        ∃ v, (decode raw dir).get? (currentName name) = some v ∧
          Translates dir (currentName name) value v) ∧
    ∀ key ∈ defaults.keys, (∀ e ∈ raw, currentName e.1 ≠ key) →
      (decode raw dir).get? key = defaults.get? key := by
  refine ⟨nodup_decode raw dir, fun key => ?keys, fun e he => ?put, ?last, fun key hkey hno => ?rest⟩
  case keys =>
    rw [keys_decode, Fields.mem_keys_insertAll]
    refine or_congr_right ⟨mem_keys_settings, ?_⟩
    rintro ⟨e, he, rfl⟩
    obtain ⟨v, hset, _⟩ := setting?_of_mem hcheck he dir
    exact Fields.mem_keys_of_mem (mem_settings.mpr ⟨e, he, hset⟩)
  case put =>
    obtain ⟨v, hset, _⟩ := setting?_of_mem hcheck he dir
    refine ⟨v, fun m => ?_⟩
    rw [layer_eq_insertAll, hset]
    rfl
  case last =>
    rintro earlier name value later rfl hlater
    obtain ⟨v, hset, htranslates⟩ := setting?_of_mem hcheck (e := (name, value)) (by simp) dir
    refine ⟨settled dir (currentName name) v, ?_, htranslates⟩
    rw [get?_decode, settings_append_cons earlier later hset, List.reverse_append, List.reverse_cons,
      Fields.get?_append, Fields.get?_append, get?_reverse_settings hlater]
    simp [Fields.get?]
  case rest =>
    have hpath : key ∉ pathNames := by
      have hall : ∀ other ∈ defaults.keys, other ∉ pathNames := by decide
      exact hall key hkey
    have hsame : settled dir key = id := by
      funext value
      rw [settled, if_neg hpath, id]
    rw [get?_decode, get?_reverse_settings hno, Option.none_or, hsame, Option.map_id]
    rfl

end

/-- Options that give the output directory under three spellings. -/
def respelledOptions : Fields Json :=
  [("outdir", .string "a"), ("target", .string "es6"), ("outDir", .string "b"),
    ("OUTDIR", .string "../c"), ("nolib", .bool true), ("out", .string "x.js")]

theorem decode_of_check_respelled :
    check respelledOptions = none ∧
      (decode respelledOptions ⟨true, ["p", "q"]⟩).get? "outDir" = some (.string "/p/c") ∧
      "noLib" ∈ (decode respelledOptions ⟨true, ["p", "q"]⟩).keys ∧
      (decode respelledOptions ⟨true, ["p", "q"]⟩).get? "module" = some (.int 1) := by
  have hcheck : check respelledOptions = none := by decide
  have hcurrent : currentName "OUTDIR" = "outDir" := by decide
  obtain ⟨_, hkeys, _, hlast, hrest⟩ := decode_of_check hcheck ⟨true, ["p", "q"]⟩
  refine ⟨hcheck, ?_, (hkeys "noLib").mpr (.inl (by decide)), ?_⟩
  · obtain ⟨v, hv, htranslates⟩ := hlast
      [("outdir", .string "a"), ("target", .string "es6"), ("outDir", .string "b")]
      "OUTDIR" (.string "../c") [("nolib", .bool true), ("out", .string "x.js")] rfl (by decide)
    rw [hcurrent] at hv htranslates
    rw [hv]
    cases htranslates with
    | code hc _ =>
      have hnone : codes? "outDir" = none := by decide
      simp [hnone] at hc
    | path _ =>
      have htext :
          WrittenPath.withSlashes ((⟨true, ["p", "q"]⟩ : Path).resolve "../c").written = "/p/c" := by
        decide
      rw [htext]
    | plain _ hp => exact absurd (by decide) hp
  · exact hrest "module" (by decide) (by decide)

end Tsconfig.Options
