/-
# Options of a project and what is written of them

The options of a project are options that a descriptor could have given (`Internal`): they start with
the defaults in their order, the target and the module system are codes with a name that a descriptor
may hold, every other one is what its name takes, and the output directory is the text of a plain path.
Decoding options that pass the check gives such options (`internal_decode`), options are written entry by
entry (`nameCodes_eq_map`), and the check passes what is written of such options
(`Internal.check_encodeAccepted`).
-/
import Tsconfig.Options.Encoding
import Tsconfig.Proofs.Json.RoundTrip
import Tsconfig.Proofs.Path.Pieces

namespace Tsconfig.Options

open Json (Nests)
open Json.Reader (FieldsNest)

/-! ## 1. Options that a descriptor could have given -/

/-- A value that an option may have in a project.  `P` is what is known of the output directory. -/
inductive Fits (P : String → Prop) : String → Json → Prop
  | target (code : Int) (h : code = 0 ∨ code = 1 ∨ code = 2) : Fits P "target" (.int code)
  | module (code : Int) (h : code = 1 ∨ code = 2) : Fits P "module" (.int code)
  | outDir (s : String) (h : P s) : Fits P "outDir" (.string s)
  | other (name : String) (value : Json) (kind : Kind) (hc : codes? name = none)
      (hp : name ∉ pathNames) (hn : currentName name = name) (hs : spec? name = some ⟨kind, none⟩)
      (hk : kind.accepts value = true) (hr : ∀ n ∈ value.numbers, n.ReadsBack) : Fits P name value

/-- Options that a descriptor could have given. -/
structure Internal (P : String → Prop) (m : Fields Json) : Prop where
  nodup : m.keys.Nodup
  front : defaults.keys <+: m.keys
  fits : ∀ e ∈ m, Fits P e.1 e.2

theorem internal_defaults (P : String → Prop) : Internal P defaults := by
  refine ⟨by decide, List.prefix_refl _, ?_⟩
  have hflag (name : String) (b : Bool) (hc : codes? name = none) (hp : name ∉ pathNames)
      (hn : currentName name = name) (hs : spec? name = some ⟨.boolean, none⟩) :
      Fits P name (.bool b) :=
    .other name (.bool b) .boolean hc hp hn hs rfl (by simp [Json.numbers])
  intro e he
  simp only [defaults, List.mem_cons, List.not_mem_nil, or_false] at he
  rcases he with rfl | rfl | rfl | rfl | rfl | rfl
  · exact .target 1 (by decide)
  · exact .module 1 (by decide)
  · exact hflag "declaration" false rfl (by decide) (by decide) (by decide)
  · exact hflag "noImplicitAny" false rfl (by decide) (by decide) (by decide)
  · exact hflag "removeComments" true rfl (by decide) (by decide) (by decide)
  · exact hflag "noLib" false rfl (by decide) (by decide) (by decide)

section

variable {P : String → Prop} {m : Fields Json} {name : String} {value : Json}

theorem Internal.insert (h : Internal P m) (hv : Fits P name value) :
    Internal P (m.insert name value) := by
  refine ⟨Fields.nodup_insert h.nodup name value, ?_, ?_⟩
  · rw [Fields.keys_insert]
    split
    · exact h.front
    · exact h.front.trans (List.prefix_append _ _)
  · intro e he
    rcases Fields.mem_insert he with rfl | he
    · exact hv
    · exact h.fits e he

theorem Internal.fits_of_get? (h : Internal P m) (hv : m.get? name = some value) :
    Fits P name value := h.fits (name, value) (Fields.mem_of_get? hv)

/-- Only the output directory depends on what is known of it. -/
theorem Fits.of_ne {Q : String → Prop} (h : Fits P name value) (hne : name ≠ "outDir") :
    Fits Q name value := by
  cases h with
  | target code hc => exact .target code hc
  | module code hc => exact .module code hc
  | outDir s _ => exact absurd rfl hne
  | other _ _ kind hc hp hn hs hk hr => exact .other name value kind hc hp hn hs hk hr

theorem Fits.ne_out (h : Fits P name value) : name ≠ "out" := by
  cases h with
  | target _ _ => decide
  | module _ _ => decide
  | outDir _ _ => decide
  | other _ _ _ _ hp _ _ _ _ =>
    rintro rfl
    exact hp (by decide)

theorem Fits.exists_text (h : Fits P name value) (hname : name = "outDir") :
    ∃ s, value = .string s ∧ P s := by
  cases h with
  | target _ _ => exact absurd hname (by decide)
  | module _ _ => exact absurd hname (by decide)
  | outDir s hP => exact ⟨s, rfl, hP⟩
  | other _ _ _ _ hp _ _ _ _ => exact absurd (by rw [hname]; decide) hp

theorem Internal.get?_out (h : Internal P m) : m.get? "out" = none := by
  rcases Option.eq_none_or_eq_some (m.get? "out") with hnone | ⟨value, hv⟩
  · exact hnone
  · exact absurd rfl (h.fits_of_get? hv).ne_out

end

/-! ## 2. Decoding -/

/-- The older spellings stand for names that are no older spelling, and none of them is `out`. -/
theorem currentName_cases (name : String) : currentName name = name ∨
    (currentName name ≠ "out" ∧ currentName (currentName name) = currentName name) := by
  have hall : ∀ e ∈ olderNames, e.2 ≠ "out" ∧ currentName e.2 = e.2 := by decide
  rcases Option.eq_none_or_eq_some (olderNames.get? (lowered name)) with h | ⟨current, h⟩
  · left
    rw [currentName, h, Option.getD_none]
  · right
    have hname : currentName name = current := by rw [currentName, h, Option.getD_some]
    rw [hname]
    exact hall _ (Fields.mem_of_get? h)

theorem currentName_currentName (name : String) :
    currentName (currentName name) = currentName name := by
  rcases currentName_cases name with h | ⟨_, h⟩
  · rw [h, h]
  · exact h

theorem eq_out_of_currentName {name : String} (h : currentName name = "out") : name = "out" := by
  rcases currentName_cases name with h' | ⟨h', _⟩
  · rw [← h', h]
  · exact absurd h h'

/-- What an entry without an offence is. -/
theorem offence?_eq_none {name : String} {value : Json} (h : offence? name value = none) :
    ∃ spec, spec? (currentName name) = some spec ∧ spec.kind.accepts value = true ∧
      ∀ allowed s, spec.values = some allowed → value = .string s → s ∈ allowed := by
  unfold offence? at h
  split at h
  · simp at h
  · next spec hspec =>
    split at h
    · simp at h
    · next hk =>
      refine ⟨spec, hspec, by simpa using hk, ?_⟩
      rintro allowed s hvalues rfl
      simp only [hvalues] at h
      split at h
      · next hmem => simpa using hmem
      · simp at h

/-- Only the target and the module system take one of a list of values. -/
theorem values_of_spec? {name : String} {spec : Spec} (h : spec? name = some spec)
    (hc : codes? name = none) : spec.values = none := by
  have hall : ∀ e ∈ schema, codes? e.1 = none → e.2.values = none := by decide
  exact hall (name, spec) (Fields.mem_of_get? h) hc

/-- What becomes of a value that passes the check, under the current spelling of its name: a code for a
target or a module system, and the value itself under any other name. -/
inductive Coded : String → Json → Json → Prop
  | target (s : String) (code : Int) (h : code = 0 ∨ code = 1 ∨ code = 2) :
      Coded "target" (.string s) (.int code)
  | module (s : String) (code : Int) (h : code = 1 ∨ code = 2) :
      Coded "module" (.string s) (.int code)
  | plain (name : String) (value : Json) (kind : Kind) (hc : codes? name = none)
      (hs : spec? name = some ⟨kind, none⟩) (hk : kind.accepts value = true) : Coded name value value

/-- **An entry that passes the check is put under its current name.** -/
theorem layer_eq {name : String} {value : Json} (hcheck : offence? name value = none)
    (m : Fields Json) : ∃ v, layer m name value = m.insert (currentName name) v ∧
      Coded (currentName name) value v := by
  obtain ⟨spec, hspec, hkind, hallowed⟩ := offence?_eq_none hcheck
  have hcode (codes : Fields Int) (code : Int) (hcodes : codes? (currentName name) = some codes)
      (hvalue : value.asString?.bind (codeOf? codes) = some code) :
      layer m name value = m.insert (currentName name) (.int code) := by
    simp only [layer, hcodes, hvalue]
  by_cases htarget : currentName name = "target"
  · rw [htarget] at hspec hcode ⊢
    obtain rfl : spec = ⟨.string, some ["es3", "es5", "es6"]⟩ :=
      Option.some.inj (hspec.symm.trans (by decide))
    cases value with
    | string s =>
      have hs := hallowed _ s rfl rfl
      simp only [List.mem_cons, List.not_mem_nil, or_false] at hs
      rcases hs with rfl | rfl | rfl
      · exact ⟨_, hcode targetCodes 0 rfl (by decide), .target _ 0 (by decide)⟩
      · exact ⟨_, hcode targetCodes 1 rfl (by decide), .target _ 1 (by decide)⟩
      · exact ⟨_, hcode targetCodes 2 rfl (by decide), .target _ 2 (by decide)⟩
    | _ => simp [Kind.accepts] at hkind
  · by_cases hmodule : currentName name = "module"
    · rw [hmodule] at hspec hcode ⊢
      obtain rfl : spec = ⟨.string, some ["commonjs", "amd"]⟩ :=
        Option.some.inj (hspec.symm.trans (by decide))
      cases value with
      | string s =>
        have hs := hallowed _ s rfl rfl
        simp only [List.mem_cons, List.not_mem_nil, or_false] at hs
        rcases hs with rfl | rfl
        · exact ⟨_, hcode moduleCodes 1 rfl (by decide), .module _ 1 (by decide)⟩
        · exact ⟨_, hcode moduleCodes 2 rfl (by decide), .module _ 2 (by decide)⟩
      | _ => simp [Kind.accepts] at hkind
    · have hcodes : codes? (currentName name) = none := by
        rw [codes?, if_neg htarget, if_neg hmodule]
      have hvalues := values_of_spec? hspec hcodes
      obtain ⟨kind, values⟩ := spec
      simp only at hvalues hkind
      exact ⟨value, by simp only [layer, hcodes], .plain _ value kind hcodes (hvalues ▸ hspec) hkind⟩

/-- What a value of an option in a descriptor has to be, other than to pass the check: its numbers read
back, and an output directory has no backslash. -/
def Writable (name : String) (value : Json) : Prop :=
  (∀ n ∈ value.numbers, n.ReadsBack) ∧
    ∀ s, currentName name = "outDir" → value = .string s → '\\' ∉ s.toList

/-- A text without a backslash. -/
def IsSlashed (s : String) : Prop := '\\' ∉ s.toList

/-- **An entry put over options that a descriptor could have given** leaves such options. -/
theorem Internal.layered {m : Fields Json} (h : Internal IsSlashed m) {name : String} {value : Json}
    (hcheck : offence? name value = none) (hout : name ≠ "out") (hw : Writable name value) :
    Internal IsSlashed (layer m name value) := by
  obtain ⟨v, hlayer, hcoded⟩ := layer_eq hcheck m
  have hnout : currentName name ≠ "out" := fun heq => hout (eq_out_of_currentName heq)
  have hcurrent := currentName_currentName name
  have hdir := hw.2
  rw [hlayer]
  refine h.insert ?_
  generalize currentName name = current at hcoded hnout hcurrent hdir
  cases hcoded with
  | target _ code hc => exact .target code hc
  | module _ code hc => exact .module code hc
  | plain _ _ kind hc hs hk =>
    by_cases hname : current = "outDir"
    · subst hname
      obtain rfl : kind = .string := by
        have hspec := hs.symm.trans (by decide : spec? "outDir" = some ⟨.string, none⟩)
        exact congrArg Spec.kind (Option.some.inj hspec)
      cases value with
      | string s => exact .outDir s (hdir s rfl rfl)
      | _ => simp [Kind.accepts] at hk
    · have hpath : current ∉ pathNames := by
        simp only [pathNames, List.mem_cons, List.not_mem_nil, or_false, not_or]
        exact ⟨hname, hnout⟩
      exact .other _ _ kind hc hpath hcurrent hs hk hw.1

/-- A text without a backslash that writes a plain path. -/
def IsPathText (s : String) : Prop := ∃ q : Path, q.IsPlain ∧ q.written = s ∧ '\\' ∉ s.toList

theorem isPathText_resolve {dir : Path} {s : String} (hdir : dir.IsPlain)
    (hback : .char '\\' ∉ dir.written.toList) (hs : IsSlashed s) :
    IsPathText (WrittenPath.withSlashes (dir.resolve s).written) := by
  have hgiven : .char '\\' ∉ (WrittenPath.ofText s).toList := by
    rw [WrittenPath.char_mem_ofText]
    exact hs
  have hnone : .char '\\' ∉ (dir.resolve s).written.toList :=
    Path.not_mem_written (by decide) (Path.not_mem_names_resolve (Path.not_mem_names hback) hgiven)
  rw [WrittenPath.withSlashes_of_not_mem hnone]
  refine ⟨(dir.resolve s).asShown, (hdir.resolve s).asShown, Path.written_asShown _, ?_⟩
  rw [WrittenPath.mem_shown (by decide)]
  exact hnone

theorem resolvePath_of_none {dir : Path} {m : Fields Json} {name : String}
    (h : m.get? name = none) : resolvePath dir m name = m := by
  simp only [resolvePath, h]

/-- The output directory becomes the text of a plain path. -/
theorem Internal.resolved {m : Fields Json} (h : Internal IsSlashed m) {dir : Path}
    (hdir : dir.IsPlain) (hback : .char '\\' ∉ dir.written.toList) :
    Internal IsPathText (resolvePath dir m "outDir") := by
  have hothers (m' : Fields Json) (h' : Internal IsSlashed m')
      (hval : ∀ value, m'.get? "outDir" = some value → Fits IsPathText "outDir" value) :
      Internal IsPathText m' := by
    refine ⟨h'.nodup, h'.front, ?_⟩
    rintro ⟨name, value⟩ he
    by_cases hname : name = "outDir"
    · obtain rfl := hname
      exact hval value (Fields.get?_of_mem h'.nodup he)
    · exact (h'.fits _ he).of_ne hname
  unfold resolvePath
  split
  · next s hs =>
    obtain ⟨_, heq, hslashed⟩ := (h.fits_of_get? hs).exists_text rfl
    obtain rfl := Json.string.inj heq
    obtain ⟨q, hq, htext, hno⟩ := isPathText_resolve hdir hback hslashed
    refine hothers _ (h.insert (.outDir _ hno)) ?_
    intro value hv
    rw [Fields.get?_insert, if_pos rfl] at hv
    obtain rfl := Option.some.inj hv
    exact .outDir _ ⟨q, hq, htext, hno⟩
  · next hnot =>
    refine hothers m h ?_
    intro value hv
    obtain ⟨s, rfl, _⟩ := (h.fits_of_get? hv).exists_text rfl
    exact absurd hv (hnot s)

/-- **Decoding options that pass the check** gives options that a descriptor could have given. -/
theorem internal_decode {raw : Fields Json} {dir : Path} (hcheck : check raw = none)
    (hout : "out" ∉ raw.keys) (hw : ∀ e ∈ raw, Writable e.1 e.2) (hdir : dir.IsPlain)
    (hback : .char '\\' ∉ dir.written.toList) : Internal IsPathText (decode raw dir) := by
  have hlayers : Internal IsSlashed (raw.foldl (fun m e => layer m e.1 e.2) defaults) := by
    refine List.foldlRecOn raw (fun m e => layer m e.1 e.2) (internal_defaults IsSlashed)
      fun m hm e he => ?_
    have hnone : offence? e.1 e.2 = none := List.findSome?_eq_none_iff.mp hcheck e he
    exact hm.layered hnone (fun heq => hout (heq ▸ Fields.mem_keys_of_mem he)) (hw e he)
  have hres := hlayers.resolved hdir hback
  simp only [decode, pathNames, List.foldl_cons, List.foldl_nil]
  rw [resolvePath_of_none hres.get?_out]
  exact hres

/-! ## 3. Encoding -/

/-- What a value is written as: a code by its name, and every other value as it stands. -/
def written (accepts : String → String → Bool) (name : String) (value : Json) : Json :=
  match codes? name, value.asInt? with
  | some codes, some code =>
    match nameOf? codes code (accepts name) with
    | some n => .string n
    | none => value
  | _, _ => value

theorem written_of_codes?_eq_none (accepts : String → String → Bool) {name : String} {value : Json}
    (h : codes? name = none) : written accepts name value = value := by
  simp only [written, h]

/-- Writing one code replaces one value. -/
theorem nameCode_eq_map (accepts : String → String → Bool) {m : Fields Json} (h : m.keys.Nodup)
    (name : String) : nameCode accepts m name =
      m.map fun e => (e.1, if e.1 = name then written accepts e.1 e.2 else e.2) := by
  have hkeep (hsame : ∀ e ∈ m, e.1 = name → written accepts e.1 e.2 = e.2) :
      m = m.map fun e => (e.1, if e.1 = name then written accepts e.1 e.2 else e.2) := by
    conv => lhs; rw [← List.map_id m]
    refine List.map_congr_left fun e he => ?_
    by_cases hk : e.1 = name
    · rw [if_pos hk, hsame e he hk, id]
    · rw [if_neg hk, id]
  unfold nameCode
  split
  · next codes code hcodes hcode =>
    obtain ⟨value, hget, hint⟩ := Option.bind_eq_some_iff.mp hcode
    have hwritten : ∀ e ∈ m, e.1 = name → e.2 = value := by
      intro e he hk
      have hval : m.get? name = some e.2 := hk ▸ Fields.get?_of_mem h he
      exact Option.some.inj (hval.symm.trans hget)
    split
    · next n hn =>
      rw [Fields.insert_eq_map h hget]
      refine List.map_congr_left fun e he => ?_
      by_cases hk : e.1 = name
      · rw [if_pos hk, if_pos hk, hwritten e he hk, hk]
        simp only [written, hcodes, hint, hn]
      · rw [if_neg hk, if_neg hk]
    · next hn =>
      refine hkeep fun e he hk => ?_
      rw [hwritten e he hk, hk]
      simp only [written, hcodes, hint, hn]
  · next hnot =>
    refine hkeep fun e he hk => ?_
    have hget : m.get? name = some e.2 := hk ▸ Fields.get?_of_mem h he
    unfold written
    split
    · next codes code hcodes hcode =>
      exact absurd (by rw [hget, Option.bind_some, hcode]) (hnot codes code (hk ▸ hcodes))
    · rfl

/-- **Options are written entry by entry.** -/
theorem nameCodes_eq_map (accepts : String → String → Bool) {m : Fields Json} (h : m.keys.Nodup) :
    nameCodes accepts m = m.map fun e => (e.1, written accepts e.1 e.2) := by
  have hboth : nameCodes accepts m = ["target", "module"].foldl (nameCode accepts) m := rfl
  rw [hboth, Fields.foldl_eq_map (fun m hm => nameCode_eq_map accepts hm) (by decide) h]
  refine List.map_congr_left fun e _ => ?_
  by_cases hcode : e.1 ∈ ["target", "module"]
  · rw [if_pos hcode]
  · simp only [List.mem_cons, List.not_mem_nil, or_false, not_or] at hcode
    have hcodes : codes? e.1 = none := by rw [codes?, if_neg hcode.1, if_neg hcode.2]
    rw [written_of_codes?_eq_none accepts hcodes, ite_self]

section

variable {P : String → Prop} {m : Fields Json}

theorem Internal.encodeAccepted_eq (h : Internal P m) :
    encodeAccepted m = m.map fun e => (e.1, written isAccepted e.1 e.2) :=
  nameCodes_eq_map isAccepted h.nodup

theorem Internal.keys_encodeAccepted (h : Internal P m) : (encodeAccepted m).keys = m.keys := by
  rw [h.encodeAccepted_eq, Fields.keys_map (written isAccepted)]

/-- What an option is written as passes the check. -/
theorem Fits.offence?_written {name : String} {value : Json} (h : Fits P name value) :
    offence? name (written isAccepted name value) = none := by
  cases h with
  | target code hc => rcases hc with rfl | rfl | rfl <;> decide
  | module code hc => rcases hc with rfl | rfl <;> decide
  | outDir s _ => rfl
  | other _ _ kind hc _ hn hs hk _ =>
    rw [written_of_codes?_eq_none isAccepted hc]
    simp only [offence?, hn, hs, hk]
    rfl

/-- What an option is written as is no array and no object, and its numbers read back. -/
theorem Fits.nests_written {name : String} {value : Json} (h : Fits P name value) (depth : Nat) :
    Nests depth (written isAccepted name value) ∧
      ∀ n ∈ (written isAccepted name value).numbers, n.ReadsBack := by
  have htext (s : String) : Nests depth (.string s) ∧ ∀ n ∈ (Json.string s).numbers, n.ReadsBack :=
    ⟨.string depth s, by simp [Json.numbers]⟩
  cases h with
  | target code hc => rcases hc with rfl | rfl | rfl <;> exact htext _
  | module code hc => rcases hc with rfl | rfl <;> exact htext _
  | outDir s _ => exact htext s
  | other _ _ kind hc _ _ _ hk hr =>
    rw [written_of_codes?_eq_none isAccepted hc]
    refine ⟨?_, hr⟩
    cases kind <;> cases value <;> simp [Kind.accepts] at hk
    · exact .bool depth _
    · exact .string depth _
    · exact .number depth _

theorem Internal.mem_encodeAccepted (h : Internal P m) {e : String × Json}
    (he : e ∈ encodeAccepted m) : ∃ value, Fits P e.1 value ∧ e.2 = written isAccepted e.1 value := by
  rw [h.encodeAccepted_eq] at he
  obtain ⟨e', he', rfl⟩ := List.mem_map.mp he
  exact ⟨e'.2, h.fits e' he', rfl⟩

/-- **What is written passes the check.** -/
theorem Internal.check_encodeAccepted (h : Internal P m) : check (encodeAccepted m) = none := by
  rw [check, List.findSome?_eq_none_iff]
  intro e he
  obtain ⟨value, hfits, heq⟩ := h.mem_encodeAccepted he
  rw [heq]
  exact hfits.offence?_written

theorem Internal.contains_out_encodeAccepted (h : Internal P m) :
    (encodeAccepted m).contains "out" = false := by
  have hnot : "out" ∉ (encodeAccepted m).keys := by
    intro hmem
    obtain ⟨value, hv⟩ := Fields.exists_mem_of_mem_keys hmem
    obtain ⟨_, hfits, _⟩ := h.mem_encodeAccepted hv
    exact hfits.ne_out rfl
  rw [Fields.contains, Fields.get?_eq_none hnot]
  rfl

theorem Internal.fieldsNest_encodeAccepted (h : Internal P m) (depth : Nat) :
    FieldsNest depth (encodeAccepted m) := by
  refine ⟨by rw [h.keys_encodeAccepted]; exact h.nodup, ?_⟩
  intro e he
  obtain ⟨value, hfits, heq⟩ := h.mem_encodeAccepted he
  exact heq ▸ (hfits.nests_written depth).1

theorem Internal.readsBack_encodeAccepted (h : Internal P m) :
    ∀ n ∈ Json.fieldNumbers (encodeAccepted m), n.ReadsBack := by
  intro n hn
  rw [Json.fieldNumbers_eq] at hn
  obtain ⟨e, he, hmem⟩ := List.mem_flatMap.mp hn
  obtain ⟨value, hfits, heq⟩ := h.mem_encodeAccepted he
  rw [heq] at hmem
  exact (hfits.nests_written 0).2 n hmem

end

end Tsconfig.Options
