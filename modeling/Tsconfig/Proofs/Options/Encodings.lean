/-
# Options of a project written down and read again

Whichever of its names a code is written as, the name is read as the code (`codeOf?_of_mem`).  So the
options of a project can be written with any choice among the names, and decoding gives them back, each
in its place (`decode_nameCodes`).  Paths are in the way of this only where they hold a backslash: a path
without one is absolute for every directory (`absolute_of_isPathText`).  Both encodings are such a
choice, hence **decoding undoes both encodings** (`decode_encodings`).

The names of a new descriptor are chosen so that the check passes them.  There is one code that has no
such name: the module system `none` (`offence?_written`).  So **what is written passes the check exactly
if the module system has another code** (`check_encodeAccepted_decode`), and a descriptor that is made
for this code is refused when it is read (`check_encodeAccepted_none`).
-/
import Tsconfig.Proofs.Options.Settings

namespace Tsconfig.Options

/-! ## 1. Codes and their names -/

section

variable {codes : Fields Int} {code : Int} {accepts : String → Bool} {name n : String}

theorem mem_of_lastName? (h : lastName? codes code accepts = some n) : (n, code) ∈ codes := by
  obtain ⟨e, he, rfl⟩ := Option.map_eq_some_iff.mp h
  have hcode := List.find?_some he
  simp only [Bool.and_eq_true, decide_eq_true_eq] at hcode
  exact hcode.1 ▸ List.mem_reverse.mp (List.mem_of_find?_eq_some he)

/-- A code is written as one of its names. -/
theorem mem_of_nameOf? (h : nameOf? codes code accepts = some n) : (n, code) ∈ codes := by
  rcases Option.or_eq_some_iff.mp h with h | ⟨_, h⟩
  · exact mem_of_lastName? h
  · exact mem_of_lastName? h

/-- A code that has a name is written as a name, accepted or not. -/
theorem exists_nameOf? (h : (n, code) ∈ codes) (accepts : String → Bool) :
    ∃ n', nameOf? codes code accepts = some n' := by
  cases hlast : lastName? codes code accepts with
  | some n' => exact ⟨n', by rw [nameOf?, hlast, Option.some_or]⟩
  | none =>
    cases hany : lastName? codes code fun _ => true with
    | some n' => exact ⟨n', by rw [nameOf?, hlast, hany, Option.none_or]⟩
    | none =>
      have hfind := List.find?_eq_none.mp (Option.map_eq_none_iff.mp hany) (n, code)
        (List.mem_reverse.mpr h)
      simp at hfind

/-- **Every name of a code is read as the code.** -/
theorem codeOf?_of_mem (hc : codes? name = some codes) (h : (n, code) ∈ codes) :
    codeOf? codes n = some code := by
  have htarget : ∀ e ∈ targetCodes, codeOf? targetCodes e.1 = some e.2 := by decide
  have hmodule : ∀ e ∈ moduleCodes, codeOf? moduleCodes e.1 = some e.2 := by decide
  rcases codes?_eq_some hc with ⟨_, rfl⟩ | ⟨_, rfl⟩
  · exact htarget (n, code) h
  · exact hmodule (n, code) h

end

/-! ## 2. What the options of a project hold -/

/-- A value that an option of a project may have: a code that has a name, or any value where the option
has no codes.  The option has a current name. -/
inductive Holds : String → Json → Prop
  | code {name n : String} {codes : Fields Int} {code : Int} (hc : codes? name = some codes)
      (h : (n, code) ∈ codes) : Holds name (.int code)
  | plain {name : String} {value : Json} (hc : codes? name = none) (hn : currentName name = name) :
      Holds name value

section

variable {raw m : Fields Json} {dir : Path} {name key : String} {value v : Json}

theorem currentName_of_codes? {codes : Fields Int} (h : codes? name = some codes) :
    currentName name = name := by
  rcases codes?_eq_some h with ⟨rfl, _⟩ | ⟨rfl, _⟩
  · decide
  · decide

theorem not_mem_pathNames {codes : Fields Int} (h : codes? name = some codes) :
    name ∉ pathNames := by
  rcases codes?_eq_some h with ⟨rfl, _⟩ | ⟨rfl, _⟩
  · decide
  · decide

theorem holds_defaults : ∀ e ∈ defaults, Holds e.1 e.2 := by
  have hcodes : (targetCodes.get? "es5" = some 1 ∧ moduleCodes.get? "commonjs" = some 1) := by decide
  have hcurrent : ∀ e ∈ defaults, currentName e.1 = e.1 := by decide
  intro e he
  cases hc : codes? e.1 with
  | none => exact .plain hc (hcurrent e he)
  | some codes =>
    simp only [defaults, List.mem_cons, List.not_mem_nil, or_false] at he
    rcases he with rfl | rfl | rfl | rfl | rfl | rfl
    · exact .code rfl (Fields.mem_of_get? hcodes.1)
    · exact .code rfl (Fields.mem_of_get? hcodes.2)
    all_goals exact absurd hc (by simp [codes?])

/-- What an entry sets is what the option may have. -/
theorem holds_of_setting? (h : setting? name value = some (key, v)) : Holds key v := by
  obtain rfl := fst_of_setting? h
  unfold setting? at h
  split at h
  · next hc => exact .plain hc (currentName_currentName name)
  · next codes hc =>
    obtain ⟨code, hcode, heq⟩ := Option.map_eq_some_iff.mp h
    obtain ⟨s, _, hfound⟩ := Option.bind_eq_some_iff.mp hcode
    obtain rfl : .int code = v := congrArg Prod.snd heq
    exact .code hc (Fields.mem_of_get? hfound)

theorem Holds.settled (h : Holds name value) (dir : Path) : Holds name (settled dir name value) := by
  cases h with
  | code hc hmem =>
    rw [Options.settled, if_neg (not_mem_pathNames hc)]
    exact .code hc hmem
  | plain hc hn => exact .plain hc hn

/-- **Decoding gives every option a value that it may have.** -/
theorem holds_of_mem_decode {e : String × Json} (h : e ∈ decode raw dir) : Holds e.1 e.2 := by
  obtain ⟨v, heq, hfrom⟩ := exists_of_mem_decode h
  rw [heq]
  refine Holds.settled ?_ dir
  rcases hfrom with hdefault | ⟨r, _, hset⟩
  · exact holds_defaults _ hdefault
  · exact holds_of_setting? hset

/-! ## 3. Names for codes -/

/-- **What an option is written as sets it again**, whichever names are chosen. -/
theorem Holds.setting?_written (h : Holds name value) (accepts : String → String → Bool) :
    setting? name (written accepts name value) = some (name, value) := by
  cases h with
  | plain hc hn =>
    rw [written_of_codes?_eq_none accepts hc]
    simp only [setting?, hn, hc]
  | @code _ codes code hc hmem =>
    obtain ⟨n, hn⟩ := exists_nameOf? hmem (accepts name)
    have hwritten : written accepts name (.int code) = .string n := by
      simp only [written, hc, Json.asInt?, Json.int, hn]
    have hread : codeOf? codes n = some code := codeOf?_of_mem hc (mem_of_nameOf? hn)
    rw [hwritten]
    simp only [setting?, currentName_of_codes? hc, hc, Json.asString?, Option.bind_some, hread,
      Option.map_some]

theorem settings_nameCodes (hnodup : m.keys.Nodup) (hholds : ∀ e ∈ m, Holds e.1 e.2)
    (accepts : String → String → Bool) : settings (nameCodes accepts m) = m := by
  rw [nameCodes_eq_map accepts hnodup]
  clear hnodup
  induction m with
  | nil => rfl
  | cons e m ih =>
    have hfirst := (hholds e List.mem_cons_self).setting?_written accepts
    have hrest := ih fun x hx => hholds x (List.mem_cons_of_mem e hx)
    rw [List.map_cons, settings, List.filterMap_cons]
    simp only [hfirst]
    rw [← settings, hrest]

/-- **Options that start with the defaults come back** from any names for their codes, if their paths do
not depend on the directory. -/
theorem decode_nameCodes (hnodup : m.keys.Nodup) (hfront : defaults.keys <+: m.keys)
    (hholds : ∀ e ∈ m, Holds e.1 e.2) (hpaths : ∀ e ∈ m, settled dir e.1 e.2 = e.2)
    (accepts : String → String → Bool) : decode (nameCodes accepts m) dir = m := by
  rw [decode_eq, settings_nameCodes hnodup hholds, Fields.insertAll_of_isPrefix hfront hnodup]
  conv => rhs; rw [← List.map_id m]
  exact List.map_congr_left fun e he => by rw [hpaths e he, id]

/-- A path without a backslash is absolute for every directory. -/
theorem absolute_of_isPathText {s : String} (h : IsPathText s) (dir : Path) :
    absolute dir (.string s) = .string s := by
  obtain ⟨q, hq, htext, hback⟩ := h
  have hnone : .char '\\' ∉ q.written.toList := by
    rw [htext, WrittenPath.char_mem_ofText]
    exact hback
  rw [absolute, ← htext, Path.resolve, Path.parse_written hq, Path.follow_route _ _ hq.rooted,
    WrittenPath.withSlashes_of_not_mem hnone, htext, WrittenPath.shown_ofText]

theorem eq_string_of_absolute {s : String} (h : absolute dir v = .string s) :
    ∃ given, v = .string given ∧ WrittenPath.withSlashes (dir.resolve given).written = s := by
  cases v with
  | string given => exact ⟨given, rfl, Json.string.inj h⟩
  | _ => simp [absolute] at h

/-- A name without codes is set to what the entry says. -/
theorem eq_of_setting? (h : setting? name value = some (key, v)) (hc : codes? key = none) :
    currentName name = key ∧ value = v := by
  obtain rfl := fst_of_setting? h
  simp only [setting?, hc, Option.some.injEq, Prod.mk.injEq, true_and] at h
  exact ⟨rfl, h⟩

/-- **A path of a project** is one that the descriptor gives, resolved and in slashes. -/
theorem exists_path_of_mem_decode {s : String} (h : (key, .string s) ∈ decode raw dir)
    (hpath : key ∈ pathNames) : ∃ name given : String, (name, .string given) ∈ raw ∧
      currentName name = key ∧ WrittenPath.withSlashes (dir.resolve given).written = s := by
  have hcodes : ∀ other ∈ pathNames, codes? other = none := by decide
  have hdefaults : ∀ e ∈ defaults, e.1 ∉ pathNames := by decide
  obtain ⟨v, heq, hfrom⟩ := exists_of_mem_decode h
  rw [settled, if_pos hpath] at heq
  obtain ⟨given, rfl, rfl⟩ := eq_string_of_absolute heq.symm
  rcases hfrom with hdefault | ⟨⟨name, value⟩, hr, hset⟩
  · exact absurd hpath (hdefaults _ hdefault)
  · obtain ⟨hname, rfl⟩ := eq_of_setting? hset (hcodes key hpath)
    exact ⟨name, given, hr, hname, rfl⟩

/-- What a descriptor could have given is what the option may have. -/
theorem Fits.holds {P : String → Prop} (h : Fits P name value) : Holds name value := by
  have htarget : ("es3", 0) ∈ targetCodes ∧ ("es5", 1) ∈ targetCodes ∧ ("es6", 2) ∈ targetCodes := by
    decide
  have hmodule : ("commonjs", 1) ∈ moduleCodes ∧ ("amd", 2) ∈ moduleCodes := by decide
  cases h with
  | target code hc =>
    rcases hc with rfl | rfl | rfl
    · exact .code rfl htarget.1
    · exact .code rfl htarget.2.1
    · exact .code rfl htarget.2.2
  | module code hc =>
    rcases hc with rfl | rfl
    · exact .code rfl hmodule.1
    · exact .code rfl hmodule.2
  | outDir s _ => exact .plain (by decide) (by decide)
  | other _ _ _ hc _ hn _ _ _ => exact .plain hc hn

theorem Fits.settled (h : Fits IsPathText name value) (dir : Path) :
    settled dir name value = value := by
  unfold Options.settled
  split
  · next hpath =>
    cases h with
    | target _ _ => exact absurd hpath (by decide)
    | module _ _ => exact absurd hpath (by decide)
    | outDir s hs => exact absolute_of_isPathText hs dir
    | other _ _ _ _ hp _ _ _ _ => exact absurd hpath hp
  · rfl

/-- **Options that are written to a descriptor are decoded as they were**, in their order. -/
theorem Internal.decode_encodeAccepted (h : Internal IsPathText m) (dir : Path) :
    decode (encodeAccepted m) dir = m :=
  decode_nameCodes h.nodup h.front (fun e he => (h.fits e he).holds)
    (fun e he => (h.fits e he).settled dir) isAccepted

section

variable (hdir : dir.IsPlain) (hback : .char '\\' ∉ dir.written.toList)
  (hraw : ∀ e ∈ raw, currentName e.1 ∈ pathNames → ∀ s, e.2 = .string s → '\\' ∉ s.toList)
include hdir hback hraw

/-- The paths of a project have no backslash if nothing that they are made of has one. -/
theorem isPathText_of_mem_decode {s : String} (h : (key, .string s) ∈ decode raw dir)
    (hpath : key ∈ pathNames) : IsPathText s := by
  obtain ⟨name, given, hr, hname, rfl⟩ := exists_path_of_mem_decode h hpath
  exact isPathText_resolve hdir hback (hraw _ hr (hname ▸ hpath) given rfl)

/-- Then they depend on no directory any more. -/
theorem settled_of_mem_decode {e : String × Json} (h : e ∈ decode raw dir) (dir' : Path) :
    settled dir' e.1 e.2 = e.2 := by
  obtain ⟨key, value⟩ := e
  by_cases hpath : key ∈ pathNames
  · rw [settled, if_pos hpath]
    cases value with
    | string s => exact absolute_of_isPathText (isPathText_of_mem_decode hdir hback hraw h hpath) dir'
    | _ => rfl
  · rw [settled, if_neg hpath]

end

end

/-! ## 4. Both encodings -/

/-- **Decoding undoes both encodings** of the options of a project, in the order of the options, and
for any directory: the paths are absolute already. -/
theorem decode_encodings {raw : Fields Json} {d : WrittenPath}
    (hd : d.toList.head? = some (.char '/')) (hback : .char '\\' ∉ d.toList)
    (hraw : ∀ e ∈ raw, currentName e.1 ∈ pathNames → ∀ s, e.2 = .string s → '\\' ∉ s.toList)
    (dir : Path) :
    decode (encode (decode raw (Path.ofText d))) dir = decode raw (Path.ofText d) ∧
      decode (encodeAccepted (decode raw (Path.ofText d))) dir = decode raw (Path.ofText d) := by
  have hnames : .char '\\' ∉ (Path.ofText d).written.toList :=
    Path.not_mem_written (by decide)
      (Path.not_mem_names_resolve (p := Path.empty) (by simp [Path.empty]) hback)
  have hboth := decode_nameCodes (nodup_decode raw _) (isPrefix_decode raw _)
    (fun _ he => holds_of_mem_decode he)
    (fun _ he => settled_of_mem_decode (Path.isPlain_ofText hd) hnames hraw he dir)
  exact ⟨hboth _, hboth _⟩

/-- Options that the check refuses: capitals in names of codes, an output file that is no text, an option
of an older spelling without a value and one that nobody knows. -/
def strayOptions : Fields Json :=
  [("OUTDIR", .string "../b/./c"), ("target", .string "Latest"), ("module", .string "NONE"),
    ("out", .bool true), ("sourcemap", .null), ("mystery", .array [.int 1])]

theorem decode_encodings_stray :
    check strayOptions ≠ none ∧
      ((encode (decode strayOptions (Path.ofText "/p/q"))).get? "target").bind Json.asString? =
        some "latest" ∧
      ((encodeAccepted (decode strayOptions (Path.ofText "/p/q"))).get? "target").bind
        Json.asString? = some "es6" ∧
      decode (encode (decode strayOptions (Path.ofText "/p/q"))) ⟨true, ["elsewhere"]⟩ =
        decode strayOptions (Path.ofText "/p/q") ∧
      decode (encodeAccepted (decode strayOptions (Path.ofText "/p/q"))) ⟨true, ["elsewhere"]⟩ =
        decode strayOptions (Path.ofText "/p/q") := by
  have hraw : ∀ e ∈ strayOptions, currentName e.1 ∈ pathNames → ∀ s, e.2 = .string s →
      '\\' ∉ s.toList := by
    intro e he _ s hs
    simp only [strayOptions, List.mem_cons, List.not_mem_nil, or_false] at he
    rcases he with rfl | rfl | rfl | rfl | rfl | rfl
    · obtain rfl := Json.string.inj hs
      decide
    · obtain rfl := Json.string.inj hs
      decide
    · obtain rfl := Json.string.inj hs
      decide
    all_goals simp at hs
  refine ⟨by decide, by decide, by decide, ?_⟩
  exact decode_encodings (by decide) (by decide) hraw _

/-! ## 5. What is written and the check -/

/-- What the check says of the module system `none` in a descriptor. -/
def noModuleSystem : Offence := .wrongValue "module" "none" ["commonjs", "amd"]

theorem offence?_written_none :
    offence? "module" (written isAccepted "module" (.int 0)) = some noModuleSystem := by
  decide

/-- **Every code but the module system `none` has a name that a descriptor may hold.** -/
theorem offence?_written_code {name n : String} {codes : Fields Int} {code : Int}
    (hc : codes? name = some codes) (h : (n, code) ∈ codes) (hne : ¬ (name = "module" ∧ code = 0)) :
    offence? name (written isAccepted name (.int code)) = none := by
  have htarget : ∀ e ∈ targetCodes, offence? "target" (written isAccepted "target" (.int e.2)) =
      none := by decide
  have hmodule : ∀ e ∈ moduleCodes, e.2 = 0 ∨
      offence? "module" (written isAccepted "module" (.int e.2)) = none := by decide
  rcases codes?_eq_some hc with ⟨rfl, rfl⟩ | ⟨rfl, rfl⟩
  · exact htarget (n, code) h
  · exact (hmodule (n, code) h).resolve_left fun hzero => hne ⟨rfl, hzero⟩

/-- The entries of a descriptor name options that are recognised, and those without codes have the type
of the option. -/
def Recognised (raw : Fields Json) : Prop :=
  ∀ e ∈ raw, ∃ spec, spec? (currentName e.1) = some spec ∧
    (codes? (currentName e.1) = none → spec.kind.accepts e.2 = true)

section

variable {raw : Fields Json} {dir : Path} {name : String} {value : Json}

theorem accepts_settled {spec : Spec} (hs : spec? name = some spec)
    (hk : spec.kind.accepts value = true) (dir : Path) :
    spec.kind.accepts (settled dir name value) = true := by
  unfold settled
  split
  · next hpath =>
    have hstring := kind_of_mem_pathNames hpath hs
    rw [hstring] at hk ⊢
    obtain ⟨s, rfl⟩ := exists_string hk
    rfl
  · exact hk

/-- An option of a project has the type that the schema says, unless it has codes. -/
theorem accepts_of_mem_decode (hraw : Recognised raw) {e : String × Json} (h : e ∈ decode raw dir)
    (hc : codes? e.1 = none) :
    ∃ spec, spec? e.1 = some spec ∧ spec.values = none ∧ spec.kind.accepts e.2 = true := by
  have hdefaults : ∀ e ∈ defaults, codes? e.1 = none →
      ((spec? e.1).any fun spec => spec.kind.accepts e.2) = true := by decide
  obtain ⟨v, heq, hfrom⟩ := exists_of_mem_decode h
  obtain ⟨spec, hs, hk⟩ : ∃ spec, spec? e.1 = some spec ∧ spec.kind.accepts v = true := by
    rcases hfrom with hdefault | ⟨r, hr, hset⟩
    · exact (Option.any_eq_true _ _).mp (hdefaults _ hdefault hc)
    · obtain ⟨hname, rfl⟩ := eq_of_setting? hset hc
      obtain ⟨spec, hs, hk⟩ := hraw r hr
      exact ⟨spec, hname ▸ hs, hk (hname ▸ hc)⟩
  exact ⟨spec, hs, values_of_spec? hs hc, heq ▸ accepts_settled hs hk dir⟩

/-- **An option that is written passes the check**, unless it is the module system `none`. -/
theorem offence?_written (hraw : Recognised raw) {e : String × Json} (h : e ∈ decode raw dir)
    (hne : e ≠ ("module", .int 0)) : offence? e.1 (written isAccepted e.1 e.2) = none := by
  obtain ⟨name, value⟩ := e
  cases holds_of_mem_decode h with
  | @code _ codes code hc hmem =>
    refine offence?_written_code hc hmem ?_
    rintro ⟨hname, rfl⟩
    obtain rfl : name = "module" := hname
    exact hne rfl
  | plain hc hn =>
    obtain ⟨spec, hs, hvalues, hk⟩ := accepts_of_mem_decode hraw h hc
    rw [written_of_codes?_eq_none isAccepted hc]
    simp only [offence?, hn, hs, hk, hvalues]
    rfl

/-- A name that replaces no older one is spelled that way only. -/
theorem eq_of_currentName {key : String} (h : currentName name = key)
    (hkey : ∀ e ∈ olderNames, e.2 ≠ key) : name = key := by
  rcases Option.eq_none_or_eq_some (olderNames.get? (lowered name)) with hnone | ⟨current, hsome⟩
  · rwa [currentName, hnone, Option.getD_none] at h
  · rw [currentName, hsome, Option.getD_some] at h
    exact absurd h (hkey _ (Fields.mem_of_get? hsome))

/-- A project has the module system `none` only if an entry names it. -/
theorem exists_none_of_decode (h : (decode raw dir).get? "module" = some (.int 0)) :
    ∃ s, ("module", .string s) ∈ raw ∧ lowered s = "none" := by
  obtain ⟨v, heq, hfrom⟩ := exists_of_mem_decode (Fields.mem_of_get? h)
  obtain rfl : .int 0 = v := heq.trans (if_neg (by decide))
  rcases hfrom with hdefault | ⟨⟨name, value⟩, hr, hset⟩
  · have hone := Fields.get?_of_mem (by decide) hdefault
    simp [defaults, Fields.get?, Json.int] at hone
  · obtain rfl : name = "module" := eq_of_currentName (fst_of_setting? hset).symm (by decide)
    have hcurrent : currentName "module" = "module" := by decide
    simp only [setting?, hcurrent, codes?] at hset
    obtain ⟨code, hcode, hint⟩ := Option.map_eq_some_iff.mp hset
    obtain rfl : code = 0 := by simpa [Json.int] using hint
    obtain ⟨s, hs, hfound⟩ := Option.bind_eq_some_iff.mp hcode
    have hname : ∀ e ∈ moduleCodes, e.2 = 0 → e.1 = "none" := by decide
    refine ⟨s, ?_, hname _ (Fields.mem_of_get? hfound) rfl⟩
    cases value with
    | string s' =>
      obtain rfl : s' = s := Option.some.inj hs
      exact hr
    | _ => simp [Json.asString?] at hs

end

/-- **What is written to a new descriptor passes the check exactly if the project has a module system.**
That it has none is all that the check finds, and then an entry has named the module system `none`. -/
theorem check_encodeAccepted_decode {raw : Fields Json} (hraw : Recognised raw) (dir : Path) :
    (check (encodeAccepted (decode raw dir)) = none ↔
      (decode raw dir).get? "module" ≠ some (.int 0)) ∧
    ((decode raw dir).get? "module" = some (.int 0) →
      check (encodeAccepted (decode raw dir)) = some noModuleSystem ∧
        ∃ s, ("module", .string s) ∈ raw ∧ lowered s = "none") := by
  have hwritten : encodeAccepted (decode raw dir) =
      (decode raw dir).map fun e => (e.1, written isAccepted e.1 e.2) :=
    nameCodes_eq_map isAccepted (nodup_decode raw dir)
  have hfound (hmodule : (decode raw dir).get? "module" = some (.int 0)) :
      check (encodeAccepted (decode raw dir)) = some noModuleSystem := by
    rw [check, hwritten, List.findSome?_map]
    cases hfirst : (decode raw dir).findSome?
        ((fun e => offence? e.1 e.2) ∘ fun e => (e.1, written isAccepted e.1 e.2)) with
    | none =>
      rw [List.findSome?_eq_none_iff] at hfirst
      have := hfirst ("module", .int 0) (Fields.mem_of_get? hmodule)
      rw [Function.comp_apply, offence?_written_none] at this
      simp at this
    | some offence =>
      -- Whatever is found first is what the check says of this entry.
      obtain ⟨e, he, hoffence⟩ := List.exists_of_findSome?_eq_some hfirst
      by_cases heq : e = ("module", .int 0)
      · rw [← hoffence, heq]
        exact offence?_written_none
      · rw [Function.comp_apply, offence?_written hraw he heq] at hoffence
        simp at hoffence
  refine ⟨⟨fun hnone hmodule => ?_, fun hmodule => ?_⟩,
    fun hmodule => ⟨hfound hmodule, exists_none_of_decode hmodule⟩⟩
  · rw [hfound hmodule] at hnone
    simp at hnone
  · rw [check, hwritten, List.findSome?_map, List.findSome?_eq_none_iff]
    intro e he
    refine offence?_written hraw he ?_
    rintro rfl
    exact hmodule (Fields.get?_of_mem (nodup_decode raw dir) he)

/-- Options that are recognised, with an unknown language target and no value for the module system. -/
def looseOptions : Fields Json :=
  [("target", .string "es2099"), ("OutDir", .string "built"), ("module", .null),
    ("codepage", .int 65001)]

theorem recognised_looseOptions : Recognised looseOptions := by
  have hspecs : ∀ e ∈ looseOptions, ((spec? (currentName e.1)).any fun spec =>
      (codes? (currentName e.1)).isSome || spec.kind.accepts e.2) = true := by decide
  intro e he
  obtain ⟨spec, hs, hk⟩ := (Option.any_eq_true _ _).mp (hspecs e he)
  refine ⟨spec, hs, fun hc => ?_⟩
  simpa [hc] using hk

theorem check_encodeAccepted_decode_loose :
    check looseOptions ≠ none ∧ Recognised looseOptions ∧
      check (encodeAccepted (decode looseOptions ⟨true, ["p"]⟩)) = none := by
  refine ⟨by decide, recognised_looseOptions,
    ((check_encodeAccepted_decode recognised_looseOptions ⟨true, ["p"]⟩).1).mpr fun hmodule => ?_⟩
  obtain ⟨s, hs, _⟩ :=
    ((check_encodeAccepted_decode recognised_looseOptions ⟨true, ["p"]⟩).2 hmodule).2
  simp [looseOptions] at hs

/-- The one module system that a descriptor cannot hold is written to it all the same. -/
theorem check_encodeAccepted_none :
    Recognised [("module", .string "none")] ∧
      ((encodeAccepted (decode [("module", .string "none")] ⟨true, ["work"]⟩)).get? "module").bind
        Json.asString? = some "none" ∧
      check (encodeAccepted (decode [("module", .string "none")] ⟨true, ["work"]⟩)) ≠ none := by
  refine ⟨?_, by decide, by decide⟩
  intro e he
  obtain rfl := List.mem_singleton.mp he
  exact ⟨⟨.string, some ["commonjs", "amd"]⟩, by decide, fun _ => rfl⟩

end Tsconfig.Options
