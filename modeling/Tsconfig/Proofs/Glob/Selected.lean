/-
# What a selected file names

A selected file is written as the root of the pattern that selected it and the way from there to an
entry of the listing.  Resolving it takes both again, in the same order (`resolve_candidate`), if the
names of the way are shown as themselves, and unless a root that starts with a slash has got a dot in
front of it.

The way leads to a file: the listing enters a directory by the path that it is found by (`Entered`), and
so what lies in it is found by that path with one more name (`of_mem_listFrom`), if the system takes a
path of that length.  Together, **what a pattern selects is resolved to the file that it matched**
(`isFile_of_mem_expand`).  A backslash in a name breaks this, and so do bytes that are no text, a root
that starts with a slash and a path that is too long (`expand_misnames`).
-/
import Tsconfig.Proofs.FileSystem.LongPath
import Tsconfig.Proofs.Glob.Listing
import Tsconfig.Proofs.Path.Pieces

namespace Tsconfig.Glob

open FileSystem
open Loader (longName longPath not_mem_longPath size_longName isPlain_longPath
  resolve?_longPath_of_link size_longPath_child)

/-! ## 1. The listed files -/

section

variable {fs : FileSystem} {base : Path} {way : Way} {dir loc : Location} {name : WrittenPath}

theorem perm_insertName (name : WrittenPath) (names : List WrittenPath) :
    (insertName name names).Perm (name :: names) := by
  induction names with
  | nil => exact List.Perm.refl _
  | cons x xs ih =>
    rw [insertName]
    split
    · exact List.Perm.refl _
    · exact (ih.cons x).trans (List.Perm.swap name x xs)

theorem perm_sortNames (names : List WrittenPath) : (sortNames names).Perm names := by
  induction names with
  | nil => exact List.Perm.refl _
  | cons x xs ih => exact (perm_insertName x (sortNames xs)).trans (ih.cons x)

theorem mem_allNames_of_mem_namesIn (h : name ∈ fs.namesIn dir) : name ∈ fs.allNames := by
  obtain ⟨e, he, hname⟩ := List.mem_filterMap.mp ((perm_sortNames _).mem_iff.mp h)
  refine List.mem_filterMap.mpr ⟨e, he, ?_⟩
  unfold nameIn? at hname
  split at hname
  · exact hname
  · simp at hname

theorem pathBelow_concat (base : Path) (way : Way) (name : WrittenPath) :
    pathBelow base (way ++ [name]) = (pathBelow base way).child name := by
  simp [pathBelow, Path.child]

theorem kindOf_eq_other {target : WrittenPath} (hx : fs.get? loc = some (.link target))
    (hr : fs.resolve? (pathBelow base way).route = none) : kindOf fs base way loc = .other := by
  simp only [kindOf, hx, hr]

theorem listFiles_of_directory (hr : fs.resolve? base.route = some dir)
    (hd : fs.get? dir = some .directory) :
    listFiles fs base = listFrom fs base fs.depthBound [dir] [] dir := by
  simp only [listFiles, hr, isDirectory_iff.mpr ⟨dir, hr, hd⟩, if_true]

/-- A directory that the listing stands in: its path leads to it. -/
structure Entered (fs : FileSystem) (base : Path) (way : Way) (dir : Location) : Prop where
  resolve? : fs.resolve? (pathBelow base way).route = some dir
  directory : fs.get? dir = some .directory

/-- What is behind a name in the directory is found by the name, if it is no link. -/
theorem Entered.resolve?_child (h : Entered fs base way dir) (hbase : base.rooted = true)
    (hnamed : fs.IsNamed) {x : Entry} (hx : fs.get? (dir ++ [name]) = some x)
    (hl : ∀ target, x ≠ .link target)
    (hlong : (pathBelow base (way ++ [name])).route.isTooLong = false) :
    fs.resolve? (pathBelow base (way ++ [name])).route = some (dir ++ [name]) := by
  have hname := mem_allNames hx
  have hroot : (pathBelow base way).rooted = true := hbase
  rw [pathBelow_concat] at hlong ⊢
  have hok := refusal?_child hroot (resolve?_eq_some.mp h.resolve?).1 (hnamed.noNul name hname) hlong
  exact resolve?_child_of_get? h.resolve? h.directory hok (hnamed.short name hname) hx hl

/-- A directory that is met may be entered. -/
theorem Entered.enter (h : Entered fs base way dir) (hbase : base.rooted = true)
    (hnamed : fs.IsNamed) {target : Location}
    (hk : kindOf fs base (way ++ [name]) (dir ++ [name]) = .directory target)
    (hlong : (pathBelow base (way ++ [name])).route.isTooLong = false) :
    Entered fs base (way ++ [name]) target := by
  rcases kindOf_eq_directory.mp hk with ⟨hd, rfl⟩ | ⟨_, hr, hd⟩
  · exact ⟨h.resolve?_child hbase hnamed hd (by simp) hlong, hd⟩
  · exact ⟨hr, hd⟩

/-- A file that is met is a file by its path. -/
theorem Entered.isFile (h : Entered fs base way dir) (hbase : base.rooted = true)
    (hnamed : fs.IsNamed) (hk : kindOf fs base (way ++ [name]) (dir ++ [name]) = .file)
    (hlong : (pathBelow base (way ++ [name])).route.isTooLong = false) :
    fs.isFile (pathBelow base (way ++ [name])).route = true := by
  rcases kindOf_eq_file.mp hk with ⟨c, hc⟩ | ⟨_, e, hr, he⟩
  · exact isFile_iff.mpr ⟨_, h.resolve?_child hbase hnamed hc (by simp) hlong, c, hc⟩
  · exact isFile_iff.mpr ⟨e, hr, he⟩

/-- A way from a listed directory: at least one name of an entry, and a file at its end. -/
structure IsListed (fs : FileSystem) (base : Path) (way : Way) : Prop where
  nonempty : way ≠ []
  mem : ∀ name ∈ way, name ∈ fs.allNames
  isFile : (pathBelow base way).route.isTooLong = false → fs.isFile (pathBelow base way).route = true

/-- **What is listed below a directory** is a file behind it. -/
theorem of_mem_listFrom (hbase : base.rooted = true) (hnamed : fs.IsNamed) (depth : Nat) :
    ∀ passed way dir, Entered fs base way dir → (∀ name ∈ way, name ∈ fs.allNames) →
      ∀ found ∈ listFrom fs base depth passed way dir, IsListed fs base found := by
  induction depth with
  | zero => simp [listFrom]
  | succ depth ih =>
    intro passed way dir hentered hway found hfound
    rw [listFrom] at hfound
    obtain ⟨name, hname, hfound⟩ := List.mem_flatMap.mp hfound
    have hway' : ∀ other ∈ way ++ [name], other ∈ fs.allNames := by
      intro other hother
      rcases List.mem_append.mp hother with hother | hother
      · exact hway other hother
      · exact List.mem_singleton.mp hother ▸ mem_allNames_of_mem_namesIn hname
    cases hk : kindOf fs base (way ++ [name]) (dir ++ [name]) with
    | other => simp [hk] at hfound
    | file =>
      obtain rfl : found = way ++ [name] := by simpa [hk] using hfound
      exact ⟨by simp, hway', hentered.isFile hbase hnamed hk⟩
    | directory target =>
      simp only [hk] at hfound
      split at hfound
      · simp at hfound
      · next hcond =>
        rw [Bool.or_eq_true, not_or, Bool.not_eq_true, Bool.not_eq_true] at hcond
        exact ih _ _ _ (hentered.enter hbase hnamed hk hcond.2) hway' found hfound

/-- The listing of a directory begins in the directory. -/
theorem exists_entered_of_mem_listFiles (h : way ∈ listFiles fs base) :
    ∃ dir, Entered fs base [] dir ∧ way ∈ listFrom fs base fs.depthBound [dir] [] dir := by
  cases hdir : fs.isDirectory base.route with
  | false =>
    unfold listFiles at h
    cases hr : fs.resolve? base.route with
    | none => simp [hr] at h
    | some dir => simp [hr, hdir] at h
  | true =>
    obtain ⟨dir, hr, hd⟩ := isDirectory_iff.mp hdir
    have hpath : pathBelow base [] = base := by simp [pathBelow]
    rw [listFiles_of_directory hr hd] at h
    exact ⟨dir, ⟨by rw [hpath, hr], hd⟩, h⟩

/-- **What is listed is a file.** -/
theorem of_mem_listFiles (hbase : base.rooted = true) (hnamed : fs.IsNamed)
    (h : way ∈ listFiles fs base) : IsListed fs base way := by
  obtain ⟨dir, hentered, hfound⟩ := exists_entered_of_mem_listFiles h
  exact of_mem_listFrom hbase hnamed _ _ _ _ hentered (by simp) way hfound

end

/-! ## 2. The text of a selected file -/

section

variable {base : Path} {root file : String} {way : Way}

/-- A dot in front of a relative path changes nothing. -/
theorem resolve_marked (h : file.toList.head? ≠ some '/') :
    base.resolve (marked file) = base.resolve file := by
  unfold marked
  split
  · rfl
  · rw [WrittenPath.ofText_append]
    exact Path.resolve_dotSlash base (by rwa [ne_eq, WrittenPath.head?_ofText])

theorem head?_way (hnames : ∀ name ∈ way, Route.isName name = true) :
    (WrittenPath.joined way).toList.head? ≠ some (.char '/') :=
  Path.head?_joined fun name hmem =>
    ⟨(Route.isName_iff.mp (hnames name hmem)).1, Route.not_mem_of_isName (hnames name hmem)⟩

section

variable (hshown : ∀ name ∈ way, name.IsShown)
include hshown

/-- With names that are shown as themselves, a candidate is its root and the way. -/
theorem ofText_candidate : WrittenPath.ofText (candidate root way) =
    if root = "" then WrittenPath.joined way
    else WrittenPath.ofText root ++ "/" ++ WrittenPath.joined way := by
  have hway : WrittenPath.ofText (WrittenPath.withSlashes (.joined way)) = .joined way :=
    WrittenPath.isShown_joined hshown
  rw [candidate]
  split
  · exact hway
  · rw [WrittenPath.ofText_append, WrittenPath.ofText_append, hway]

variable (hnames : ∀ name ∈ way, Route.isName name = true)
include hnames

theorem head?_candidate (hroot : root.toList.head? ≠ some '/') :
    (candidate root way).toList.head? ≠ some '/' := by
  rw [ne_eq, ← WrittenPath.head?_ofText, ofText_candidate hshown]
  split
  · exact head?_way hnames
  · next hempty =>
    obtain ⟨c, cs, hcs⟩ := List.exists_cons_of_ne_nil fun h => hempty (String.toList_eq_nil_iff.mp h)
    simpa [hcs] using hroot

/-- **A candidate is resolved to where its way leads from its root.** -/
theorem resolve_candidate (hne : way ≠ []) :
    base.resolve (candidate root way) = pathBelow (base.resolve root) way := by
  have hway (p : Path) : p.enterAll (WrittenPath.joined way).pieces = pathBelow p way := by
    rw [WrittenPath.pieces_joined (fun name hmem => Route.not_mem_of_isName (hnames name hmem)) hne,
      Path.enterAll_of_isName hnames]
    rfl
  rw [ofText_candidate hshown]
  split
  · next hempty =>
    rw [hempty, Path.resolve_empty, Path.resolve_of_relative (head?_way hnames), hway]
  · next hempty =>
    have hroot : (WrittenPath.ofText root) ≠ "" := by rwa [ne_eq, WrittenPath.ofText_inj]
    rw [Path.resolve_append base hroot, hway]

end

end

/-! ## 3. The selected files -/

/-- A pattern that is not negated accepts the file at the end of a way from its root, and that is what
a text stands for. -/
structure Selects (fs : FileSystem) (base : Path) (patterns : List String) (root : String) (way : Way)
    (file : String) : Prop where
  accepted : ∃ pattern ∈ patterns, ∃ r, Rule.parse pattern = .ok r ∧ r.negated = false ∧
    r.root = root ∧ r.accepts (candidate root way) = true
  listed : way ∈ listFiles fs (base.resolve root)
  text : marked (candidate root way) = file

section

variable {fs : FileSystem} {base : Path} {patterns files : List String} {file : String}

theorem mem_addNew {selected new : List String} (h : file ∈ addNew selected new) :
    file ∈ selected ∨ file ∈ new := by
  induction new generalizing selected with
  | nil => exact .inl h
  | cons x xs ih =>
    rw [addNew, List.foldl_cons] at h
    rcases ih h with hs | hx
    · split at hs
      · exact .inl hs
      · rcases List.mem_append.mp hs with hs | hs
        · exact .inl hs
        · exact .inr (List.mem_singleton.mp hs ▸ List.mem_cons_self)
    · exact .inr (List.mem_cons_of_mem x hx)

/-- What rules leave selected was selected before or is a candidate that one of them adds. -/
theorem mem_foldl_apply {rs : List Rule} {selected : List String}
    (h : file ∈ rs.foldl (Rule.apply fs base) selected) : file ∈ selected ∨
      ∃ r ∈ rs, r.negated = false ∧ r.accepts file = true ∧ file ∈ candidates fs base r.root := by
  induction rs generalizing selected with
  | nil => exact .inl h
  | cons r rs ih =>
    rcases ih h with happly | ⟨r', hmem, hrest⟩
    · unfold Rule.apply at happly
      split at happly
      · exact .inl (List.mem_filter.mp happly).1
      · next hneg =>
        rcases mem_addNew happly with hs | hc
        · exact .inl hs
        · obtain ⟨hcand, haccepts⟩ := List.mem_filter.mp hc
          exact .inr ⟨r, List.mem_cons_self, by simpa using hneg, haccepts, hcand⟩
    · exact .inr ⟨r', List.mem_cons_of_mem r hmem, hrest⟩

/-- A first rule in front of the others, where both are there. -/
def consRule (first : Except ExpandError Rule) (others : Except ExpandError (List Rule)) :
    Except ExpandError (List Rule) :=
  match first with
  | .error e => .error e
  | .ok r =>
    match others with
    | .error e => .error e
    | .ok rs => .ok (r :: rs)

attribute [local irreducible] Rule.parse in
/-- Patterns are read one after the other, up to the first one that is refused. -/
theorem rules_cons (pattern : String) (patterns : List String) :
    rules (pattern :: patterns) = consRule (Rule.parse pattern) (rules patterns) := by
  delta rules
  rfl

theorem consRule_eq_ok {first : Except ExpandError Rule} {others : Except ExpandError (List Rule)}
    {rs : List Rule} (h : consRule first others = .ok rs) :
    ∃ r rest, first = .ok r ∧ others = .ok rest ∧ rs = r :: rest := by
  unfold consRule at h
  split at h
  · cases h
  · next r =>
    split at h
    · cases h
    · next rest => exact ⟨r, rest, rfl, rfl, (Except.ok.inj h).symm⟩

theorem of_mem_rules {rs : List Rule} (h : rules patterns = .ok rs) {r : Rule} (hr : r ∈ rs) :
    ∃ pattern ∈ patterns, Rule.parse pattern = .ok r := by
  induction patterns generalizing rs with
  | nil =>
    obtain rfl : [] = rs := Except.ok.inj h
    simp at hr
  | cons pattern patterns ih =>
    rw [rules_cons] at h
    obtain ⟨first, rest, hparse, hrest, rfl⟩ := consRule_eq_ok h
    rcases List.mem_cons.mp hr with rfl | hr
    · exact ⟨pattern, List.mem_cons_self, hparse⟩
    · obtain ⟨other, hother, hr⟩ := ih hrest hr
      exact ⟨other, List.mem_cons_of_mem pattern hother, hr⟩

theorem expand_eq_ok (h : (expand fs base patterns).toOption = some files) :
    expand fs base patterns = .ok files := by
  cases hexpand : expand fs base patterns with
  | error e => simp [hexpand, Except.toOption] at h
  | ok found =>
    rw [hexpand, Except.toOption] at h
    exact congrArg _ (Option.some.inj h)

theorem exists_selects (h : expand fs base patterns = .ok files) (hf : file ∈ files) :
    ∃ root way, Selects fs base patterns root way file := by
  unfold expand at h
  cases hrules : rules patterns with
  | error e => simp [hrules] at h
  | ok rs =>
    obtain rfl : (rs.foldl (Rule.apply fs base) []).map marked = files := by simpa [hrules] using h
    obtain ⟨cand, hcand, rfl⟩ := List.mem_map.mp hf
    rcases mem_foldl_apply hcand with hnil | ⟨r, hr, hneg, haccepts, hmem⟩
    · simp at hnil
    · obtain ⟨way, hway, rfl⟩ := List.mem_map.mp hmem
      obtain ⟨pattern, hpattern, hparse⟩ := of_mem_rules hrules hr
      exact ⟨r.root, way, ⟨pattern, hpattern, r, hparse, hneg, rfl, haccepts⟩, hway, rfl⟩

/-- **What patterns select are the files that they match.**  A selected text stands for files below the
roots of patterns, and it is resolved to each of them: with a root that starts at no slash, names
on the way that are shown as themselves, and a path that the system takes. -/
theorem isFile_of_mem_expand (hbase : base.IsPlain) (hnamed : fs.IsNamed)
    (h : expand fs base patterns = .ok files) (file : String) (hf : file ∈ files) :
    (∃ root way, Selects fs base patterns root way file) ∧
      ∀ root way, Selects fs base patterns root way file → root.toList.head? ≠ some '/' →
        (∀ name ∈ way, name.IsShown) →
        base.resolve file = pathBelow (base.resolve root) way ∧
          ((base.resolve file).route.isTooLong = false →
            fs.isFile (base.resolve file).route = true) := by
  refine ⟨exists_selects h hf, ?_⟩
  rintro root way ⟨_, hlisted, rfl⟩ hroot hshown
  have hway := of_mem_listFiles (hbase.resolve root).rooted hnamed hlisted
  have hnames : ∀ name ∈ way, Route.isName name = true :=
    fun name hmem => hnamed.isName name (hway.mem name hmem)
  have hpath : base.resolve (marked (candidate root way)) = pathBelow (base.resolve root) way := by
    rw [resolve_marked (head?_candidate hshown hnames hroot),
      resolve_candidate hshown hnames hway.nonempty]
  rw [hpath]
  exact ⟨rfl, hway.isFile⟩

end

/-- A project and, beside it, a directory with a file that is named from the project. -/
def besideTree : FileSystem where
  entries := [
    (["p"], .directory),
    (["p", "app.ts"], .file (.text "")),
    (["s"], .directory),
    (["s", "util.ts"], .file (.text ""))]
  workingDirectory := []
  isPlain := isPlain_nil

theorem isNamed_besideTree : besideTree.IsNamed :=
  ⟨by decide +kernel, by decide +kernel, by decide +kernel⟩

theorem isFile_of_mem_expand_beside :
    expand besideTree ⟨true, ["p"]⟩ ["./*.ts", "../s/*.ts"] = .ok ["./app.ts", "../s/util.ts"] ∧
      besideTree.isFile (Path.resolve ⟨true, ["p"]⟩ "../s/util.ts").route = true := by
  have hexpand : expand besideTree ⟨true, ["p"]⟩ ["./*.ts", "../s/*.ts"] =
      .ok ["./app.ts", "../s/util.ts"] := expand_eq_ok (by decide +kernel)
  have hselects : Selects besideTree ⟨true, ["p"]⟩ ["./*.ts", "../s/*.ts"] "../s" ["util.ts"]
      "../s/util.ts" := by
    refine ⟨⟨"../s/*.ts", by simp, ⟨false, "../s", _⟩, rfl, rfl, rfl, ?_⟩, ?_, ?_⟩
    · decide +kernel
    · decide +kernel
    · decide +kernel
  have hfile := (isFile_of_mem_expand ⟨rfl, by simp [Path.HasNames, Route.isName]⟩ isNamed_besideTree hexpand "../s/util.ts"
    (by simp)).2 "../s" ["util.ts"] hselects (by decide) (by decide)
  exact ⟨hexpand, hfile.2 (by decide +kernel)⟩

/-- A tree with one file, which has a backslash in its name. -/
def backslashTree : FileSystem where
  entries := [(["a\\b.ts"], .file (.text ""))]
  workingDirectory := []
  isPlain := isPlain_nil

/-- A tree with one file, whose name starts with a byte that is no text. -/
def strayTree : FileSystem where
  entries := [([.strayName 0xFF ".ts"], .file (.text ""))]
  workingDirectory := []
  isPlain := isPlain_nil

/-- A link that leads to where it lies, and a file beside it whose name is 15 bytes long. -/
def turnedFile : FileSystem where
  entries := [([longName], .link "."), (["fifteenbytes.ts"], .file (.text ""))]
  workingDirectory := []
  isPlain := isPlain_nil

theorem isNamed_turnedFile : turnedFile.IsNamed := by
  have hmem {name : WrittenPath} (h : name ∈ turnedFile.allNames) :
      name ∈ longPath.names ∨ name = "fifteenbytes.ts" := by
    have hnames : turnedFile.allNames = [longName, "fifteenbytes.ts"] := rfl
    rw [hnames] at h
    rcases List.mem_cons.mp h with rfl | h
    · exact .inl (List.mem_replicate.mpr ⟨by decide, rfl⟩)
    · exact .inr (List.mem_singleton.mp h)
  constructor
  · intro name h
    rcases hmem h with h | rfl
    · exact isPlain_longPath.isName name h
    · decide
  · intro name h
    rcases hmem h with h | rfl
    · exact not_mem_longPath (by decide) h
    · decide
  · intro name h
    rcases hmem h with h | rfl
    · rw [List.eq_of_mem_replicate h, size_longName]
      decide
    · decide

theorem resolve?_turnedFile : turnedFile.resolve? longPath.route = some [] := by
  refine resolve?_longPath_of_link ?_
  rw [get?, if_neg (by simp), turnedFile, entryAt, if_pos rfl]

/-- Nothing is found by a path that is too long. -/
theorem resolve?_of_isTooLong {fs : FileSystem} {r : Route} (h : r.isTooLong = true) :
    fs.resolve? r = none := by
  cases hr : fs.resolve? r with
  | none => rfl
  | some e =>
    have hok := (refusal?_iff.mp (resolve?_eq_some.mp hr).1).2.1
    simp [h] at hok

theorem listFiles_turnedFile : listFiles turnedFile longPath = [[.ofText "fifteenbytes.ts"]] := by
  obtain ⟨depth, hdepth⟩ : ∃ depth, turnedFile.depthBound = depth + 1 := ⟨81, by decide +kernel⟩
  have hnames : turnedFile.namesIn [] = [.ofText "fifteenbytes.ts", longName] := by decide +kernel
  have hfile : kindOf turnedFile longPath ["fifteenbytes.ts"] ["fifteenbytes.ts"] = .file := by
    have hne : [longName] ≠ [.ofText "fifteenbytes.ts"] := by
      intro h
      have hlength := size_longName
      rw [(List.cons.inj h).1] at hlength
      exact absurd hlength (by decide)
    refine kindOf_eq_file.mpr (.inl ⟨.text "", ?_⟩)
    rw [get?, if_neg (by simp), turnedFile, entryAt, if_neg hne]
    rfl
  have hlink : kindOf turnedFile longPath [longName] [longName] = .other := by
    have hget : turnedFile.get? [longName] = some (.link ".") := by
      rw [get?, if_neg (by simp), turnedFile, entryAt, if_pos rfl]
    have hlong : (pathBelow longPath [longName]).route.isTooLong = true := by
      have hpath : pathBelow longPath [longName] = longPath.child longName := rfl
      rw [hpath, Route.isTooLong, size_longPath_child, size_longName]
      decide
    exact kindOf_eq_other hget (resolve?_of_isTooLong hlong)
  rw [listFiles_of_directory resolve?_turnedFile rfl, hdepth, listFrom, hnames]
  simp only [List.flatMap_cons, List.flatMap_nil, List.nil_append, hfile, hlink, List.append_nil]

/-- Four ways in which a selected file is none: with a slash for a backslash its path is another one, and
so it is where it is shown without bytes that are no text; with a dot in front of its root it lies below
the base, and below a long path its path may be too long. -/
theorem expand_misnames :
    (backslashTree.IsNamed ∧ expand backslashTree Path.root ["**/*.ts"] = .ok ["./a/b.ts"] ∧
      backslashTree.isFile (Path.root.resolve "./a/b.ts").route = false) ∧
    (strayTree.IsNamed ∧ expand strayTree Path.root ["**/*.ts"] = .ok ["./\uFFFD.ts"] ∧
      strayTree.isFile (Path.root.resolve "./\uFFFD.ts").route = false) ∧
    (besideTree.IsNamed ∧ expand besideTree ⟨true, ["p"]⟩ ["/s/*.ts"] = .ok [".//s/util.ts"] ∧
      besideTree.isFile (Path.resolve ⟨true, ["p"]⟩ ".//s/util.ts").route = false) ∧
    turnedFile.IsNamed ∧ longPath.IsPlain ∧
      expand turnedFile longPath ["*.ts"] = .ok ["./fifteenbytes.ts"] ∧
      turnedFile.isFile (longPath.resolve "./fifteenbytes.ts").route = false := by
  refine ⟨⟨⟨by decide +kernel, by decide +kernel, by decide +kernel⟩,
    expand_eq_ok (by decide +kernel), by decide +kernel⟩,
    ⟨⟨by decide +kernel, by decide +kernel, by decide +kernel⟩,
    expand_eq_ok (by decide +kernel), by decide +kernel⟩,
    ⟨isNamed_besideTree, expand_eq_ok (by decide +kernel), by decide +kernel⟩,
    isNamed_turnedFile, isPlain_longPath, ?_, ?_⟩
  · obtain ⟨tokens, hrule, haccepts⟩ : ∃ tokens, rules ["*.ts"] = .ok [⟨false, "", tokens⟩] ∧
        accepts tokens "fifteenbytes.ts" = true := ⟨_, rfl, by decide +kernel⟩
    have hroot : longPath.resolve "" = longPath := rfl
    have hcandidate : candidate "" ["fifteenbytes.ts"] = "fifteenbytes.ts" := by decide
    have happly : Rule.apply turnedFile longPath [] ⟨false, "", tokens⟩ = ["fifteenbytes.ts"] := by
      simp [Rule.apply, candidates, hroot, listFiles_turnedFile, hcandidate, Rule.accepts, haccepts,
        addNew]
    rw [expand, hrule]
    simp only [List.foldl_cons, List.foldl_nil, happly]
    rfl
  · have hpath : longPath.resolve "./fifteenbytes.ts" = longPath.child "fifteenbytes.ts" := rfl
    have hlong : (longPath.child "fifteenbytes.ts").route.isTooLong = true := by
      rw [Route.isTooLong, size_longPath_child]
      decide
    rw [hpath, Bool.eq_false_iff]
    intro hfile
    obtain ⟨e, he, _⟩ := isFile_iff.mp hfile
    simp [resolve?_of_isTooLong hlong] at he

end Tsconfig.Glob
