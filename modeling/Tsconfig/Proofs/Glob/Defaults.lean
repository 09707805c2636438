/-
# What the default patterns select

The default patterns take the TypeScript files below the base directory and leave out those of its own
`node_modules`.  `**/*` in front of an ending is anything at all: `**/` takes everything up to some slash,
and `*` what is left without one (`leaves_anywhere`).  So the first pattern accepts the texts that end in
`.ts` (`accepts_scriptsRule`), and the second one those that begin with `node_modules/` and have that ending
behind it (`accepts_modulesRule`).

What the second pattern takes away need not be added by the first one (`filter_addNew`), so both together
add what the one accepts and the other does not.  **The default patterns select, in the order of the walk,
the files whose path ends in `.ts` and does not begin with `node_modules/`** (`expand_default`), each text
once: files that are shown alike are selected as one (`expand_default_misread`).
-/
import Tsconfig.Proofs.Dependency.BreadthFirst
import Tsconfig.Proofs.Glob.Matching
import Tsconfig.Proofs.Glob.Walk

namespace Tsconfig.Glob

open FileSystem

/-! ## 1. Any directories and a name with an ending -/

section

variable {p : Pattern} {s rest : List UInt8} {ending : List Char} {text : String}

/-- `**/*` in front leaves every end of a text. -/
theorem leaves_anywhere :
    Leaves (.treeStart :: .star :: p) s rest ↔ ∃ m, m <:+ s ∧ Leaves p m rest := by
  simp only [leaves_cons, Token.rests, ← exists_mem_afterNames]
  constructor
  · rintro ⟨m, hm, m', hm', hp⟩
    exact ⟨m', ⟨m, hm, hm'⟩, hp⟩
  · rintro ⟨m', ⟨m, hm, hm'⟩, hp⟩
    exact ⟨m, hm, m', hm', hp⟩

/-- `/**/*` leaves every end of what is behind a slash. -/
theorem leaves_anywhere_below : Leaves (.tree :: .star :: p) s rest ↔
    ∃ s', s = slash :: s' ∧ ∃ m, m <:+ s' ∧ Leaves p m rest := by
  simp only [leaves_cons, Token.rests, List.mem_flatMap, mem_afterBytes, ← exists_mem_afterNames]
  constructor
  · rintro ⟨m, ⟨s', hs, hm⟩, m', hm', hp⟩
    exact ⟨s', hs, m', ⟨m, hm, hm'⟩, hp⟩
  · rintro ⟨s', hs, m', ⟨m, hm, hm'⟩, hp⟩
    exact ⟨m, ⟨s', hs, hm⟩, m', hm', hp⟩

theorem exists_leaves_ending :
    (∃ m, m <:+ s ∧ Leaves (ending.map .literal) m []) ↔ ending.flatMap bytesOf <:+ s := by
  simp [leaves_literals]

/-- The ending of a TypeScript file. -/
def scriptEnding : List Char := ".ts".toList

theorem suffix_scriptEnding {cs : List Char} :
    scriptEnding.flatMap bytesOf <:+ cs.flatMap bytesOf ↔ scriptEnding <:+ cs :=
  suffix_flatMap_bytesOf (c := '.') (b := 46) (by decide) (by decide)

/-- The default pattern that selects files. -/
def scriptsRule : Rule := ⟨false, "", .treeStart :: .star :: scriptEnding.map .literal⟩

/-- **The first default pattern accepts what ends as a TypeScript file.** -/
theorem accepts_scriptsRule : scriptsRule.accepts text = true ↔ scriptEnding <:+ text.toList := by
  rw [scriptsRule, Rule.accepts, accepts_iff, leaves_anywhere, exists_leaves_ending, textBytes,
    suffix_scriptEnding]
  exact or_iff_right (by decide)

/-- The directory of other packages. -/
def modulesName : List Char := "node_modules".toList

/-- The default pattern that takes files away. -/
def modulesRule : Rule :=
  ⟨true, "node_modules", modulesName.map .literal ++ .tree :: .star :: scriptEnding.map .literal⟩

/-- **The second default pattern accepts what ends so behind the directory of other packages.** -/
theorem accepts_modulesRule : modulesRule.accepts text = true ↔
    ∃ back, text.toList = modulesName ++ '/' :: back ∧ scriptEnding <:+ back := by
  rw [modulesRule, Rule.accepts, accepts_iff, or_iff_right (by decide), leaves_append]
  simp only [leaves_anywhere_below, exists_leaves_ending]
  simp only [leaves_literals]
  constructor
  · rintro ⟨_, htext, s', rfl, hending⟩
    obtain ⟨back, hback, rfl⟩ := exists_eq_append_slash htext
    exact ⟨back, hback, suffix_scriptEnding.mp hending⟩
  · rintro ⟨back, htext, hending⟩
    refine ⟨_, ?_, back.flatMap bytesOf, rfl, suffix_scriptEnding.mpr hending⟩
    rw [textBytes, htext, List.flatMap_append, List.flatMap_cons, bytesOf_slash, List.singleton_append]

/-- An ending without a slash does not reach over one. -/
theorem suffix_of_suffix_append_cons {cs back : List Char} (hslash : '/' ∉ ending)
    (h : ending <:+ cs ++ '/' :: back) : ending <:+ back := by
  have hback : back <:+ cs ++ '/' :: back := ⟨cs ++ ['/'], by simp⟩
  rcases List.suffix_or_suffix_of_suffix h hback with h | ⟨w, rfl⟩
  · exact h
  · -- What the ending has in front of `back` would end in the slash.
    rcases List.eq_nil_or_concat w with rfl | ⟨w', c, rfl⟩
    · exact List.suffix_refl back
    · obtain ⟨u, hu⟩ := h
      have hfront : ((u ++ w') ++ [c]) ++ back = (cs ++ ['/']) ++ back := by simpa using hu
      have hlast := (List.append_inj' (List.append_cancel_right hfront) rfl).2
      have hc : c = '/' := (List.cons.inj hlast).1
      simp [hc] at hslash

end

/-! ## 2. The default rules -/

theorem rules_defaultPatterns : rules defaultPatterns = .ok [scriptsRule, modulesRule] := rfl

/-- Whether a file belongs to a project by default: it is a TypeScript file, and not one of the packages that
the project uses. -/
def isProjectFile (file : String) : Bool :=
  ".ts".toList.isSuffixOf file.toList && !"node_modules/".toList.isPrefixOf file.toList

/-- The files of a project by default, in the order in which the walk of its directory finds them. -/
def projectFiles (fs : FileSystem) (base : Path) : List String :=
  ((listFiles fs base).map fun way => (WrittenPath.joined way).shown).filter isProjectFile

/-- **The default rules keep the files that belong to a project.** -/
theorem isProjectFile_eq (file : String) :
    isProjectFile file = (scriptsRule.accepts file && !modulesRule.accepts file) := by
  have hscripts : ".ts".toList.isSuffixOf file.toList = scriptsRule.accepts file := by
    rw [Bool.eq_iff_iff, List.isSuffixOf_iff_suffix, accepts_scriptsRule, scriptEnding]
  rw [isProjectFile, hscripts]
  cases hfile : scriptsRule.accepts file with
  | false => rw [Bool.false_and, Bool.false_and]
  | true =>
    have hending : scriptEnding <:+ file.toList := accepts_scriptsRule.mp hfile
    have hfront : "node_modules/".toList = modulesName ++ ['/'] := by decide
    have hmodules : "node_modules/".toList.isPrefixOf file.toList = modulesRule.accepts file := by
      rw [Bool.eq_iff_iff, List.isPrefixOf_iff_prefix, hfront, accepts_modulesRule]
      constructor
      · rintro ⟨back, hback⟩
        rw [← hback, List.append_assoc] at hending
        exact ⟨back, by simp [← hback], suffix_of_suffix_append_cons (by decide) hending⟩
      · rintro ⟨back, hback, -⟩
        exact ⟨back, by simp [hback]⟩
    rw [hmodules]

/-! ## 3. The selected files -/

section

variable {fs : FileSystem} {base : Path}

/-- What is added is what is not there yet, each item once. -/
theorem addNew_eq (selected new : List String) :
    addNew selected new = selected ++ Dependency.unseen id selected new := by
  induction new generalizing selected with
  | nil => simp [addNew, Dependency.unseen]
  | cons x xs ih =>
    rw [Dependency.unseen]
    split
    · next hx =>
      rw [id] at hx
      have hadd : addNew selected (x :: xs) = addNew selected xs := by simp [addNew, hx]
      rw [hadd, ih]
    · next hx =>
      rw [id] at hx
      have hadd : addNew selected (x :: xs) = addNew (selected ++ [x]) xs := by simp [addNew, hx]
      have hseen : ∀ y, y ∈ selected ++ [x] ↔ y ∈ id x :: selected := by simp [or_comm]
      rw [hadd, ih, Dependency.unseen_congr hseen, List.append_assoc, List.singleton_append]

theorem addNew_nil (new : List String) : addNew [] new = new.eraseDups := by
  simp [addNew_eq, Dependency.unseen_id]

/-- What is taken away behind need not be added in front. -/
theorem filter_addNew (p : String → Bool) (selected new : List String) :
    (addNew selected new).filter p = addNew (selected.filter p) (new.filter p) := by
  induction new generalizing selected with
  | nil => rfl
  | cons x xs ih =>
    rw [addNew, List.foldl_cons, ← addNew, ih]
    by_cases hp : p x = true
    · rw [List.filter_cons_of_pos hp]
      by_cases hx : x ∈ selected
      · simp [addNew, hx, hp]
      · simp [addNew, hx, hp]
    · rw [List.filter_cons_of_neg hp]
      by_cases hx : x ∈ selected
      · simp [hx]
      · simp [hx, hp]

theorem eraseDups_of_nodup {l : List String} (h : l.Nodup) : l.eraseDups = l := by
  induction l with
  | nil => rfl
  | cons x xs ih =>
    obtain ⟨hx, hxs⟩ := List.nodup_cons.mp h
    have hkept : (xs.filter fun y => !y == x) = xs := by
      refine List.filter_eq_self.mpr fun y hy => ?_
      have hne : y ≠ x := ne_of_mem_of_not_mem hy hx
      simp [hne]
    rw [List.eraseDups_cons, hkept, ih hxs]

/-- Ways of names that are text are told by what is shown of them. -/
theorem nodup_map_way {ways : List Way} (hways : ways.Nodup)
    (hnames : ∀ way ∈ ways, way ≠ [] ∧ ∀ name ∈ way, Route.isName name = true)
    (htext : ∀ way ∈ ways, ∀ name ∈ way, name.IsText) :
    (ways.map fun way => (WrittenPath.joined way).shown).Nodup := by
  have hpieces {way : Way} (h : way ∈ ways) : (WrittenPath.joined way).pieces = way :=
    WrittenPath.pieces_joined (fun name hname => Route.not_mem_of_isName ((hnames way h).2 name hname))
      (hnames way h).1
  refine hways.map_on fun way hway way' hway' heq => ?_
  have hsame := (WrittenPath.shown_inj (WrittenPath.isText_joined (htext way hway))
    (WrittenPath.isText_joined (htext way' hway'))).mp heq
  rw [← hpieces hway, hsame, hpieces hway']

/-- A path of names does not lead upwards. -/
theorem marked_way {way : Way} (hne : way ≠ []) (hnames : ∀ name ∈ way, Route.isName name = true) :
    marked (WrittenPath.joined way).shown = "./" ++ (WrittenPath.joined way).shown := by
  unfold marked
  split
  · next hup =>
    obtain ⟨back, hback⟩ := List.isPrefixOf_iff_prefix.mp hup
    have htext : (WrittenPath.joined way).shown = ".." ++ "/" ++ String.ofList back := by
      rw [← String.toList_inj, ← hback]
      simp
    have hshown : ∀ name ∈ way.map fun name => .ofText name.shown, Route.isName name = true := by
      intro text hmem
      obtain ⟨name, hname, rfl⟩ := List.mem_map.mp hmem
      rw [WrittenPath.isName_shown]
      exact hnames name hname
    have hpieces := WrittenPath.pieces_joined
      (fun name hname => Route.not_mem_of_isName (hshown name hname)) (by simpa using hne)
    rw [← WrittenPath.ofText_shown_joined, htext, WrittenPath.ofText_append, WrittenPath.ofText_append,
      WrittenPath.pieces_append_slash] at hpieces
    have hdots : WrittenPath.ofText ".." ∈ way.map fun name => .ofText name.shown :=
      hpieces ▸ List.mem_append_left _ (by decide)
    exact absurd (hshown _ hdots) (by decide)
  · rfl

variable (hbase : base.rooted = true) (hnamed : fs.IsNamed)
include hbase hnamed

/-- The walk finds files behind one name or more. -/
theorem isName_of_mem_listFiles {way : Way} (h : way ∈ listFiles fs base) :
    way ≠ [] ∧ ∀ name ∈ way, Route.isName name = true := by
  have hlisted := of_mem_listFiles hbase hnamed h
  exact ⟨hlisted.nonempty, fun name hname => hnamed.isName name (hlisted.mem name hname)⟩

/-- **The default patterns select the files of a project**, if no name on the ways below the base directory
holds a backslash: in the order of the walk, the files whose path ends in `.ts` and does not begin with
`node_modules/`.  Each text is selected once; where each location has one entry and the names are text, each
file has a text of its own. -/
theorem expand_default (hslash : ∀ way ∈ listFiles fs base, ∀ name ∈ way, .char '\\' ∉ name.toList) :
    expand fs base defaultPatterns = .ok ((projectFiles fs base).eraseDups.map ("./" ++ ·)) ∧
      ((fs.entries.map Prod.fst).Nodup → (∀ way ∈ listFiles fs base, ∀ name ∈ way, name.IsText) →
        (projectFiles fs base).eraseDups = projectFiles fs base) := by
  have hcandidates : candidates fs base "" =
      (listFiles fs base).map fun way => (WrittenPath.joined way).shown := by
    rw [candidates, Path.resolve_empty]
    refine List.map_congr_left fun way hmem => ?_
    rw [candidate, if_pos rfl,
      WrittenPath.withSlashes_of_not_mem (WrittenPath.not_mem_joined (by decide) (hslash way hmem))]
  have hadd : Rule.apply fs base [] scriptsRule =
      addNew [] ((candidates fs base "").filter scriptsRule.accepts) := rfl
  have htake (selected : List String) : Rule.apply fs base selected modulesRule =
      selected.filter fun file => !modulesRule.accepts file := rfl
  have hproject : (fun file => !modulesRule.accepts file && scriptsRule.accepts file) = isProjectFile := by
    funext file
    rw [isProjectFile_eq, Bool.and_comm]
  constructor
  · simp only [expand, rules_defaultPatterns, List.foldl_cons, List.foldl_nil, hadd, htake]
    rw [filter_addNew, List.filter_filter, hproject, hcandidates, ← projectFiles, List.filter_nil,
      addNew_nil]
    refine congrArg Except.ok (List.map_congr_left fun file hfile => ?_)
    obtain ⟨hwalked, -⟩ := List.mem_filter.mp (List.mem_eraseDups.mp hfile)
    obtain ⟨way, hmem, rfl⟩ := List.mem_map.mp hwalked
    obtain ⟨hne, hnames⟩ := isName_of_mem_listFiles hbase hnamed hmem
    exact marked_way hne hnames
  · intro hunique htext
    refine eraseDups_of_nodup ((nodup_map_way (nodup_listFiles hunique base) ?_ htext).filter _)
    exact fun way hway => isName_of_mem_listFiles hbase hnamed hway

end

/-- A project with hidden files, a file that is named by its ending alone, names that only begin like the
directory of other packages, such a directory further down, and files that are none of the project. -/
def projectTree : FileSystem where
  entries := [
    (["node_modules"], .directory),
    (["node_modules", "dep.ts"], .file (.text "")),
    (["node_modules.ts"], .file (.text "")),
    (["lib"], .directory),
    (["lib", "node_modules"], .directory),
    (["lib", "node_modules", "x.ts"], .file (.text "")),
    (["lib", ".ts"], .file (.text "")),
    (["lib", "y.tsx"], .file (.text "")),
    ([".hidden"], .directory),
    ([".hidden", "a.ts"], .file (.text ""))]
  workingDirectory := []
  isPlain := isPlain_nil

theorem expand_default_projectTree : expand projectTree Path.root defaultPatterns =
    .ok ["./.hidden/a.ts", "./lib/.ts", "./lib/node_modules/x.ts", "./node_modules.ts"] := by
  have hnamed : projectTree.IsNamed := ⟨by decide +kernel, by decide +kernel, by decide +kernel⟩
  have hfiles : (projectFiles projectTree Path.root).map ("./" ++ ·) =
      ["./.hidden/a.ts", "./lib/.ts", "./lib/node_modules/x.ts", "./node_modules.ts"] := by
    decide +kernel
  have hslash : ∀ way ∈ listFiles projectTree Path.root, ∀ name ∈ way, .char '\\' ∉ name.toList := by
    decide +kernel
  have htext : ∀ way ∈ listFiles projectTree Path.root, ∀ name ∈ way, name.IsText := by decide +kernel
  obtain ⟨hselected, honce⟩ := expand_default rfl hnamed hslash
  rw [hselected, honce (by decide) htext, hfiles]

/-- Two files whose names differ in a byte that is no text. -/
def twinTree : FileSystem where
  entries := [([.strayName 0xFE ".ts"], .file (.text "")), ([.strayName 0xFF ".ts"], .file (.text ""))]
  workingDirectory := []
  isPlain := isPlain_nil

/-- A link to a directory beside a file. -/
def crossedTree : FileSystem where
  entries := [
    (["d"], .directory),
    (["d", "e"], .directory),
    (["d", "x.ts"], .file (.text "")),
    (["l"], .link "d/e")]
  workingDirectory := []
  isPlain := isPlain_nil

/-- Two ways in which the default patterns do not select the files of a project: two files that are shown
alike are selected as one, and a base directory that leads back over a link is taken for the one that the
text leads to. -/
theorem expand_default_misread :
    (twinTree.IsNamed ∧ listFiles twinTree Path.root = [[.strayName 0xFE ".ts"], [.strayName 0xFF ".ts"]] ∧
      expand twinTree Path.root defaultPatterns = .ok ["./\uFFFD.ts"]) ∧
    (crossedTree.IsNamed ∧ crossedTree.resolve? (Route.parse "/l/..") = some [.ofText "d"] ∧
      projectFiles crossedTree ⟨true, ["d"]⟩ = ["x.ts"] ∧
      expand crossedTree (Path.ofText "/l/..") defaultPatterns = .ok ["./d/x.ts"]) := by
  have htwin : twinTree.IsNamed := ⟨by decide +kernel, by decide +kernel, by decide +kernel⟩
  have hcrossed : crossedTree.IsNamed := ⟨by decide +kernel, by decide +kernel, by decide +kernel⟩
  exact ⟨⟨htwin, by decide +kernel, expand_eq_ok (by decide +kernel)⟩,
    hcrossed, by decide +kernel, by decide +kernel, expand_eq_ok (by decide +kernel)⟩

end Tsconfig.Glob
