/-
# Walking from the literal root

A plain pattern looks only below its literal root, and that loses nothing.  What the pattern accepts begins
with the root and a slash (`exists_eq_root_append`, `exists_of_accepts`).  Cut at its slashes, the text of a
file is made of what backslashes leave of the names on the way to it (`pieces_candidate`).  Where the first
names are shown as themselves the way goes through the directory that the root names
(`exists_eq_root_pieces`).  What the walk of the base finds
behind that directory, the walk of the directory finds as well.  So **every file of the base whose path a
pattern accepts is selected by the pattern** (`expand_of_accepts`).

Backslashes break this on both sides.  In the pattern one is an escape, which the root keeps and the tokens do
not; in a name one becomes a slash, so that the pieces of the text are not the names of the way.  Nor are they
where bytes are shown that are no text (`expand_misses`).
-/
import Tsconfig.Proofs.Glob.Deciding
import Tsconfig.Proofs.Glob.Reading
import Tsconfig.Proofs.Glob.Walk

namespace Tsconfig.Glob

open FileSystem

/-! ## 1. The literal root of a pattern -/

section

variable {pattern body : String} {r : Rule}

theorem of_rule (h : Rule.parse pattern = .ok r) :
    parse (bodyOf pattern) = .ok r.pattern ∧ r.root = fixedRoot (bodyOf pattern) := by
  unfold Rule.parse at h
  simp only at h
  split at h
  · cases h
  · next tokens hparse =>
    rw [← Except.ok.inj h]
    simp only [hparse, and_self]

/-- The root is made of the first pieces of a pattern, and pieces are left behind it. -/
theorem exists_pieces_of_root (body : String) : ∃ pieces rest, rest ≠ [] ∧
    Text.splitAt '/' body = pieces ++ rest ∧ fixedRoot body = Text.joinWith "/" pieces ∧
      ∀ piece ∈ pieces, isGlobPiece piece = false := by
  have hne := Text.splitAt_ne_nil '/' body
  obtain ⟨last, hlast⟩ : ∃ last, Text.splitAt '/' body = (Text.splitAt '/' body).dropLast ++ [last] :=
    ⟨_, (List.dropLast_append_getLast hne).symm⟩
  refine ⟨_, ((Text.splitAt '/' body).dropLast.dropWhile fun p => !isGlobPiece p) ++ [last], by simp,
    ?_, rfl, ?_⟩
  · rw [← List.append_assoc, List.takeWhile_append_dropWhile]
    exact hlast
  · intro piece hmem
    simpa using List.all_eq_true.mp List.all_takeWhile piece hmem

/-- **Behind the root of a pattern is a slash**, and no character of the root is a glob character, unless it
is an escape. -/
theorem exists_eq_root_append (hne : fixedRoot body ≠ "") :
    (∃ back, body.toList = (fixedRoot body).toList ++ '/' :: back) ∧
      ∀ c ∈ (fixedRoot body).toList, c ≠ '\\' → isFixed c = true := by
  obtain ⟨pieces, rest, hrest, hsplit, hroot, hglob⟩ := exists_pieces_of_root body
  have hpieces : pieces ≠ [] := by
    rintro rfl
    exact hne hroot
  constructor
  · refine ⟨(Text.joinWith "/" rest).toList, ?_⟩
    have hbody := congrArg String.toList (Text.joinWith_splitAt body)
    rw [hsplit, Text.joinWith_append hpieces hrest, ← hroot] at hbody
    simpa using hbody.symm
  · intro c hc hescape
    have hnot {g : Char} (hg : g = '*' ∨ g = '?' ∨ g = '[' ∨ g = '\x7b') : c ≠ g := by
      rintro rfl
      rw [hroot] at hc
      refine Text.not_mem_joinWith ?_ ?_ hc
      · rcases hg with rfl | rfl | rfl | rfl <;> decide
      · intro piece hmem hpiece
        have hnone := List.any_eq_false.mp (hglob piece hmem) c hpiece
        simp only [Bool.or_eq_true, decide_eq_true_eq, or_assoc] at hnone
        exact hnone hg
    simp [isFixed, hnot, hescape]

end

/-! ## 2. The names of a way and the pieces of its text -/

section

variable {way below : Way} {pieces rest : List WrittenPath} {root : String}

/-- Names that are shown as themselves are pieces of the text of the way. -/
theorem exists_eq_pieces_append (hsplit : way.flatMap WrittenPath.parts = pieces ++ rest)
    (hrest : rest ≠ []) (hshown : ∀ name ∈ way.take pieces.length, name.IsShown) :
    ∃ below, below ≠ [] ∧ way = pieces ++ below := by
  induction pieces generalizing way with
  | nil =>
    refine ⟨way, ?_, rfl⟩
    rintro rfl
    exact hrest hsplit.symm
  | cons piece pieces ih =>
    cases way with
    | nil => cases hsplit
    | cons name names =>
      rw [List.length_cons, List.take_succ_cons] at hshown
      rw [List.flatMap_cons, WrittenPath.parts_of_isShown (hshown name List.mem_cons_self)] at hsplit
      obtain ⟨rfl, htail⟩ : name = piece ∧ names.flatMap WrittenPath.parts = pieces ++ rest := by
        simpa using hsplit
      obtain ⟨below, hbelow, rfl⟩ :=
        ih htail fun other hmem => hshown other (List.mem_cons_of_mem name hmem)
      exact ⟨below, hbelow, rfl⟩

/-- The text of a way is made of what backslashes leave of its names, as they are shown. -/
theorem pieces_candidate (hne : way ≠ []) (hnames : ∀ name ∈ way, Route.isName name = true) :
    (WrittenPath.ofText (candidate "" way)).pieces = way.flatMap WrittenPath.parts := by
  rw [candidate, if_pos rfl, WrittenPath.ofText_withSlashes_joined]
  refine WrittenPath.pieces_joined ?_ ?_
  · intro piece hmem
    obtain ⟨name, hname, hpiece⟩ := List.mem_flatMap.mp hmem
    exact WrittenPath.not_mem_of_mem_parts hpiece (Route.not_mem_of_isName (hnames name hname))
  · obtain ⟨name, names, rfl⟩ := List.exists_cons_of_ne_nil hne
    simp [WrittenPath.parts_ne_nil]

/-- A file has the same text from the base and from a root on its way. -/
theorem candidate_append (hroot : root ≠ "") (hslash : '\\' ∉ root.toList) (hbelow : below ≠ []) :
    candidate "" (WrittenPath.pieces root ++ below) = candidate root below := by
  have hself : WrittenPath.withSlashes root = root := by
    rw [WrittenPath.withSlashes_of_not_mem (by simpa using hslash), WrittenPath.shown_ofText]
  have hfront : WrittenPath.withSlashes "/" = "/" := by decide
  rw [candidate, if_pos rfl, candidate, if_neg hroot,
    WrittenPath.joined_append (WrittenPath.pieces_ne_nil _) hbelow, WrittenPath.joined_pieces_ofText,
    WrittenPath.withSlashes_append, WrittenPath.withSlashes_append, hself, hfront]

end

/-! ## 3. What is found from the root -/

section

variable {fs : FileSystem} {base : Path} {pattern : String} {r : Rule} {way : Way}

theorem expand_singleton (hparse : Rule.parse pattern = .ok r) :
    expand fs base [pattern] = .ok ((Rule.apply fs base [] r).map marked) := by
  have hrules : rules [pattern] = .ok [r] := by
    rw [rules_cons, hparse]
    rfl
  simp only [expand, hrules, List.foldl_cons, List.foldl_nil]

/-- What a plain rule accepts of the candidates of its root is selected. -/
theorem mem_apply (hplain : r.negated = false) {c : String} (hc : c ∈ candidates fs base r.root)
    (haccepts : r.accepts c = true) (selected : List String) : c ∈ Rule.apply fs base selected r := by
  obtain ⟨fresh, heq, hmem, -⟩ :=
    exists_addNew_eq selected ((candidates fs base r.root).filter r.accepts)
  rw [Rule.apply, hplain, if_neg (by decide), heq, List.mem_append, hmem, List.mem_filter]
  by_cases h : c ∈ selected
  · exact Or.inl h
  · exact Or.inr ⟨⟨hc, haccepts⟩, h⟩

/-- The way to a file that a pattern accepts goes through the root of the pattern. -/
theorem exists_eq_root_pieces (hparse : Rule.parse pattern = .ok r) (hroot : r.root ≠ "")
    (hfixed : '\\' ∉ r.root.toList) (hne : way ≠ [])
    (hnames : ∀ name ∈ way, Route.isName name = true)
    (hshown : ∀ name ∈ way.take (WrittenPath.pieces r.root).length, name.IsShown)
    (haccepts : r.accepts (candidate "" way) = true) :
    ∃ below, below ≠ [] ∧ way = WrittenPath.pieces r.root ++ below := by
  obtain ⟨htokens, hroot_eq⟩ := of_rule hparse
  rw [hroot_eq] at hroot hfixed
  obtain ⟨⟨back, hback⟩, hglob⟩ := exists_eq_root_append hroot
  obtain ⟨rest, hrest⟩ := exists_of_accepts htokens hback
    (fun c hc => hglob c hc fun h => hfixed (h ▸ hc)) haccepts
  have htext : candidate "" way = r.root ++ "/" ++ String.ofList rest := by
    rw [← String.toList_inj, hrest, hroot_eq]
    simp
  refine exists_eq_pieces_append ?_ (WrittenPath.pieces_ne_nil (String.ofList rest)) hshown
  rw [← pieces_candidate hne hnames, htext, WrittenPath.ofText_append, WrittenPath.ofText_append,
    WrittenPath.pieces_append_slash]

/-- **The walk from the literal root finds what the pattern accepts.**  A file that the listing of the base
yields is selected by a plain pattern that accepts its path as it is shown, if there is no backslash in the
root of the pattern, and as many leading names of the way to the file as the root has pieces are shown as
themselves. -/
theorem expand_of_accepts (hbase : base.rooted = true) (hnamed : fs.IsNamed)
    (hparse : Rule.parse pattern = .ok r) (hplain : r.negated = false)
    (hroot : '\\' ∉ r.root.toList) (hway : way ∈ listFiles fs base)
    (hshown : r.root ≠ "" → ∀ name ∈ way.take (WrittenPath.pieces r.root).length, name.IsShown)
    (haccepts : r.accepts (candidate "" way) = true) :
    ∃ files, expand fs base [pattern] = .ok files ∧ marked (candidate "" way) ∈ files := by
  refine ⟨_, expand_singleton hparse, List.mem_map_of_mem (mem_apply hplain ?_ haccepts [])⟩
  by_cases hempty : r.root = ""
  · rw [candidates, hempty, Path.resolve_empty]
    exact List.mem_map_of_mem hway
  · have hlisted := of_mem_listFiles hbase hnamed hway
    have hnames : ∀ name ∈ way, Route.isName name = true :=
      fun name hmem => hnamed.isName name (hlisted.mem name hmem)
    obtain ⟨below, hbelow, rfl⟩ := exists_eq_root_pieces hparse hempty hroot hlisted.nonempty hnames
      (hshown hempty) haccepts
    have hpieces : ∀ name ∈ WrittenPath.pieces r.root, Route.isName name = true :=
      fun name hmem => hnames name (List.mem_append_left below hmem)
    have hhead : (WrittenPath.ofText r.root).toList.head? ≠ some (.char '/') := by
      have h := head?_way hpieces
      rwa [WrittenPath.joined_pieces_ofText] at h
    have hresolve : base.resolve r.root = pathBelow base (WrittenPath.pieces r.root) := by
      rw [Path.resolve_of_relative hhead, Path.enterAll_of_isName hpieces]
      rfl
    rw [candidate_append hempty hroot hbelow, candidates, hresolve]
    exact List.mem_map_of_mem (mem_listFiles_below hbase hnamed hbelow hway)

end

theorem isNamed_nestedTree : nestedTree.IsNamed :=
  ⟨by decide +kernel, by decide +kernel, by decide +kernel⟩

/-- A pattern with a class behind its root, in a tree with files beside the root. -/
theorem expand_of_accepts_class : ∃ files,
    expand nestedTree Path.root ["lib/[a-c]*.ts"] = .ok files ∧ "./lib/c.ts" ∈ files := by
  obtain ⟨tokens, hparse, haccepts⟩ : ∃ tokens,
      Rule.parse "lib/[a-c]*.ts" = .ok ⟨false, "lib", tokens⟩ ∧
      Rule.accepts ⟨false, "lib", tokens⟩ (candidate "" ["lib", "c.ts"]) = true :=
    ⟨_, rfl, by decide +kernel⟩
  have htext : marked (candidate "" ["lib", "c.ts"]) = "./lib/c.ts" := by decide +kernel
  have hroot : '\\' ∉ "lib".toList := by decide
  have hway : [.ofText "lib", .ofText "c.ts"] ∈ listFiles nestedTree Path.root := by decide +kernel
  have hshown : ∀ name ∈ [.ofText "lib", .ofText "c.ts"].take (WrittenPath.pieces "lib").length,
      WrittenPath.IsShown name := by
    decide +kernel
  obtain ⟨files, hexpand, hmem⟩ :=
    expand_of_accepts rfl isNamed_nestedTree hparse rfl hroot hway (fun _ => hshown) haccepts
  exact ⟨files, hexpand, htext ▸ hmem⟩

/-- A directory with one file. -/
def sourceTree : FileSystem where
  entries := [(["src"], .directory), (["src", "a.ts"], .file (.text ""))]
  workingDirectory := []
  isPlain := isPlain_nil

/-- A directory with one file, whose name is a byte that is no text. -/
def strayDirectory : FileSystem where
  entries := [([.strayName 0xFF ""], .directory), ([.strayName 0xFF "", "a.ts"], .file (.text ""))]
  workingDirectory := []
  isPlain := isPlain_nil

/-- Three ways in which the walk from the root misses a file that the pattern accepts: an escape is left in
the root, which names another directory with it, a backslash in a name is taken for the slash behind the
root, and the root names a directory as it is shown. -/
theorem expand_misses :
    (sourceTree.IsNamed ∧ [.ofText "src", .ofText "a.ts"] ∈ listFiles sourceTree Path.root ∧
      (∃ r, Rule.parse "s\\rc/*.ts" = .ok r ∧ r.negated = false ∧
        r.accepts (candidate "" ["src", "a.ts"]) = true) ∧
      expand sourceTree Path.root ["s\\rc/*.ts"] = .ok []) ∧
    (backslashTree.IsNamed ∧ [.ofText "a\\b.ts"] ∈ listFiles backslashTree Path.root ∧
      (∃ r, Rule.parse "a/*.ts" = .ok r ∧ r.negated = false ∧
        r.accepts (candidate "" ["a\\b.ts"]) = true) ∧
      expand backslashTree Path.root ["a/*.ts"] = .ok []) ∧
    (strayDirectory.IsNamed ∧ [.strayName 0xFF "", .ofText "a.ts"] ∈ listFiles strayDirectory Path.root ∧
      (∃ r, Rule.parse "\uFFFD/*.ts" = .ok r ∧ r.negated = false ∧
        r.accepts (candidate "" [.strayName 0xFF "", "a.ts"]) = true) ∧
      expand strayDirectory Path.root ["\uFFFD/*.ts"] = .ok []) := by
  have hsource : sourceTree.IsNamed := ⟨by decide +kernel, by decide +kernel, by decide +kernel⟩
  have hbackslash : backslashTree.IsNamed := ⟨by decide +kernel, by decide +kernel, by decide +kernel⟩
  have hstray : strayDirectory.IsNamed := ⟨by decide +kernel, by decide +kernel, by decide +kernel⟩
  refine ⟨⟨hsource, by decide +kernel, ?_, expand_eq_ok (by decide +kernel)⟩,
    ⟨hbackslash, by decide +kernel, ?_, expand_eq_ok (by decide +kernel)⟩,
    ⟨hstray, by decide +kernel, ?_, expand_eq_ok (by decide +kernel)⟩⟩
  · exact ⟨⟨false, "s\\rc", _⟩, rfl, rfl, by decide +kernel⟩
  · exact ⟨⟨false, "a", _⟩, rfl, rfl, by decide +kernel⟩
  · exact ⟨⟨false, "\uFFFD", _⟩, rfl, rfl, by decide +kernel⟩

end Tsconfig.Glob
