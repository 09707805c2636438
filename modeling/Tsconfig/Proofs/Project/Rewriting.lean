/-
# What a rewrite keeps

A run that changes anything has rewritten the descriptor of the directory that owns the path.  The old
text is an object, the new text is one, and the new one keeps the old one (`load_keeps`): every value
but those of the files and the patterns, and the order of the keys, in front of the keys that are new.

The patterns are those of the old text.  Where it names neither patterns nor files, or only as null,
they are the default ones (`GivenPatterns`).
-/
import Tsconfig.Proofs.Project.Stages

namespace Tsconfig.Loader

open Descriptor FileSystem

/-! ## 1. The patterns of an object -/

/-- The patterns that an object gives: its own, or the default ones if it gives neither patterns nor
files. -/
inductive GivenPatterns (old : Fields Json) : List String → Prop
  | own (patterns : List String)
      (h : (old.get? "filesGlob").bind Json.nonNull? = some (.strings patterns)) :
      GivenPatterns old patterns
  | default (hg : (old.get? "filesGlob").bind Json.nonNull? = none)
      (hf : (old.get? "files").bind Json.nonNull? = none) : GivenPatterns old Glob.defaultPatterns

section

variable {old : Fields Json} {d : Descriptor} {patterns : List String}

theorem givenPatterns_of_object (h : Says old d) (hp : patternsOf d = some patterns) :
    GivenPatterns old patterns := by
  have hglob := h.filesGlob
  have hfiles := h.files
  unfold patternsOf at hp
  split at hp
  · next hg =>
    obtain rfl := Option.some.inj hp
    rw [hg] at hglob
    exact .own _ hglob.symm
  · next hg hf =>
    obtain rfl := Option.some.inj hp
    rw [hg] at hglob
    rw [hf] at hfiles
    exact .default hglob.symm hfiles.symm
  · simp at hp

end

/-! ## 2. The rewrite -/

section

variable {r : Loader} {fs : FileSystem} {path : WrittenPath}

/-- A run that changes anything leaves an expanded descriptor in the place of the one that it has
read. -/
theorem exists_expanded (hfree : NoTemporary fs path) (hchanged : (r.load fs path).2 ≠ fs) :
    ∃ dir D text d patterns files, Reads fs path dir text d ∧ fs.resolve? dir.route = some D ∧
      patternsOf d = some patterns ∧ r.expand fs dir patterns = .ok files ∧
      Replaced fs (r.load fs path).2 (D ++ [.ofText fileName])
        (.text (d.expanded patterns files).canonical) := by
  rcases fails_or_ready r fs path with ⟨e, hfails, hkind⟩ | ⟨dir, text, d, h, hr⟩
  · rw [load_of_fails hfails hkind] at hchanged
    exact absurd rfl hchanged
  · obtain ⟨_, D, hD, _⟩ := h.owns.exists_place
    obtain ⟨_, _, hleaves⟩ := load_of_ready h hD (hfree dir D h.owns hD) hr
    cases hp : patternsOf d with
    | none => exact absurd (hleaves.listed hp) hchanged
    | some patterns =>
      obtain ⟨files, hx, hwritten | ⟨hsame, _⟩⟩ := hleaves.expanded patterns hp
      · exact ⟨dir, D, text, d, patterns, files, h, hD, hp, hx, hwritten⟩
      · exact absurd hsame hchanged

/-- **A rewrite keeps the data of the descriptor.**  A run that changes anything has read an object in
the directory that owns the path and has left a file with an object that keeps it. -/
theorem load_keeps (hfree : NoTemporary fs path) (hchanged : (r.load fs path).2 ≠ fs)
    (hn : ∀ dir text old, Owns fs path dir → fs.readText (dir.child fileName).route = .ok text →
      Json.parseObject? (String.ofList (withoutMark text)) = some old →
        ∀ n ∈ (Json.object old).numbers, n.ReadsBack) :
    ∃ dir D text old text' new patterns files, Owns fs path dir ∧ fs.resolve? dir.route = some D ∧
      fs.readText (dir.child fileName).route = .ok text ∧
      Json.parseObject? (String.ofList (withoutMark text)) = some old ∧
      (r.load fs path).2.get? (D ++ [.ofText fileName]) = some (.file (.text text')) ∧
      Json.parseObject? text' = some new ∧
      GivenPatterns old patterns ∧ r.expand fs dir patterns = .ok files ∧
      Keeps old new patterns files := by
  obtain ⟨dir, D, text, d, patterns, files, h, hD, hp, hx, hwritten⟩ := exists_expanded hfree hchanged
  obtain ⟨old, hold, hsays⟩ := says_of_parse h.parse
  have hwf := (wellFormed_of_parse h.parse).expanded patterns files
  have hback : ∀ n ∈ d.numbers, n.ReadsBack := fun n hmem =>
    hn dir text old h.owns h.readText hold n (mem_numbers_of_object hsays hmem)
  have hnew : Json.parseObject? (d.expanded patterns files).canonical =
      some (d.expanded patterns files).entries :=
    Json.parseObject?_pretty (nests_entries hwf) fun n hmem => hback n (numbers_entries hwf hmem)
  exact ⟨dir, D, text, old, _, _, patterns, files, h.owns, hD, h.readText, hold, hwritten.file, hnew,
    givenPatterns_of_object hsays hp, hx,
    keeps_entries (wellFormed_of_parse h.parse) hsays patterns files⟩

end

/-- A descriptor with unknown keys, the known ones out of order and a null one. -/
def unsortedObject : Fields Json :=
  [("b", .int 3), ("version", .null), ("a", .array [.int 2]), ("filesGlob", .strings ["a.ts"])]

def unsortedText : String := (Json.object unsortedObject).pretty 0

/-- A tree with this descriptor. -/
def unsortedTree : FileSystem where
  entries := [(["a.ts"], .file (.text "")), (["tsconfig.json"], .file (.text unsortedText))]
  workingDirectory := []
  isPlain := isPlain_nil

theorem owns_unsortedTree : Owns unsortedTree "." Path.root :=
  ⟨by decide +kernel, by unfold HasDescriptor; decide +kernel, [], [], by decide +kernel, by simp⟩

theorem readsBack_unsortedObject : ∀ n ∈ (Json.object unsortedObject).numbers, n.ReadsBack := by
  decide +kernel

theorem parseObject?_unsortedText :
    Json.parseObject? (String.ofList (withoutMark unsortedText)) = some unsortedObject := by
  have hmark : String.ofList (withoutMark unsortedText) = unsortedText := by decide +kernel
  have hnest : Json.Nests Json.depthLimit (.object unsortedObject) := by
    refine .object 126 _ (by decide) ?_
    simp [unsortedObject, Json.strings, Json.int, Json.Nests.null, Json.Nests.number, Json.Nests.string,
      Json.Nests.array 125]
  rw [hmark]
  exact Json.parseObject?_pretty hnest readsBack_unsortedObject

theorem load_keeps_unsorted : ∃ text new,
    (standard.load unsortedTree ".").2.get? ["tsconfig.json"] = some (.file (.text text)) ∧
      Json.parseObject? text = some new ∧ new.get? "b" = some (.int 3) ∧ new.get? "version" = none ∧
      ∃ added, new.keys = ["b", "a", "filesGlob"] ++ added := by
  have hD : unsortedTree.resolve? Path.root.route = some [] := by decide +kernel
  have hfree : NoTemporary unsortedTree "." :=
    noTemporary_of_owns owns_unsortedTree hD (by decide +kernel)
  have htext : unsortedTree.readText (Path.root.child fileName).route = .ok unsortedText :=
    readText_eq_ok.mpr ⟨["tsconfig.json"], by decide +kernel, by decide +kernel⟩
  obtain ⟨dir, D, text, old, text', new, patterns, files, howns, hD', hread, hold, hget, hnew, _, _,
      hkeeps⟩ := load_keeps (r := .standard) hfree (by decide +kernel) (by
    intro dir text old howns hread hold
    obtain rfl := owns_unsortedTree.unique howns
    obtain rfl := Except.ok.inj (htext.symm.trans hread)
    obtain rfl := Option.some.inj (parseObject?_unsortedText.symm.trans hold)
    exact readsBack_unsortedObject)
  obtain rfl := owns_unsortedTree.unique howns
  obtain rfl := Except.ok.inj (htext.symm.trans hread)
  obtain rfl := Option.some.inj (parseObject?_unsortedText.symm.trans hold)
  obtain rfl := Option.some.inj (hD.symm.trans hD')
  have hb : new.get? "b" = some (.int 3) := hkeeps.unknown "b" (by decide)
  have ha : new.get? "a" = some (.array [.int 2]) := hkeeps.unknown "a" (by decide)
  have hversion : new.get? "version" = none := hkeeps.optional "version" (by simp)
  obtain ⟨added, horder, _⟩ := hkeeps.order
  refine ⟨text', new, hget, hnew, hb, hversion, added, ?_⟩
  rw [horder]
  simp [unsortedObject, Fields.contains, hb, ha, hversion, hkeeps.filesGlob]

end Tsconfig.Loader
