/-
# Resolving piece by piece

What a written path means shows in its pieces between slashes: an empty one and a dot stay, a double
dot leaves a directory, any other piece enters one (`Path.enter`).  Resolving is entering the pieces one
after the other, from the root if the path starts with a slash (`Path.resolve_eq`), and so two paths
with a slash in between are resolved one after the other (`Path.resolve_append`).

A text that writes a path from the root is **unchanged by resolving it again** just when the names of the
path are names (`Path.isNormal_iff`).  With slashes for backslashes a path shows its parts, which are text
(`Path.written_parts`).
-/
import Tsconfig.Proofs.Path

namespace Tsconfig

/-! ## 1. Pieces and what joins them -/

namespace Text

/-- Joining the pieces by slashes puts a slash for each separator. -/
theorem toList_joinWith_splitAt (sep : Char) (text : String) :
    (joinWith "/" (splitAt sep text)).toList =
      text.toList.map fun c => if c = sep then '/' else c := by
  rw [splitAt]
  generalize text.toList = cs
  induction cs with
  | nil => simp [pieces, joinWith]
  | cons c cs ih =>
    obtain ⟨p, ps, hps⟩ := List.exists_cons_of_ne_nil (pieces_ne_nil sep cs)
    rw [hps] at ih
    rw [pieces, List.map_cons, ← ih, hps]
    split
    · simp [joinWith]
    · cases ps <;> simp [joinWith]

/-- The pieces between slashes, joined by slashes, are the text. -/
theorem joinWith_splitAt (text : String) : joinWith "/" (splitAt '/' text) = text := by
  rw [← String.toList_inj, toList_joinWith_splitAt]
  conv => rhs; rw [← List.map_id text.toList]
  refine List.map_congr_left fun c _ => ?_
  split
  · next hc => exact hc.symm
  · rfl

theorem joinWith_cons_cons (sep x y : String) (xs : List String) :
    joinWith sep (x :: y :: xs) = x ++ sep ++ joinWith sep (y :: xs) := rfl

theorem splitAt_ne_nil (sep : Char) (text : String) : splitAt sep text ≠ [] := by
  simpa [splitAt] using pieces_ne_nil sep text.toList

theorem splitAt_of_not_mem {sep : Char} {text : String} (h : sep ∉ text.toList) :
    splitAt sep text = [text] := by
  rw [splitAt, pieces_of_not_mem h, List.map_singleton, String.ofList_toList]

theorem mem_of_mem_splitAt {sep : Char} {text piece : String} (h : piece ∈ splitAt sep text) :
    ∀ c ∈ piece.toList, c ∈ text.toList := by
  obtain ⟨cs, hcs, rfl⟩ := List.mem_map.mp h
  rw [String.toList_ofList]
  exact mem_of_mem_pieces hcs

/-- What is cut starts with the separator if its first piece is empty and not the only one. -/
theorem head?_of_pieces {α : Type} [DecidableEq α] {sep : α} {cs p : List α} {ps : List (List α)}
    (h : pieces sep cs = [] :: p :: ps) : cs.head? = some sep := by
  cases cs with
  | nil => simp [pieces] at h
  | cons c cs =>
    rw [pieces] at h
    split at h
    · next hc => rw [List.head?_cons, hc]
    · split at h <;> simp at h

/-- What is cut from mapped letters are the mapped pieces, if no other letter is mapped to the separator. -/
theorem pieces_map {α β : Type} [DecidableEq α] [DecidableEq β] {f : α → β} {sep : α}
    (hf : ∀ a, f a = f sep → a = sep) (cs : List α) :
    pieces (f sep) (cs.map f) = (pieces sep cs).map (List.map f) := by
  induction cs with
  | nil => rfl
  | cons c cs ih =>
    obtain ⟨p, ps, hps⟩ := List.exists_cons_of_ne_nil (pieces_ne_nil sep cs)
    rw [hps] at ih
    rw [List.map_cons, pieces, pieces, ih, hps]
    by_cases hc : c = sep
    · rw [if_pos hc, if_pos (congrArg f hc)]
      rfl
    · rw [if_neg hc, if_neg fun heq => hc (hf c heq)]
      rfl

end Text

namespace WrittenPath

theorem pieces_ne_nil (path : WrittenPath) : path.pieces ≠ [] := by
  simpa [pieces] using Text.pieces_ne_nil (.char '/') path.toList

/-- Two paths with a slash in between are cut apart. -/
theorem pieces_append_slash (a b : WrittenPath) :
    (a ++ "/" ++ b).pieces = a.pieces ++ b.pieces := by
  have hlist : (a ++ "/" ++ b).toList = a.toList ++ .char '/' :: b.toList := by simp
  rw [pieces, hlist, Text.pieces_append_cons, List.map_append]
  rfl

/-- The pieces of a text are texts. -/
theorem pieces_ofText (text : String) :
    (ofText text).pieces = (Text.splitAt '/' text).map ofText := by
  have hinj : ∀ c, Letter.char c = Letter.char '/' → c = '/' := by simp
  rw [pieces, toList_ofText, Text.pieces_map hinj, Text.splitAt, List.map_map, List.map_map]
  refine List.map_congr_left fun cs _ => ?_
  rw [← toList_inj]
  rw [Function.comp_apply, Function.comp_apply, toList_ofText, String.toList_ofList]

theorem joined_map_ofText (texts : List String) :
    joined (texts.map ofText) = ofText (Text.joinWith "/" texts) := by
  induction texts with
  | nil => rfl
  | cons x xs ih =>
    cases xs with
    | nil => rfl
    | cons y ys =>
      rw [List.map_cons] at ih
      rw [List.map_cons, List.map_cons, joined_cons_cons, ih, Text.joinWith_cons_cons, ofText_append,
        ofText_append]

/-- The pieces of a text, joined by slashes, are the text. -/
theorem joined_pieces_ofText (text : String) : joined (ofText text).pieces = text := by
  rw [pieces_ofText, joined_map_ofText, Text.joinWith_splitAt]

theorem shown_joined (names : List WrittenPath) :
    (joined names).shown = Text.joinWith "/" (names.map shown) := by
  induction names with
  | nil => rfl
  | cons x xs ih =>
    cases xs with
    | nil => rfl
    | cons y ys =>
      rw [joined_cons_cons, shown_append, shown_append, ih, shown_ofText]
      rfl

/-- A path of names is shown as a path of what is shown of the names. -/
theorem ofText_shown_joined (names : List WrittenPath) :
    ofText (joined names).shown = joined (names.map fun name => ofText name.shown) := by
  rw [shown_joined, ← joined_map_ofText, List.map_map]
  rfl

/-- Only one path is shown as a text without the character that stands for other bytes. -/
theorem shown_eq_iff {path : WrittenPath} {text : String} (h : Letter.replacement ∉ text.toList) :
    path.shown = text ↔ path = text := by
  constructor
  · rintro rfl
    have htext : path.IsText := by
      refine isText_iff.mpr fun l hl => ?_
      cases l with
      | char c => rfl
      | stray byte more =>
        refine absurd ?_ h
        rw [shown, String.toList_ofList]
        exact List.mem_map_of_mem hl
    exact htext.symm
  · rintro rfl
    exact shown_ofText text

/-- What is shown of a name is a name. -/
theorem isName_shown (name : WrittenPath) : Route.isName name.shown = Route.isName name := by
  have hsame (text : String) (h : Letter.replacement ∉ text.toList) :
      ofText name.shown = text ↔ name = text := by
    rw [ofText_inj, shown_eq_iff h]
  have hslash : Letter.char '/' ∈ (ofText name.shown).toList ↔ .char '/' ∈ name.toList := by
    rw [← mem_shown (by decide), shown_ofText, mem_shown (by decide)]
  rw [Bool.eq_iff_iff, Route.isName_iff, Route.isName_iff, ne_eq, ne_eq, ne_eq,
    hsame "" (by decide), hsame "." (by decide), hsame ".." (by decide), hslash]

theorem withSlashes_eq (path : WrittenPath) :
    withSlashes path = Text.joinWith "/" (Text.splitAt '\\' path.shown) := by
  rw [← String.toList_inj, Text.toList_joinWith_splitAt, withSlashes, String.toList_ofList]

theorem withSlashes_append (a b : WrittenPath) :
    withSlashes (a ++ b) = withSlashes a ++ withSlashes b := by
  rw [← String.toList_inj]
  simp [withSlashes, shown_append]

/-- The parts of a name that backslashes part, as they are shown. -/
def parts (name : WrittenPath) : List WrittenPath := (Text.splitAt '\\' name.shown).map ofText

theorem parts_ne_nil (name : WrittenPath) : name.parts ≠ [] := by
  simp [parts, Text.splitAt_ne_nil]

/-- A name that is shown as itself is its only part. -/
theorem parts_of_isShown {name : WrittenPath} (h : name.IsShown) : name.parts = [name] := by
  obtain ⟨htext, hslash⟩ := isShown_iff.mp h
  have hshown : '\\' ∉ name.shown.toList := by rwa [mem_shown (by decide)]
  rw [parts, Text.splitAt_of_not_mem hshown, List.map_singleton, htext]

theorem flatMap_parts_of_isShown {names : List WrittenPath} (h : ∀ name ∈ names, name.IsShown) :
    names.flatMap parts = names := by
  induction names with
  | nil => rfl
  | cons name names ih =>
    rw [List.flatMap_cons, parts_of_isShown (h name List.mem_cons_self),
      ih fun other hmem => h other (List.mem_cons_of_mem name hmem), List.singleton_append]

/-- Each part of a name is shown as itself. -/
theorem isShown_of_mem_parts {name piece : WrittenPath} (h : piece ∈ name.parts) : piece.IsShown := by
  obtain ⟨text, htext, rfl⟩ := List.mem_map.mp h
  obtain ⟨cs, hcs, rfl⟩ := List.mem_map.mp htext
  have hslash := Text.not_mem_of_mem_pieces hcs
  exact isShown_iff.mpr ⟨isText_ofText _, by simpa using hslash⟩

theorem not_mem_of_mem_parts {name piece : WrittenPath} (hpiece : piece ∈ name.parts)
    (h : .char '/' ∉ name.toList) : .char '/' ∉ piece.toList := by
  obtain ⟨text, htext, rfl⟩ := List.mem_map.mp hpiece
  intro hslash
  have hmem := Text.mem_of_mem_splitAt htext '/' (char_mem_ofText.mp hslash)
  exact h ((mem_shown (by decide)).mp hmem)

/-- With slashes for backslashes, names become more names. -/
theorem ofText_withSlashes_joined (names : List WrittenPath) :
    ofText (withSlashes (joined names)) = joined (names.flatMap parts) := by
  induction names with
  | nil => rfl
  | cons name names ih =>
    have hname : ofText (withSlashes name) = joined name.parts := by
      rw [withSlashes_eq, parts, joined_map_ofText]
    cases names with
    | nil => simpa [joined] using hname
    | cons other names =>
      have hrest : (other :: names).flatMap parts ≠ [] := by
        simp [parts_ne_nil]
      have hslash : withSlashes "/" = "/" := by decide
      have hcons : (name :: other :: names).flatMap parts =
          name.parts ++ (other :: names).flatMap parts := List.flatMap_cons
      rw [joined_cons_cons, withSlashes_append, withSlashes_append, hslash, ofText_append,
        ofText_append, ih, hname, hcons, joined_append (parts_ne_nil name) hrest]

end WrittenPath

namespace Text

theorem joinWith_append {xs ys : List String} (hx : xs ≠ []) (hy : ys ≠ []) :
    joinWith "/" (xs ++ ys) = joinWith "/" xs ++ "/" ++ joinWith "/" ys := by
  rw [← WrittenPath.ofText_inj, ← WrittenPath.joined_map_ofText, List.map_append,
    WrittenPath.joined_append (by simpa using hx) (by simpa using hy), WrittenPath.joined_map_ofText,
    WrittenPath.joined_map_ofText, WrittenPath.ofText_append, WrittenPath.ofText_append]

theorem not_mem_joinWith {c : Char} (hc : c ≠ '/') {xs : List String} (h : ∀ x ∈ xs, c ∉ x.toList) :
    c ∉ (joinWith "/" xs).toList := by
  rw [← WrittenPath.char_mem_ofText, ← WrittenPath.joined_map_ofText]
  refine WrittenPath.not_mem_joined (by simpa using hc) fun x hx => ?_
  obtain ⟨text, htext, rfl⟩ := List.mem_map.mp hx
  simpa using h text htext

end Text

/-! ## 2. Entering pieces -/

namespace Path

/-- Where a piece leads. -/
def enter (p : Path) (piece : WrittenPath) : Path :=
  if piece = "" || piece = "." then p else if piece = ".." then p.parent else p.child piece

/-- Where pieces lead, one after the other. -/
def enterAll (p : Path) (pieces : List WrittenPath) : Path := pieces.foldl enter p

section

variable {p : Path} {path : WrittenPath}

@[simp] theorem enterAll_nil (p : Path) : p.enterAll [] = p := rfl

@[simp] theorem enterAll_cons (p : Path) (piece : WrittenPath) (pieces : List WrittenPath) :
    p.enterAll (piece :: pieces) = (p.enter piece).enterAll pieces := rfl

theorem enterAll_append (p : Path) (xs ys : List WrittenPath) :
    p.enterAll (xs ++ ys) = (p.enterAll xs).enterAll ys := by
  simp [enterAll]

/-- Names are put behind the path. -/
theorem enterAll_of_isName {names : List WrittenPath} (h : ∀ name ∈ names, Route.isName name = true) :
    p.enterAll names = { p with names := p.names ++ names } := by
  induction names generalizing p with
  | nil => simp
  | cons name names ih =>
    obtain ⟨he, hd, hdd, _⟩ := Route.isName_iff.mp (h name List.mem_cons_self)
    rw [enterAll_cons, ih fun other hmem => h other (List.mem_cons_of_mem name hmem)]
    simp [enter, he, hd, hdd, child]

theorem along_cons (p : Path) (step : Step) (steps : List Step) :
    p.along (step :: steps) = (p.step step).along steps := rfl

theorem enterAll_of_dots {pieces : List WrittenPath}
    (h : pieces.all (fun piece => piece = "" || piece = ".") = true) : p.enterAll pieces = p := by
  induction pieces with
  | nil => rfl
  | cons piece pieces ih =>
    rw [List.all_cons, Bool.and_eq_true] at h
    have hstay : p.enter piece = p := by
      rw [enter, if_pos (by simpa using h.1)]
    rw [enterAll_cons, hstay, ih h.2]

/-- The steps of the pieces lead where the pieces lead. -/
theorem along_laterSteps (p : Path) (pieces : List WrittenPath) :
    p.along (Route.laterSteps pieces) = p.enterAll pieces := by
  induction pieces generalizing p with
  | nil => rfl
  | cons piece pieces ih =>
    rw [Route.laterSteps, enterAll_cons]
    split
    · next he => rw [ih, enter, if_pos (by simp [he])]
    · next he =>
      split
      · next hd =>
        have hstay : p.enter piece = p := by rw [enter, if_pos (by simp [hd])]
        rw [hstay]
        split
        · next hdots => exact (enterAll_of_dots hdots).symm
        · exact ih p
      · next hd =>
        have hstep : p.step (Route.stepOf piece) = p.enter piece := by
          have hnot : ¬ (decide (piece = "") || decide (piece = ".")) = true := by simp [he, hd]
          by_cases hdd : piece = ".."
          · rw [Route.stepOf, if_neg hd, if_pos hdd, enter, if_neg hnot, if_pos hdd]
            rfl
          · rw [Route.stepOf, if_neg hd, if_neg hdd, enter, if_neg hnot, if_neg hdd]
            rfl
        rw [along_cons, hstep, ih]

theorem along_relativeSteps (p : Path) (pieces : List WrittenPath) :
    p.along (Route.relativeSteps pieces) = p.enterAll pieces := by
  cases pieces with
  | nil => rfl
  | cons piece pieces =>
    rw [Route.relativeSteps]
    split
    · next hd =>
      subst hd
      exact along_laterSteps p pieces
    · exact along_laterSteps p (piece :: pieces)

/-- Whether a text starts with a slash shows in its first piece. -/
theorem pieces_of_rooted (h : path.toList.head? = some (.char '/')) : ∃ piece pieces,
    path.pieces = .ofText "" :: piece :: pieces := by
  obtain ⟨rest, hrest⟩ := List.head?_eq_some_iff.mp h
  obtain ⟨piece, pieces, hpieces⟩ := List.exists_cons_of_ne_nil (Text.pieces_ne_nil (.char '/') rest)
  refine ⟨.ofList piece, pieces.map .ofList, ?_⟩
  rw [WrittenPath.pieces, hrest, Text.pieces, if_pos rfl, hpieces]
  rfl

theorem head?_of_pieces {piece : WrittenPath} {pieces : List WrittenPath}
    (h : path.pieces = .ofText "" :: piece :: pieces) : path.toList.head? = some (.char '/') := by
  cases hlist : Text.pieces (.char '/') path.toList with
  | nil => exact absurd hlist (Text.pieces_ne_nil _ _)
  | cons first rest =>
    rw [WrittenPath.pieces, hlist] at h
    obtain ⟨hfirst, hrest⟩ := List.cons.inj h
    obtain ⟨other, others, rfl⟩ : ∃ other others, rest = other :: others := by
      cases rest with
      | nil => simp at hrest
      | cons other others => exact ⟨other, others, rfl⟩
    obtain rfl : first = [] := congrArg WrittenPath.toList hfirst
    exact Text.head?_of_pieces hlist

/-- **Resolving is entering the pieces**, from the root if the text starts with a slash. -/
theorem resolve_eq (p : Path) (path : WrittenPath) : p.resolve path =
    (if path.toList.head? = some (.char '/') then root else p).enterAll path.pieces := by
  by_cases h : path.toList.head? = some (.char '/')
  · obtain ⟨piece, pieces, hsplit⟩ := pieces_of_rooted h
    have hsteps : (Route.parse path).steps = Route.laterSteps (piece :: pieces) := by
      simp [Route.parse, hsplit]
    rw [resolve, follow, Route.rooted_parse h, if_pos rfl, if_pos h, hsteps, along_laterSteps, hsplit,
      enterAll_cons]
    rfl
  · have hroute : (Route.parse path).rooted = false ∧
        (Route.parse path).steps = Route.relativeSteps (path.pieces) := by
      unfold Route.parse
      split
      · next hnil => exact absurd hnil (WrittenPath.pieces_ne_nil _)
      · next only hsplit => exact ⟨rfl, by rw [hsplit]⟩
      · next first rest hne hsplit =>
        obtain ⟨piece, pieces, rfl⟩ := List.exists_cons_of_ne_nil fun hnil => hne (hnil ▸ rfl)
        have hfirst : first ≠ "" := by
          rintro rfl
          exact h (head?_of_pieces hsplit)
        rw [hsplit]
        simp [hfirst]
    rw [resolve, follow, hroute.1, if_neg h, hroute.2, along_relativeSteps]
    rfl

theorem resolve_of_relative (h : path.toList.head? ≠ some (.char '/')) (p : Path) :
    p.resolve path = p.enterAll path.pieces := by
  rw [resolve_eq, if_neg h]

theorem enterAll_pieces_joined {pieces : List WrittenPath}
    (h : ∀ piece ∈ pieces, .char '/' ∉ piece.toList) (p : Path) :
    p.enterAll (WrittenPath.joined pieces).pieces = p.enterAll pieces := by
  cases pieces with
  | nil => rfl
  | cons piece pieces => rw [WrittenPath.pieces_joined h (List.cons_ne_nil _ _)]

/-- A text without a piece leads nowhere else. -/
theorem resolve_empty (p : Path) : p.resolve "" = p := by
  rw [resolve_of_relative (by decide)]
  rfl

/-- **A path behind another one is resolved after it.** -/
theorem resolve_append (p : Path) {a : WrittenPath} (ha : a ≠ "") (b : WrittenPath) :
    p.resolve (a ++ "/" ++ b) = (p.resolve a).enterAll b.pieces := by
  have hhead : (a ++ "/" ++ b).toList.head? = a.toList.head? := by
    obtain ⟨c, cs, hcs⟩ :=
      List.exists_cons_of_ne_nil fun hnil => ha (WrittenPath.toList_eq_nil_iff.mp hnil)
    simp [hcs]
  rw [resolve_eq, resolve_eq, hhead, WrittenPath.pieces_append_slash, enterAll_append]

/-- The mark of a relative path leads nowhere. -/
theorem resolve_dotSlash (p : Path) (h : path.toList.head? ≠ some (.char '/')) :
    p.resolve ("./" ++ path) = p.resolve path := by
  have hdot : p.resolve "." = p := by
    rw [resolve_of_relative (by decide)]
    rfl
  have htext : "./" ++ path = "." ++ "/" ++ path := rfl
  rw [htext, resolve_append p (by decide), hdot, resolve_of_relative h]

section

variable {pieces : List WrittenPath} (h : ∀ piece ∈ pieces, piece ≠ "" ∧ .char '/' ∉ piece.toList)
include h

theorem head?_joined : (WrittenPath.joined pieces).toList.head? ≠ some (.char '/') := by
  intro hslash
  cases pieces with
  | nil => simp [WrittenPath.joined] at hslash
  | cons piece pieces =>
    obtain ⟨first, rest, hfirst⟩ := pieces_of_rooted hslash
    rw [WrittenPath.pieces_joined (fun name hmem => (h name hmem).2) (List.cons_ne_nil _ _)] at hfirst
    exact (h piece List.mem_cons_self).1 (List.cons.inj hfirst).1

end

/-! ## 3. Normal texts -/

/-- A text that starts at the root and is unchanged by resolving it again. -/
def IsNormal (text : String) : Prop :=
  text.toList.head? = some '/' ∧ (ofText text).written = text

/-- The path whose names are what is shown of the names. -/
def asShown (p : Path) : Path := { p with names := p.names.map fun name => .ofText name.shown }

/-- The path whose names are what backslashes leave of the names, as they are shown. -/
def parts (p : Path) : Path := { p with names := p.names.flatMap WrittenPath.parts }

/-- The path without an empty last name. -/
def dropEmpty (p : Path) : Path := if p.names.getLast? = some (.ofText "") then p.parent else p

/-- What is written in text is the path of what is shown. -/
theorem written_asShown (p : Path) : p.asShown.written = p.text := by
  rw [text, written, written, WrittenPath.shown_append, WrittenPath.ofText_append,
    WrittenPath.shown_ofText, WrittenPath.ofText_shown_joined]
  rfl

/-- **With slashes for backslashes a path shows its parts.** -/
theorem written_parts (p : Path) : p.parts.written = WrittenPath.withSlashes p.written := by
  have hfront : WrittenPath.withSlashes (.ofText (if p.rooted then "/" else "")) =
      if p.rooted then "/" else "" := by
    split <;> decide
  rw [written, written, WrittenPath.withSlashes_append, WrittenPath.ofText_append, hfront,
    WrittenPath.ofText_withSlashes_joined]
  rfl

/-- Without backslashes the parts are what is shown of the names. -/
theorem parts_of_not_mem (h : ∀ name ∈ p.names, .char '\\' ∉ name.toList) : p.parts = p.asShown := by
  have hnames : p.names.flatMap WrittenPath.parts = p.names.flatMap fun name => [.ofText name.shown] := by
    rw [List.flatMap_def, List.flatMap_def]
    refine congrArg List.flatten (List.map_congr_left fun name hmem => ?_)
    have hshown : '\\' ∉ name.shown.toList := by
      rw [WrittenPath.mem_shown (by decide)]
      exact h name hmem
    rw [WrittenPath.parts, Text.splitAt_of_not_mem hshown, List.map_singleton]
  rw [parts, hnames, asShown, List.map_eq_flatMap]

theorem not_mem_parts (h : ∀ name ∈ p.names, .char '/' ∉ name.toList) :
    ∀ name ∈ p.parts.names, .char '/' ∉ name.toList := by
  intro piece hpiece
  obtain ⟨name, hname, hmem⟩ := List.mem_flatMap.mp hpiece
  exact WrittenPath.not_mem_of_mem_parts hmem (h name hname)

theorem parts_ne_nil (h : p.names ≠ []) : p.parts.names ≠ [] := by
  obtain ⟨name, names, hnames⟩ := List.exists_cons_of_ne_nil h
  simp [parts, hnames, WrittenPath.parts_ne_nil]

theorem ne_nil_of_isName {name : WrittenPath} (h : Route.isName name = true) :
    name.parts ≠ [.ofText ""] := by
  intro hparts
  have htext := WrittenPath.ofText_withSlashes_joined [name]
  rw [List.flatMap_singleton, hparts] at htext
  have hlist : name.toList = [] := by
    have := congrArg WrittenPath.toList htext
    simpa [WrittenPath.withSlashes, WrittenPath.shown, WrittenPath.joined] using this
  exact (Route.isName_iff.mp h).1 (WrittenPath.toList_eq_nil_iff.mp hlist)

/-- A plain path has more parts than one empty one. -/
theorem IsPlain.parts_ne (h : p.IsPlain) : p.parts.names ≠ [.ofText ""] := by
  intro hparts
  cases hnames : p.names with
  | nil => simp [parts, hnames] at hparts
  | cons name names =>
    have hname := h.isName name (hnames ▸ List.mem_cons_self)
    have hsplit : name.parts ++ names.flatMap WrittenPath.parts = [.ofText ""] := by
      simpa [parts, hnames] using hparts
    rcases List.append_eq_singleton_iff.mp hsplit with ⟨hnil, _⟩ | ⟨hone, _⟩
    · exact WrittenPath.parts_ne_nil _ hnil
    · exact ne_nil_of_isName hname hone

theorem HasNames.not_mem (h : p.HasNames) : ∀ name ∈ p.names, .char '/' ∉ name.toList :=
  fun name hmem => Route.not_mem_of_isName (h name hmem)

theorem HasNames.asShown (h : p.HasNames) : p.asShown.HasNames := by
  intro text htext
  obtain ⟨name, hname, rfl⟩ := List.mem_map.mp htext
  rw [WrittenPath.isName_shown]
  exact h name hname

theorem IsPlain.asShown (h : p.IsPlain) : p.asShown.IsPlain := ⟨h.rooted, h.isName.asShown⟩

/-- A path of names that are shown as themselves is shown as itself. -/
theorem isShown_written (h : ∀ name ∈ p.names, name.IsShown) : p.written.IsShown := by
  refine WrittenPath.isShown_iff.mpr ⟨WrittenPath.isText_append.mpr ⟨WrittenPath.isText_ofText _, ?_⟩, ?_⟩
  · exact WrittenPath.isText_joined fun name hname => (WrittenPath.isShown_iff.mp (h name hname)).1
  · exact not_mem_written (by decide) fun name hname => (WrittenPath.isShown_iff.mp (h name hname)).2

theorem HasNames.dropEmpty (h : p.HasNames) : p.dropEmpty = p := by
  rw [Path.dropEmpty, if_neg]
  intro hlast
  exact (Route.isName_iff.mp (h _ (List.mem_of_getLast? hlast))).1 rfl

/-- **The text that writes a path from the root is normal just when the names of the path are names**, but
for one empty name, which does not show. -/
theorem isNormal_iff {text : String} (hr : p.rooted = true)
    (hs : ∀ name ∈ p.names, .char '/' ∉ name.toList) (ht : p.written = text) :
    IsNormal text ↔ p.HasNames ∨ p.names = [.ofText ""] := by
  have hhead : p.written.toList.head? = some (.char '/') := by rw [toList_written hr, List.head?_cons]
  have hstarts : text.toList.head? = some '/' := by
    rw [ht, WrittenPath.toList_ofText, List.head?_map] at hhead
    cases hc : text.toList.head? <;> simp_all
  unfold IsNormal
  rw [← ht]
  constructor
  · rintro ⟨_, hsame⟩
    by_cases hnil : p.names = []
    · exact .inl (by simp [HasNames, hnil])
    · have hplain := isPlain_ofText hhead
      have hsplit := pieces_written hr hs hnil
      by_cases hroot : (ofText p.written).names = []
      · have htext : p.written = "/" := by
          rw [← hsame, written, hplain.rooted, hroot]
          rfl
        have hslash : (WrittenPath.ofText "/").pieces = [.ofText "", .ofText ""] := by decide
        rw [htext, hslash] at hsplit
        exact .inr (List.cons.inj hsplit).2.symm
      · have hagain := pieces_written hplain.rooted hplain.isName.not_mem hroot
        rw [hsame, hsplit] at hagain
        left
        intro name hmem
        exact hplain.isName name ((List.cons.inj hagain).2 ▸ hmem)
  · rintro (hnames | hone)
    · exact ⟨hstarts, by rw [ofText_written ⟨hr, hnames⟩]⟩
    · have htext : p.written = "/" := by
        rw [written, hr, hone]
        rfl
      rw [htext]
      exact ⟨hstarts, by decide⟩

end

end Path

end Tsconfig
