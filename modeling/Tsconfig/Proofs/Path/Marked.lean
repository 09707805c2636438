/-
# How a relative way is marked

Two lists of names are cut where they part: what they share, what is left of the folder and what is left of
the target (`Path.Parting`).  Nothing is left of the folder just when the target is the folder or lies beneath
it (`Path.Parting.away_eq_nil_iff`).  The way then is the rest of the target, and elsewhere it leaves the
folder by one double dot for each name that is left of it, and goes on with the rest of the target
(`Path.Parting.way_eq`).

A way beneath the folder is marked by `./`, unless it starts with a dot by itself.  **So a target beneath the
folder is marked except where its first name below the folder starts with a dot** (`Path.relativeText_parted`):
a hidden name is taken for a mark, and the way shows neither `./` nor a double dot.
-/
import Mathlib.Data.List.Infix
import Tsconfig.Proofs.Path.Relative

namespace Tsconfig.Path

/-! ## 1. Where names part -/

/-- Two lists of names cut where they part: behind what they share they do not start alike. -/
structure Parting (folder target shared away rest : List WrittenPath) : Prop where
  folder : shared ++ away = folder
  target : shared ++ rest = target
  apart : ∀ name, away.head? = some name → rest.head? ≠ some name

section

variable {xs ys shared away rest : List WrittenPath} {folder target : Path}

/-- Behind the shared names two lists do not start alike. -/
theorem head?_drop_sharedLength (xs ys : List WrittenPath) (name : WrittenPath)
    (h : (xs.drop (sharedLength xs ys)).head? = some name) :
    (ys.drop (sharedLength xs ys)).head? ≠ some name := by
  induction xs generalizing ys with
  | nil => simp at h
  | cons x xs ih =>
    cases ys with
    | nil => simp
    | cons y ys =>
      rw [sharedLength] at h ⊢
      split at h
      · next hxy =>
        rw [if_pos hxy]
        exact ih ys h
      · next hxy =>
        rw [if_neg hxy]
        obtain rfl : x = name := by simpa using h
        simpa using Ne.symm hxy

theorem parting_sharedLength (xs ys : List WrittenPath) :
    Parting xs ys (xs.take (sharedLength xs ys)) (xs.drop (sharedLength xs ys))
      (ys.drop (sharedLength xs ys)) := by
  refine ⟨List.take_append_drop _ xs, ?_, head?_drop_sharedLength xs ys⟩
  rw [take_sharedLength]
  exact List.take_append_drop _ ys

/-- **Nothing is left of a list just when it starts the other one.** -/
theorem Parting.away_eq_nil_iff (h : Parting xs ys shared away rest) : away = [] ↔ xs <+: ys := by
  rw [← h.folder, ← h.target, List.prefix_append_right_inj]
  constructor
  · rintro rfl
    exact List.nil_prefix
  · rintro ⟨more, hmore⟩
    cases away with
    | nil => rfl
    | cons name away => exact absurd (hmore ▸ rfl) (h.apart name rfl)

/-- There is one place only where two lists part. -/
theorem Parting.length_eq (h : Parting xs ys shared away rest) :
    shared.length = sharedLength xs ys := by
  obtain ⟨rfl, rfl, hapart⟩ := h
  induction shared with
  | nil =>
    cases away with
    | nil => simp [sharedLength]
    | cons x away =>
      cases rest with
      | nil => simp [sharedLength]
      | cons y rest =>
        have hxy : x ≠ y := by
          intro hxy
          exact hapart x rfl (congrArg some hxy.symm)
        simp [sharedLength, hxy]
  | cons name shared ih => simp [sharedLength, ih]

/-! ## 2. The way in its parts -/

/-- Names as they are shown, with slashes in between. -/
def shownNames (names : List WrittenPath) : String := Text.joinWith "/" (names.map WrittenPath.shown)

/-- The way with its mark: `./` beneath the folder, and elsewhere a double dot for each name that is left of
the folder. -/
def markedWay (away rest : List WrittenPath) : String :=
  if away = [] then "./" ++ shownNames rest
  else shownNames (List.replicate away.length (.ofText "..") ++ rest)

/-- The first name starts with a dot. -/
def StartsHidden (names : List WrittenPath) : Prop :=
  ∃ name, names.head? = some name ∧ name.toList.head? = some (.char '.')

/-- **The way leaves what is left of the folder and enters the rest of the target.** -/
theorem Parting.way_eq (h : Parting folder.names target.names shared away rest)
    (hsame : folder.rooted = target.rooted) :
    way folder target = .joined (List.replicate away.length (.ofText "..") ++ rest) := by
  have haway : folder.names.length - sharedLength folder.names target.names = away.length := by
    rw [← h.length_eq, ← h.folder, List.length_append, Nat.add_sub_cancel_left]
  have hrest : Path.rest folder target = rest := by
    rw [Path.rest, ← h.length_eq, ← h.target, List.drop_left]
  rw [Path.way_eq hsame, wayPieces, haway, hrest]

theorem head?_shown {name : WrittenPath} {c : Char} (hc : c ≠ Letter.replacement) :
    name.shown.toList.head? = some c ↔ name.toList.head? = some (.char c) := by
  rw [WrittenPath.shown, String.toList_ofList, List.head?_map, Option.map_eq_some_iff]
  constructor
  · rintro ⟨l, hl, rfl⟩
    cases l with
    | char c => exact hl
    | stray byte more => exact absurd rfl hc
  · intro hl
    exact ⟨_, hl, rfl⟩

theorem head?_toList_joinWith {texts : List String} (h : ∀ text ∈ texts, text ≠ "") :
    (Text.joinWith "/" texts).toList.head? = texts.head?.bind fun text => text.toList.head? := by
  cases texts with
  | nil => rfl
  | cons text texts =>
    have hne : text.toList ≠ [] := by simpa using h text List.mem_cons_self
    cases texts with
    | nil => rfl
    | cons other texts =>
      simp [Text.joinWith_cons_cons, List.head?_append_of_ne_nil _ hne]

/-- Beneath the folder only a hidden name makes the way start with a dot. -/
theorem isRelative_shownNames {names : List WrittenPath} (h : ∀ name ∈ names, name ≠ "") :
    WrittenPath.isRelative (shownNames names) = true ↔ StartsHidden names := by
  have hshown : ∀ text ∈ names.map WrittenPath.shown, text ≠ "" := by
    intro text htext
    obtain ⟨name, hname, rfl⟩ := List.mem_map.mp htext
    rw [ne_eq, WrittenPath.shown_eq_iff (by decide)]
    exact h name hname
  rw [WrittenPath.isRelative, decide_eq_true_iff, shownNames, head?_toList_joinWith hshown, List.head?_map,
    Option.bind_map, Option.bind_eq_some_iff]
  simp only [Function.comp_apply, head?_shown (show '.' ≠ Letter.replacement by decide)]
  rfl

/-- A way that starts with a name or a double dot does not start with `./`. -/
theorem not_prefix_joinWith {piece : String} (he : piece ≠ "") (hd : piece ≠ ".")
    (hs : '/' ∉ piece.toList) (pieces : List String) :
    ¬ "./".toList <+: (Text.joinWith "/" (piece :: pieces)).toList := by
  obtain ⟨more, hmore⟩ : ∃ more, (Text.joinWith "/" (piece :: pieces)).toList = piece.toList ++ more := by
    cases pieces with
    | nil => exact ⟨[], by simp [Text.joinWith]⟩
    | cons other pieces => exact ⟨_, by rw [Text.joinWith_cons_cons, String.append_assoc,
        String.toList_append]⟩
  have hmark : "./".toList = ['.', '/'] := rfl
  rw [hmore, hmark]
  cases hpiece : piece.toList with
  | nil => exact absurd (by simpa using hpiece) he
  | cons c cs =>
    rw [List.cons_append, List.cons_prefix_cons]
    rintro ⟨rfl, hslash⟩
    cases cs with
    | nil => exact hd (String.toList_inj.mp hpiece)
    | cons d ds =>
      rw [List.cons_append, List.cons_prefix_cons] at hslash
      rw [hpiece, ← hslash.1] at hs
      exact hs (by simp)

/-- A way that starts with a name does not start with `./`. -/
theorem not_prefix_shownNames {name : WrittenPath} (hn : name ≠ "") (hd : name ≠ ".")
    (hs : .char '/' ∉ name.toList) (names : List WrittenPath) :
    ¬ "./".toList <+: (shownNames (name :: names)).toList := by
  rw [shownNames, List.map_cons]
  refine not_prefix_joinWith ?_ ?_ ?_ _
  · rwa [ne_eq, WrittenPath.shown_eq_iff (by decide)]
  · rwa [ne_eq, WrittenPath.shown_eq_iff (by decide)]
  · rwa [WrittenPath.mem_shown (by decide)]

/-! ## 3. The way as it is shown -/

section

variable (h : Parting folder.names target.names shared away rest)
  (hsame : folder.rooted = target.rooted) (ht : target.HasNames)
  (hb : ∀ name ∈ target.names, .char '\\' ∉ name.toList)

include h hsame hb in
/-- A way without backslashes is shown as it is, but for the mark in front. -/
theorem Parting.relativeText_eq : relativeText folder target =
    if WrittenPath.isRelative (shownNames (List.replicate away.length (.ofText "..") ++ rest)) then
      shownNames (List.replicate away.length (.ofText "..") ++ rest)
    else "./" ++ shownNames (List.replicate away.length (.ofText "..") ++ rest) := by
  have hslash : .char '\\' ∉ (way folder target).toList := by
    rw [h.way_eq hsame]
    refine WrittenPath.not_mem_joined (by decide) fun piece hpiece => ?_
    rcases List.mem_append.mp hpiece with hdots | hmem
    · rw [List.eq_of_mem_replicate hdots]
      decide
    · exact hb piece (h.target ▸ List.mem_append_right shared hmem)
  rw [relativeText, WrittenPath.withSlashes_of_not_mem hslash, h.way_eq hsame, WrittenPath.shown_joined]
  rfl

include h ht in
theorem Parting.isName_of_mem {name : WrittenPath} (hmem : name ∈ rest) : Route.isName name = true :=
  ht name (h.target ▸ List.mem_append_right shared hmem)

include h hsame ht hb in
/-- **Outside the folder and beneath it the way is marked**, as long as it starts with no hidden name beneath
the folder. -/
theorem Parting.relativeText_eq_markedWay (hshown : ¬ (away = [] ∧ StartsHidden rest)) :
    relativeText folder target = markedWay away rest := by
  have hne : ∀ name ∈ rest, name ≠ "" := by
    intro name hmem
    exact (Route.isName_iff.mp (h.isName_of_mem ht hmem)).1
  rw [h.relativeText_eq hsame hb, markedWay]
  by_cases hnil : away = []
  · subst hnil
    rw [if_pos rfl, List.length_nil, List.replicate_zero, List.nil_append, if_neg]
    rw [isRelative_shownNames hne]
    exact fun hhidden => hshown ⟨rfl, hhidden⟩
  · rw [if_neg hnil, if_pos]
    obtain ⟨name, away, rfl⟩ := List.exists_cons_of_ne_nil hnil
    refine (isRelative_shownNames fun piece hpiece => ?_).mpr ⟨"..", by simp [List.replicate_succ], rfl⟩
    rcases List.mem_append.mp hpiece with hdots | hmem
    · rw [List.eq_of_mem_replicate hdots]
      decide
    · exact hne piece hmem

include h hsame ht hb in
/-- A hidden name beneath the folder is shown without a mark. -/
theorem Parting.relativeText_eq_shownNames (hnil : away = []) (hhidden : StartsHidden rest) :
    relativeText folder target = shownNames rest := by
  subst hnil
  have hne : ∀ name ∈ rest, name ≠ "" := by
    intro name hmem
    exact (Route.isName_iff.mp (h.isName_of_mem ht hmem)).1
  rw [h.relativeText_eq hsame hb, List.length_nil, List.replicate_zero, List.nil_append,
    if_pos ((isRelative_shownNames hne).mpr hhidden)]

include h hsame ht hb in
/-- **The way starts with `./` just beneath the folder**, where the first name is not hidden. -/
theorem Parting.prefix_relativeText_iff :
    "./".toList <+: (relativeText folder target).toList ↔ away = [] ∧ ¬ StartsHidden rest := by
  constructor
  · intro hmark
    by_cases hhidden : away = [] ∧ StartsHidden rest
    · -- a hidden name is neither a dot nor does it hold a slash
      rw [h.relativeText_eq_shownNames hsame ht hb hhidden.1 hhidden.2] at hmark
      obtain ⟨name, hname, -⟩ := hhidden.2
      obtain ⟨names, rfl⟩ := List.head?_eq_some_iff.mp hname
      obtain ⟨he, hd, -, hs⟩ := Route.isName_iff.mp (h.isName_of_mem ht List.mem_cons_self)
      exact absurd hmark (not_prefix_shownNames he hd hs names)
    · by_contra hnot
      have hne : away ≠ [] := by
        intro hnil
        exact hnot ⟨hnil, fun hstarts => hhidden ⟨hnil, hstarts⟩⟩
      obtain ⟨name, away, rfl⟩ := List.exists_cons_of_ne_nil hne
      rw [h.relativeText_eq_markedWay hsame ht hb hhidden, markedWay, if_neg hne] at hmark
      exact not_prefix_shownNames (by decide) (by decide) (by decide) _ hmark
  · rintro ⟨rfl, hshown⟩
    rw [h.relativeText_eq_markedWay hsame ht hb fun hboth => hshown hboth.2, markedWay, if_pos rfl,
      String.toList_append]
    exact List.prefix_append _ _

end

/-! ## 4. Written paths -/

/-- **The way from an absolute folder to an absolute path without backslashes.**  The path lies beneath the
folder just when nothing is left of the folder behind what the two share.  Beneath it the way is the rest of
the path, with `./` in front unless the first name of the rest starts with a dot; elsewhere it is a double dot
for each name that is left of the folder, followed by the rest of the path. -/
theorem relativeText_parted {folder path : WrittenPath} (hf : folder.toList.head? = some (.char '/'))
    (hp : path.toList.head? = some (.char '/')) (hb : .char '\\' ∉ path.toList) :
    ∃ shared away rest, Parting (ofText folder).names (ofText path).names shared away rest ∧
      (away = [] ↔ (ofText folder).names <+: (ofText path).names) ∧
      ("./".toList <+: (relativeText (ofText folder) (ofText path)).toList ↔
        away = [] ∧ ¬ StartsHidden rest) ∧
      (¬ (away = [] ∧ StartsHidden rest) →
        relativeText (ofText folder) (ofText path) = markedWay away rest) ∧
      (away = [] ∧ StartsHidden rest →
        relativeText (ofText folder) (ofText path) = shownNames rest) := by
  have hpart := parting_sharedLength (ofText folder).names (ofText path).names
  have hsame : (ofText folder).rooted = (ofText path).rooted :=
    (isPlain_ofText hf).rooted.trans (isPlain_ofText hp).rooted.symm
  have hnames := hasNames_ofText path
  have hslashes : ∀ name ∈ (ofText path).names, .char '\\' ∉ name.toList :=
    not_mem_names_resolve (by simp [empty]) hb
  refine ⟨_, _, _, hpart, hpart.away_eq_nil_iff,
    hpart.prefix_relativeText_iff hsame hnames hslashes,
    hpart.relativeText_eq_markedWay hsame hnames hslashes, ?_⟩
  intro hhidden
  exact hpart.relativeText_eq_shownNames hsame hnames hslashes hhidden.1 hhidden.2

/-- Outside the folder a hidden name has the double dots in front. -/
theorem relativeText_parted_outside :
    (WrittenPath.ofText "/w//x/../b").toList.head? = some (.char '/') ∧
      (WrittenPath.ofText "/w/.c/d.ts").toList.head? = some (.char '/') ∧
      .char '\\' ∉ (WrittenPath.ofText "/w/.c/d.ts").toList ∧
      ∃ shared away rest, Parting ["w", "b"] ["w", ".c", "d.ts"] shared away rest ∧ away ≠ [] ∧
        relativeText (ofText "/w//x/../b") (ofText "/w/.c/d.ts") = markedWay away rest := by
  obtain ⟨shared, away, rest, hpart, hbeneath, -, hmarked, -⟩ :=
    @relativeText_parted "/w//x/../b" "/w/.c/d.ts" (by decide) (by decide) (by decide)
  have hne : away ≠ [] := by
    intro hnil
    exact absurd (hbeneath.mp hnil) (by decide)
  exact ⟨by decide, by decide, by decide, shared, away, rest, hpart, hne,
    hmarked fun hboth => hne hboth.1⟩

/-- **A hidden file beneath the folder is listed without the mark.** -/
theorem relativeText_unmarked :
    (ofText "/w").names <+: (ofText "/w/.git/config").names ∧
      ¬ "./".toList <+: (relativeText (ofText "/w") (ofText "/w/.git/config")).toList ∧
      relativeText (ofText "/w") (ofText "/w/.git/config") = ".git/config" := by
  decide

end

end Tsconfig.Path
