/-
# From a folder to a file

The way from a folder to a target leaves the folder by double dots as far as the two have names in common
(`Path.take_sharedLength`), and enters the rest of the target.  As it is shown, with `./` in front of it or
not, it enters the parts of that rest (`Path.resolve_relativeText_eq`).  So resolving it against the folder
leads to the target **just when each name of the rest is shown as itself**
(`Path.resolve_relativeText_iff`), and a folder is told two targets apart by the ways to them if their
names are (`Path.eq_of_relativeText`).

Names are not shown as themselves where a backslash has become a slash, or where bytes are shown that are no
text: then the way leads somewhere else, and different ways are shown alike (`Path.relativeText_misleads`).
-/
import Tsconfig.Proofs.Path.Resolving

namespace Tsconfig.Path

/-! ## 1. Common names -/

/-- **The names that two lists share** are the same in both. -/
theorem take_sharedLength (xs ys : List WrittenPath) :
    xs.take (sharedLength xs ys) = ys.take (sharedLength xs ys) := by
  induction xs generalizing ys with
  | nil => simp [sharedLength]
  | cons x xs ih =>
    cases ys with
    | nil => simp [sharedLength]
    | cons y ys =>
      rw [sharedLength]
      split
      · next hxy => rw [List.take_succ_cons, List.take_succ_cons, hxy, ih]
      · rfl

theorem sharedLength_le (xs ys : List WrittenPath) : sharedLength xs ys ≤ xs.length := by
  induction xs generalizing ys with
  | nil => simp [sharedLength]
  | cons x xs ih =>
    cases ys with
    | nil => simp [sharedLength]
    | cons y ys =>
      rw [sharedLength]
      split
      · exact Nat.succ_le_succ (ih ys)
      · exact Nat.zero_le _

/-! ## 2. The pieces of the way -/

/-- The names of a target behind those that it shares with a folder. -/
def rest (folder target : Path) : List WrittenPath :=
  target.names.drop (sharedLength folder.names target.names)

/-- The pieces of the way from a folder to a target with the same start. -/
def wayPieces (folder target : Path) : List WrittenPath :=
  List.replicate (folder.names.length - sharedLength folder.names target.names) (.ofText "..") ++
    rest folder target

/-- Double dots leave as many directories. -/
theorem enterAll_replicate (p : Path) (k : Nat) :
    p.enterAll (List.replicate k (.ofText "..")) = { p with names := p.names.take (p.names.length - k) } := by
  induction k generalizing p with
  | zero => simp
  | succ k ih =>
    have hup : p.enter ".." = p.parent := by simp [enter]
    rw [List.replicate_succ, enterAll_cons, hup, ih, parent, List.dropLast_eq_take, List.take_take,
      List.length_take]
    congr 2
    omega

/-- Entering pieces keeps the first names, and what is behind them are pieces. -/
theorem exists_names_enterAll (p : Path) (pieces : List WrittenPath) : ∃ n entered,
    (p.enterAll pieces).names = p.names.take n ++ entered ∧ ∀ name ∈ entered, name ∈ pieces := by
  induction pieces generalizing p with
  | nil => exact ⟨p.names.length, [], by simp, by simp⟩
  | cons piece pieces ih =>
    obtain ⟨n, entered, hnames, hentered⟩ := ih (p.enter piece)
    have hlater : ∀ name ∈ entered, name ∈ piece :: pieces :=
      fun name hmem => List.mem_cons_of_mem piece (hentered name hmem)
    rw [enterAll_cons, hnames, enter]
    split
    · exact ⟨n, entered, rfl, hlater⟩
    · split
      · refine ⟨min n (p.names.length - 1), entered, ?_, hlater⟩
        rw [parent, List.dropLast_eq_take, List.take_take]
      · refine ⟨n, [piece].take (n - p.names.length) ++ entered, ?_, ?_⟩
        · rw [child, List.take_append, List.append_assoc]
        · intro name hmem
          rcases List.mem_append.mp hmem with hmem | hmem
          · exact List.mem_singleton.mp (List.mem_of_mem_take hmem) ▸ List.mem_cons_self
          · exact hlater name hmem

section

variable {folder target other : Path}

/-- Behind the double dots of a way are the names that the folder shares with the target. -/
theorem enterAll_back (folder target : Path) (pieces : List WrittenPath) :
    folder.enterAll (List.replicate (folder.names.length - sharedLength folder.names target.names)
      (.ofText "..") ++ pieces) =
      (Path.mk folder.rooted (target.names.take (sharedLength folder.names target.names))).enterAll
        pieces := by
  have hback : folder.names.length - (folder.names.length - sharedLength folder.names target.names) =
      sharedLength folder.names target.names := by
    have := sharedLength_le folder.names target.names
    omega
  rw [enterAll_append, enterAll_replicate, hback, take_sharedLength]

theorem isName_of_mem_rest (ht : target.HasNames) {name : WrittenPath} (h : name ∈ rest folder target) :
    Route.isName name = true := ht name (List.mem_of_mem_drop h)

/-! ## 3. The way as text -/

theorem way_eq (hsame : folder.rooted = target.rooted) :
    way folder target = .joined (wayPieces folder target) := by
  rw [way, if_pos hsame]
  rfl

/-- The mark in front of a way leads nowhere. -/
theorem resolve_relativeText_pieces (folder target : Path) :
    folder.resolve (relativeText folder target) =
      folder.enterAll (WrittenPath.ofText (WrittenPath.withSlashes (way folder target))).pieces := by
  unfold relativeText
  generalize WrittenPath.withSlashes (way folder target) = text
  by_cases hdot : WrittenPath.isRelative text = true
  · have hhead : (WrittenPath.ofText text).toList.head? ≠ some (.char '/') := by
      rw [ne_eq, WrittenPath.head?_ofText, of_decide_eq_true hdot]
      decide
    simp only [hdot, if_true]
    rw [resolve_of_relative hhead]
  · have hmark : WrittenPath.ofText ("./" ++ text) = "." ++ "/" ++ WrittenPath.ofText text := by
      rw [WrittenPath.ofText_append]
      rfl
    have hhere : folder.resolve "." = folder := by
      rw [resolve_of_relative (by decide)]
      rfl
    simp only [hdot, Bool.false_eq_true, if_false]
    rw [hmark, resolve_append folder (by decide), hhere]

/-- **The way enters the parts of the rest**, behind the names that the folder shares with the target. -/
theorem resolve_relativeText_eq (hsame : folder.rooted = target.rooted) (ht : target.HasNames) :
    folder.resolve (relativeText folder target) =
      (Path.mk folder.rooted (target.names.take (sharedLength folder.names target.names))).enterAll
        ((rest folder target).flatMap WrittenPath.parts) := by
  have hdots {k : Nat} : ∀ piece ∈ List.replicate k (WrittenPath.ofText ".."), piece.IsShown := by
    intro piece hpiece
    rw [List.eq_of_mem_replicate hpiece]
    decide
  have hpieces : (wayPieces folder target).flatMap WrittenPath.parts =
      List.replicate (folder.names.length - sharedLength folder.names target.names) (.ofText "..") ++
        (rest folder target).flatMap WrittenPath.parts := by
    rw [wayPieces, List.flatMap_append, WrittenPath.flatMap_parts_of_isShown hdots]
  have hslash : ∀ piece ∈ (wayPieces folder target).flatMap WrittenPath.parts,
      .char '/' ∉ piece.toList := by
    intro piece hpiece
    obtain ⟨name, hname, hpart⟩ := List.mem_flatMap.mp hpiece
    refine WrittenPath.not_mem_of_mem_parts hpart ?_
    rcases List.mem_append.mp hname with hname | hname
    · rw [List.eq_of_mem_replicate hname]
      decide
    · exact Route.not_mem_of_isName (isName_of_mem_rest ht hname)
  rw [resolve_relativeText_pieces, way_eq hsame, WrittenPath.ofText_withSlashes_joined,
    enterAll_pieces_joined hslash, hpieces, enterAll_back]

/-- **The way leads from the folder to the target** just when the names of the rest are shown as
themselves. -/
theorem resolve_relativeText_iff (hsame : folder.rooted = target.rooted) (ht : target.HasNames) :
    folder.resolve (relativeText folder target) = target ↔
      ∀ name ∈ rest folder target, name.IsShown := by
  rw [resolve_relativeText_eq hsame ht]
  constructor
  · intro h name hname
    -- No more than the shared names are kept, so the rest is among the parts that are entered.
    obtain ⟨n, entered, hnames, hentered⟩ := exists_names_enterAll
      (Path.mk folder.rooted (target.names.take (sharedLength folder.names target.names)))
      ((rest folder target).flatMap WrittenPath.parts)
    have hlast : name ∈ target.names.drop (sharedLength folder.names target.names) := hname
    rw [h, List.take_take] at hnames
    generalize sharedLength folder.names target.names = k at hnames hlast
    have hshort : (target.names.take (min n k)).length ≤ k := by
      rw [List.length_take]
      omega
    rw [hnames, List.drop_append, List.drop_eq_nil_of_le hshort, List.nil_append] at hlast
    obtain ⟨whole, _, hpart⟩ := List.mem_flatMap.mp (hentered name (List.mem_of_mem_drop hlast))
    exact WrittenPath.isShown_of_mem_parts hpart
  · intro hshown
    rw [WrittenPath.flatMap_parts_of_isShown hshown,
      enterAll_of_isName fun name hname => isName_of_mem_rest ht hname, rest, List.take_append_drop, hsame]

/-- **Different targets have different ways**, from whatever folder they are seen. -/
theorem eq_of_relativeText (ht : target.IsPlain) (ho : other.IsPlain)
    (hshown : ∀ name ∈ target.names, name.IsShown) (hshown' : ∀ name ∈ other.names, name.IsShown)
    (h : relativeText folder target = relativeText folder other) : target = other := by
  by_cases hroot : folder.rooted = true
  · have hback {q : Path} (hq : q.IsPlain) (hqs : ∀ name ∈ q.names, name.IsShown) :
        folder.resolve (relativeText folder q) = q :=
      (resolve_relativeText_iff (hroot.trans hq.rooted.symm) hq.isName).mpr
        fun name hname => hqs name (List.mem_of_mem_drop hname)
    rw [← hback ht hshown, h, hback ho hshown']
  · -- Seen from a folder that is not rooted a target is shown in full.
    have hfull {q : Path} (hq : q.IsPlain) (hqs : ∀ name ∈ q.names, name.IsShown) :
        WrittenPath.ofText (relativeText folder q) = "./" ++ q.written := by
      have hway : way folder q = q.written := by
        rw [way, if_neg (by simp [hroot, hq.rooted]), if_pos hq.rooted]
      have hself : WrittenPath.ofText (WrittenPath.withSlashes q.written) = q.written :=
        isShown_written hqs
      have hdot : WrittenPath.isRelative (WrittenPath.withSlashes q.written) = false := by
        rw [WrittenPath.isRelative, decide_eq_false_iff_not, ← WrittenPath.head?_ofText, hself,
          toList_written hq.rooted]
        simp
      rw [relativeText, hway, hdot]
      simp only [Bool.false_eq_true, if_false]
      rw [WrittenPath.ofText_append, hself]
    have hwritten : target.written = other.written := by
      have hsame := (hfull ht hshown).symm.trans ((congrArg _ h).trans (hfull ho hshown'))
      rw [← WrittenPath.toList_inj] at hsame ⊢
      exact List.append_cancel_left hsame
    rw [← ofText_written ht, hwritten, ofText_written ho]

end

/-! ## 4. Written paths -/

theorem isShown_of_mem_names {path : WrittenPath} (h : path.IsShown) :
    ∀ name ∈ (ofText path).names, name.IsShown := by
  obtain ⟨htext, hslash⟩ := WrittenPath.isShown_iff.mp h
  refine forall_names_resolve (by simp [empty]) fun name hmem => ?_
  have hletters := Route.mem_of_into_mem hmem
  refine WrittenPath.isShown_iff.mpr ⟨?_, fun hmem => hslash (hletters _ hmem)⟩
  exact WrittenPath.isText_iff.mpr fun l hl => WrittenPath.isText_iff.mp htext l (hletters l hl)

/-- **The relative form and resolution are inverse.**  From any absolute folder, the way to an absolute path
resolves to the path just when the names that it does not share with the folder are shown as themselves, and
so it does to every path that is text without backslashes.  Two such paths that are normal are never shown
alike, whatever the folder. -/
theorem resolved_relativeText {folder path : WrittenPath} (hf : folder.toList.head? = some (.char '/'))
    (hp : path.toList.head? = some (.char '/')) :
    (resolved folder (relativeText (ofText folder) (ofText path)) = resolved path "" ↔
      ∀ name ∈ rest (ofText folder) (ofText path), name.IsShown) ∧
    (path.IsShown →
      resolved folder (relativeText (ofText folder) (ofText path)) = resolved path "") ∧
    ∀ (dir : WrittenPath) (file other : String), IsNormal file → IsNormal other →
      '\\' ∉ file.toList → '\\' ∉ other.toList →
        relativeText (ofText dir) (ofText file) = relativeText (ofText dir) (ofText other) →
          file = other := by
  have hsame : (ofText folder).rooted = (ofText path).rooted :=
    (isPlain_ofText hf).rooted.trans (isPlain_ofText hp).rooted.symm
  have hback : resolved folder (relativeText (ofText folder) (ofText path)) = resolved path "" ↔
      ∀ name ∈ rest (ofText folder) (ofText path), name.IsShown := by
    rw [← resolve_relativeText_iff hsame (hasNames_ofText path), resolved, resolved, resolve_empty]
    refine ⟨fun h => ?_, congrArg written⟩
    rw [← ofText_written_of_hasNames (hasNames_resolve _ _), h,
      ofText_written_of_hasNames (hasNames_ofText path)]
  refine ⟨hback, fun hshown => hback.mpr fun name hname => ?_, ?_⟩
  · exact isShown_of_mem_names hshown name (List.mem_of_mem_drop hname)
  · intro dir file other hfile hother hb hb' h
    have hplain {text : String} (ht : IsNormal text) : (ofText text).IsPlain :=
      isPlain_ofText (WrittenPath.head?_ofText.mpr ht.1)
    have hshown {text : String} (ht : '\\' ∉ text.toList) : (WrittenPath.ofText text).IsShown :=
      WrittenPath.isShown_iff.mpr ⟨WrittenPath.isText_ofText text, by simpa using ht⟩
    have hpath := eq_of_relativeText (hplain hfile) (hplain hother)
      (isShown_of_mem_names (hshown hb)) (isShown_of_mem_names (hshown hb')) h
    rw [← WrittenPath.ofText_inj, ← hfile.2, hpath, hother.2]

/-- The way to a name that starts with a dot has no other mark in front. -/
theorem resolved_relativeText_hidden :
    (WrittenPath.ofText "/w//x/../b").toList.head? = some (.char '/') ∧
      (WrittenPath.ofText "/w/b/.c/d.ts").toList.head? = some (.char '/') ∧
      WrittenPath.IsShown "/w/b/.c/d.ts" ∧
      resolved "/w//x/../b" (relativeText (ofText "/w//x/../b") (ofText "/w/b/.c/d.ts")) =
        resolved "/w/b/.c/d.ts" "" ∧
      relativeText (ofText "/w//x/../b") (ofText "/w/b/.c/d.ts") = ".c/d.ts" ∧
      IsNormal "/w/b/.c/d.ts" ∧ IsNormal "/w/b/c/d.ts" ∧
      relativeText (ofText "") (ofText "/w/b/.c/d.ts") ≠
        relativeText (ofText "") (ofText "/w/b/c/d.ts") := by
  obtain ⟨_, hback, hdiffer⟩ := @resolved_relativeText "/w//x/../b" "/w/b/.c/d.ts" (by decide) (by decide)
  have hshown : WrittenPath.IsShown "/w/b/.c/d.ts" := by decide
  have hfile : IsNormal "/w/b/.c/d.ts" := ⟨by decide, by decide⟩
  have hother : IsNormal "/w/b/c/d.ts" := ⟨by decide, by decide⟩
  refine ⟨by decide, by decide, hshown, hback hshown, by decide, hfile, hother, fun h => ?_⟩
  exact absurd (hdiffer _ _ _ hfile hother (by decide) (by decide) h) (by decide)

/-- The path of a file in a directory, whose name starts with a byte that is no text. -/
def strayFile (byte : UInt8) : WrittenPath := "/w/" ++ .strayName byte ".ts"

/-- **Where names are not shown as themselves** the way leads elsewhere, and two files are shown alike: by
their bytes that are no text, or by a backslash and a slash. -/
theorem relativeText_misleads :
    (.char '\\' ∉ (strayFile 0xFF).toList ∧
      resolved "/w" (relativeText (ofText "/w") (ofText (strayFile 0xFF))) ≠
        resolved (strayFile 0xFF) "") ∧
    (resolved (strayFile 0xFE) "" ≠ resolved (strayFile 0xFF) "" ∧
      relativeText (ofText "/w") (ofText (strayFile 0xFE)) =
        relativeText (ofText "/w") (ofText (strayFile 0xFF))) ∧
    (IsNormal "/w/a\\b.ts" ∧ IsNormal "/w/a/b.ts" ∧
      relativeText (ofText "/w") (ofText "/w/a\\b.ts") =
        relativeText (ofText "/w") (ofText "/w/a/b.ts")) := by
  unfold IsNormal
  decide +kernel

end Tsconfig.Path
