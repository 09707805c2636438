/-
# Paths as they are written and shown

A lexically normal path whose names are names (`Path.IsPlain`) is read as itself where it is written
(`Path.parse_written`), so it may be passed on as it is written.  Every path that is resolved against a
plain one is plain, because what is cut at slashes holds no slash, and a dot or two is no name of a step
(`Route.isName_of_into_mem`).  With these, the file of a name in a directory is the same whether the
name is put behind the route or behind what is written (`Path.append_parse`).

What is shown of a path with slashes is the path only where it is text and has no backslash
(`WrittenPath.isShown_iff`).
-/
import Tsconfig.Descriptor.Store

namespace Tsconfig

/-! ## 1. Pieces -/

namespace Text

variable {α : Type} [DecidableEq α]

theorem pieces_ne_nil (sep : α) (cs : List α) : pieces sep cs ≠ [] := by
  cases cs with
  | nil => simp [pieces]
  | cons c cs =>
    unfold pieces
    split
    · simp
    · split <;> simp

theorem pieces_of_not_mem {sep : α} {cs : List α} (h : sep ∉ cs) : pieces sep cs = [cs] := by
  induction cs with
  | nil => rfl
  | cons c cs ih =>
    rw [List.mem_cons, not_or] at h
    rw [pieces, if_neg (Ne.symm h.1), ih h.2]

/-- Two texts with a separator in between are cut apart. -/
theorem pieces_append_cons (sep : α) (cs rest : List α) :
    pieces sep (cs ++ sep :: rest) = pieces sep cs ++ pieces sep rest := by
  induction cs with
  | nil => simp [pieces]
  | cons c cs ih =>
    obtain ⟨p, ps, hps⟩ := List.exists_cons_of_ne_nil (pieces_ne_nil sep cs)
    rw [hps] at ih
    rw [List.cons_append, pieces, pieces, ih, hps]
    split <;> rfl

/-- A piece in front of a separator is cut off. -/
theorem pieces_append {sep : α} {cs : List α} (h : sep ∉ cs) (rest : List α) :
    pieces sep (cs ++ sep :: rest) = cs :: pieces sep rest := by
  rw [pieces_append_cons, pieces_of_not_mem h]
  rfl

theorem not_mem_of_mem_pieces {sep : α} {cs piece : List α} (h : piece ∈ pieces sep cs) :
    sep ∉ piece := by
  induction cs generalizing piece with
  | nil =>
    obtain rfl : piece = [] := by simpa [pieces] using h
    simp
  | cons c cs ih =>
    rw [pieces] at h
    split at h
    · rcases List.mem_cons.mp h with rfl | h
      · simp
      · exact ih h
    · next hc =>
      cases hp : pieces sep cs with
      | nil => exact absurd hp (pieces_ne_nil sep cs)
      | cons p ps =>
        rw [hp] at h ih
        rcases List.mem_cons.mp h with rfl | h
        · rw [List.mem_cons, not_or]
          exact ⟨Ne.symm hc, ih List.mem_cons_self⟩
        · exact ih (List.mem_cons_of_mem p h)

theorem mem_of_mem_pieces {sep : α} {cs piece : List α} (h : piece ∈ pieces sep cs) :
    ∀ c ∈ piece, c ∈ cs := by
  induction cs generalizing piece with
  | nil =>
    obtain rfl : piece = [] := by simpa [pieces] using h
    simp
  | cons d cs ih =>
    rw [pieces] at h
    split at h
    · rcases List.mem_cons.mp h with rfl | h
      · simp
      · exact fun c hc => List.mem_cons_of_mem d (ih h c hc)
    · cases hp : pieces sep cs with
      | nil => exact absurd hp (pieces_ne_nil sep cs)
      | cons p ps =>
        rw [hp] at h ih
        rcases List.mem_cons.mp h with rfl | h
        · intro c hc
          rcases List.mem_cons.mp hc with rfl | hc
          · exact List.mem_cons_self
          · exact List.mem_cons_of_mem d (ih List.mem_cons_self c hc)
        · exact fun c hc => List.mem_cons_of_mem d (ih (List.mem_cons_of_mem p h) c hc)

end Text

namespace WrittenPath

theorem joined_cons_cons (x y : WrittenPath) (xs : List WrittenPath) :
    joined (x :: y :: xs) = x ++ "/" ++ joined (y :: xs) := rfl

theorem joined_append {xs ys : List WrittenPath} (hx : xs ≠ []) (hy : ys ≠ []) :
    joined (xs ++ ys) = joined xs ++ "/" ++ joined ys := by
  induction xs with
  | nil => exact absurd rfl hx
  | cons x xs ih =>
    cases xs with
    | nil =>
      obtain ⟨y, ys, rfl⟩ := List.exists_cons_of_ne_nil hy
      rfl
    | cons z zs =>
      rw [List.cons_append, List.cons_append, joined_cons_cons, joined_cons_cons,
        ← List.cons_append, ih (by simp)]
      simp only [append_assoc]

theorem joined_concat {xs : List WrittenPath} (h : xs ≠ []) (x : WrittenPath) :
    joined (xs ++ [x]) = joined xs ++ "/" ++ x := joined_append h (by simp)

theorem mem_of_mem_joined {l : Letter} {xs : List WrittenPath} (h : l ∈ (joined xs).toList) :
    l = .char '/' ∨ ∃ x ∈ xs, l ∈ x.toList := by
  induction xs with
  | nil => simp [joined] at h
  | cons x xs ih =>
    cases xs with
    | nil => exact .inr ⟨x, List.mem_cons_self, h⟩
    | cons y ys =>
      simp only [joined_cons_cons, toList_append, List.mem_append] at h
      rcases h with (h | h) | h
      · exact .inr ⟨x, List.mem_cons_self, h⟩
      · exact .inl (by simpa using h)
      · rcases ih h with h | ⟨z, hz, h⟩
        · exact .inl h
        · exact .inr ⟨z, List.mem_cons_of_mem x hz, h⟩

theorem not_mem_joined {l : Letter} (hl : l ≠ '/') {xs : List WrittenPath}
    (h : ∀ x ∈ xs, l ∉ x.toList) : l ∉ (joined xs).toList := by
  intro hmem
  rcases mem_of_mem_joined hmem with hslash | ⟨x, hx, hmem⟩
  · exact hl hslash
  · exact h x hx hmem

theorem mem_joined {x : WrittenPath} {xs : List WrittenPath} (hx : x ∈ xs) {l : Letter}
    (hl : l ∈ x.toList) : l ∈ (joined xs).toList := by
  induction xs with
  | nil => simp at hx
  | cons y ys ih =>
    cases ys with
    | nil =>
      obtain rfl : x = y := by simpa using hx
      exact hl
    | cons z zs =>
      simp only [joined_cons_cons, toList_append, List.mem_append]
      rcases List.mem_cons.mp hx with rfl | hx
      · exact .inl (.inl hl)
      · exact .inr (ih hx)

theorem pieces_of_not_mem {name : WrittenPath} (h : .char '/' ∉ name.toList) :
    name.pieces = [name] := by
  rw [pieces, Text.pieces_of_not_mem h, List.map_singleton, ofList_toList]

/-- A piece in front of a slash is cut off. -/
theorem pieces_append {name : WrittenPath} (h : .char '/' ∉ name.toList) (rest : WrittenPath) :
    (name ++ "/" ++ rest).pieces = name :: rest.pieces := by
  have hlist : (name ++ "/" ++ rest).toList = name.toList ++ .char '/' :: rest.toList := by simp
  rw [pieces, hlist, Text.pieces_append h, List.map_cons, ofList_toList]
  rfl

/-- Pieces without a slash that are joined by slashes are what the path is cut into. -/
theorem pieces_joined {names : List WrittenPath} (h : ∀ name ∈ names, .char '/' ∉ name.toList)
    (hne : names ≠ []) : (joined names).pieces = names := by
  induction names with
  | nil => exact absurd rfl hne
  | cons x xs ih =>
    have hx : .char '/' ∉ x.toList := h x List.mem_cons_self
    cases xs with
    | nil => exact pieces_of_not_mem hx
    | cons y ys =>
      have hrest := ih (fun name hmem => h name (List.mem_cons_of_mem x hmem)) (by simp)
      rw [joined_cons_cons, pieces_append hx, hrest]

end WrittenPath

/-! ## 2. Routes -/

namespace Route

theorem isName_iff {piece : WrittenPath} : isName piece = true ↔
    piece ≠ "" ∧ piece ≠ "." ∧ piece ≠ ".." ∧ .char '/' ∉ piece.toList := by
  simp [isName, and_assoc]

theorem not_mem_of_isName {name : WrittenPath} (h : isName name = true) : .char '/' ∉ name.toList :=
  (isName_iff.mp h).2.2.2

theorem stepOf_of_isName {name : WrittenPath} (h : isName name = true) : stepOf name = .into name := by
  obtain ⟨_, hd, hdd, _⟩ := isName_iff.mp h
  rw [stepOf, if_neg hd, if_neg hdd]

theorem laterSteps_of_isName {names : List WrittenPath} (h : ∀ name ∈ names, isName name = true) :
    laterSteps names = names.map .into := by
  induction names with
  | nil => rfl
  | cons name names ih =>
    have hname := h name List.mem_cons_self
    obtain ⟨he, hd, _⟩ := isName_iff.mp hname
    rw [laterSteps, if_neg he, if_neg hd, stepOf_of_isName hname,
      ih fun other hmem => h other (List.mem_cons_of_mem name hmem), List.map_cons]

theorem into_mem_laterSteps {pieces : List WrittenPath} {name : WrittenPath}
    (h : Step.into name ∈ laterSteps pieces) :
    name ∈ pieces ∧ name ≠ "" ∧ name ≠ "." ∧ name ≠ ".." := by
  induction pieces with
  | nil => simp [laterSteps] at h
  | cons piece pieces ih =>
    have hlater (h : Step.into name ∈ laterSteps pieces) :
        name ∈ piece :: pieces ∧ name ≠ "" ∧ name ≠ "." ∧ name ≠ ".." :=
      ⟨List.mem_cons_of_mem piece (ih h).1, (ih h).2⟩
    rw [laterSteps] at h
    split at h
    · exact hlater h
    · next he =>
      split at h
      · split at h
        · simp at h
        · exact hlater h
      · next hd =>
        rcases List.mem_cons.mp h with h | h
        · rw [stepOf, if_neg hd] at h
          split at h
          · simp at h
          · next hdd =>
            obtain rfl : name = piece := by simpa using h
            exact ⟨List.mem_cons_self, he, hd, hdd⟩
        · exact hlater h

theorem into_mem_relativeSteps {pieces : List WrittenPath} {name : WrittenPath}
    (h : Step.into name ∈ relativeSteps pieces) :
    name ∈ pieces ∧ name ≠ "" ∧ name ≠ "." ∧ name ≠ ".." := by
  cases pieces with
  | nil => simp [relativeSteps] at h
  | cons piece pieces =>
    rw [relativeSteps] at h
    split at h
    · have hlater : Step.into name ∈ laterSteps pieces := by simpa using h
      obtain ⟨hmem, hname⟩ := into_mem_laterSteps hlater
      exact ⟨List.mem_cons_of_mem piece hmem, hname⟩
    · exact into_mem_laterSteps h

/-- What a written path steps into is one of its pieces, and neither empty nor a dot or two. -/
theorem mem_pieces_of_into_mem {path name : WrittenPath} (h : Step.into name ∈ (parse path).steps) :
    name ∈ path.pieces ∧ name ≠ "" ∧ name ≠ "." ∧ name ≠ ".." := by
  unfold parse at h
  split at h
  · simp at h
  · next only heq =>
    rw [heq]
    exact into_mem_relativeSteps h
  · next first rest _ heq =>
    rw [heq]
    simp only at h
    split at h
    · obtain ⟨hmem, hname⟩ := into_mem_laterSteps h
      exact ⟨List.mem_cons_of_mem first hmem, hname⟩
    · exact into_mem_relativeSteps h

/-- **A written path steps into names only.** -/
theorem isName_of_into_mem {path name : WrittenPath} (h : Step.into name ∈ (parse path).steps) :
    isName name = true := by
  obtain ⟨hmem, he, hd, hdd⟩ := mem_pieces_of_into_mem h
  obtain ⟨piece, hpiece, rfl⟩ := List.mem_map.mp hmem
  exact isName_iff.mpr ⟨he, hd, hdd, Text.not_mem_of_mem_pieces hpiece⟩

/-- The letters of the names are letters of the path. -/
theorem mem_of_into_mem {path name : WrittenPath} (h : Step.into name ∈ (parse path).steps) :
    ∀ l ∈ name.toList, l ∈ path.toList := by
  obtain ⟨hmem, _⟩ := mem_pieces_of_into_mem h
  obtain ⟨piece, hpiece, rfl⟩ := List.mem_map.mp hmem
  exact Text.mem_of_mem_pieces hpiece

theorem rooted_parse {path : WrittenPath} (h : path.toList.head? = some (.char '/')) :
    (parse path).rooted = true := by
  obtain ⟨rest, hrest⟩ := List.head?_eq_some_iff.mp h
  have hsplit : path.pieces = .ofText "" :: (Text.pieces (.char '/') rest).map WrittenPath.ofList := by
    rw [WrittenPath.pieces, hrest]
    rfl
  obtain ⟨p, ps, hps⟩ := List.exists_cons_of_ne_nil (Text.pieces_ne_nil (.char '/') rest)
  simp [parse, hsplit, hps]

end Route

/-! ## 3. Plain paths -/

namespace Path

/-- The names of a path are names. -/
def HasNames (p : Path) : Prop := ∀ name ∈ p.names, Route.isName name = true

/-- A path from the root whose names are names. -/
structure IsPlain (p : Path) : Prop where
  rooted : p.rooted = true
  isName : p.HasNames

section

variable {p : Path}

theorem isPlain_root : root.IsPlain := ⟨rfl, by simp [HasNames, root]⟩

theorem HasNames.parent (h : p.HasNames) : p.parent.HasNames :=
  fun name hmem => h name (List.dropLast_subset _ hmem)

theorem HasNames.child (h : p.HasNames) {name : WrittenPath} (hn : Route.isName name = true) :
    (p.child name).HasNames := by
  intro other hmem
  rcases List.mem_append.mp hmem with hmem | hmem
  · exact h other hmem
  · obtain rfl : other = name := by simpa using hmem
    exact hn

theorem IsPlain.parent (h : p.IsPlain) : p.parent.IsPlain := ⟨h.rooted, h.isName.parent⟩

theorem IsPlain.child (h : p.IsPlain) {name : WrittenPath} (hn : Route.isName name = true) :
    (p.child name).IsPlain := ⟨h.rooted, h.isName.child hn⟩

/-- A path other than the root lies in its parent. -/
theorem parent_child (h : p.names ≠ []) : p.parent.child (p.names.getLast h) = p := by
  simp [parent, child, List.dropLast_concat_getLast]

theorem rooted_along (steps : List Step) : (p.along steps).rooted = p.rooted := by
  induction steps generalizing p with
  | nil => rfl
  | cons step steps ih => cases step <;> exact ih

/-- What holds of the names of a path and of the names that are stepped into holds of all names. -/
theorem forall_names_along {Q : WrittenPath → Prop} {steps : List Step} (hp : ∀ name ∈ p.names, Q name)
    (hs : ∀ name, Step.into name ∈ steps → Q name) : ∀ name ∈ (p.along steps).names, Q name := by
  induction steps generalizing p with
  | nil => exact hp
  | cons step steps ih =>
    have hstep : ∀ name ∈ (p.step step).names, Q name := by
      cases step with
      | here => exact hp
      | up => exact fun name hmem => hp name (List.dropLast_subset _ hmem)
      | into other =>
        intro name hmem
        rcases List.mem_append.mp hmem with hmem | hmem
        · exact hp name hmem
        · obtain rfl : name = other := by simpa using hmem
          exact hs name List.mem_cons_self
    exact ih hstep fun name hmem => hs name (List.mem_cons_of_mem step hmem)

/-- The names of a path that is resolved against another one. -/
theorem forall_names_resolve {Q : WrittenPath → Prop} {path : WrittenPath}
    (hp : ∀ name ∈ p.names, Q name) (hs : ∀ name, Step.into name ∈ (Route.parse path).steps → Q name) :
    ∀ name ∈ (p.resolve path).names, Q name := by
  unfold Path.resolve follow
  split
  · exact forall_names_along (by simp [root]) hs
  · exact forall_names_along hp hs

theorem HasNames.resolve (h : p.HasNames) (path : WrittenPath) : (p.resolve path).HasNames :=
  forall_names_resolve h fun _ hmem => Route.isName_of_into_mem hmem

theorem rooted_resolve (h : p.rooted = true) (path : WrittenPath) : (p.resolve path).rooted = true := by
  unfold Path.resolve follow
  split
  · exact rooted_along _
  · exact (rooted_along _).trans h

/-- **Whatever is resolved against a plain path is plain.** -/
theorem IsPlain.resolve (h : p.IsPlain) (path : WrittenPath) : (p.resolve path).IsPlain :=
  ⟨rooted_resolve h.rooted path, h.isName.resolve path⟩

/-- An absolute path is plain, whatever is made of its dots. -/
theorem isPlain_ofText {path : WrittenPath} (h : path.toList.head? = some (.char '/')) :
    (ofText path).IsPlain := by
  have hroot : ofText path = root.resolve path := by
    simp [ofText, Path.resolve, follow, Route.rooted_parse h]
  rw [hroot]
  exact isPlain_root.resolve path

/-- A letter that is in neither of two paths is in no path that is resolved from them. -/
theorem not_mem_names_resolve {l : Letter} {path : WrittenPath}
    (hp : ∀ name ∈ p.names, l ∉ name.toList) (ht : l ∉ path.toList) :
    ∀ name ∈ (p.resolve path).names, l ∉ name.toList :=
  forall_names_resolve hp fun _ hmem hmem' => ht (Route.mem_of_into_mem hmem l hmem')

theorem mem_written {l : Letter} {name : WrittenPath} (hname : name ∈ p.names)
    (hl : l ∈ name.toList) : l ∈ p.written.toList := by
  rw [written, WrittenPath.toList_append, List.mem_append]
  exact .inr (WrittenPath.mem_joined hname hl)

theorem not_mem_names {l : Letter} (h : l ∉ p.written.toList) : ∀ name ∈ p.names, l ∉ name.toList :=
  fun _ hname hl => h (mem_written hname hl)

theorem not_mem_written {l : Letter} (hl : l ≠ '/') (hp : ∀ name ∈ p.names, l ∉ name.toList) :
    l ∉ p.written.toList := by
  have hjoin : l ∉ (WrittenPath.joined p.names).toList := WrittenPath.not_mem_joined hl hp
  rw [written, WrittenPath.toList_append, List.mem_append, not_or]
  refine ⟨?_, hjoin⟩
  split
  · simpa using hl
  · simp

theorem IsPlain.take (h : p.IsPlain) (n : Nat) : { p with names := p.names.take n }.IsPlain :=
  ⟨h.rooted, fun name hmem => h.isName name (List.mem_of_mem_take hmem)⟩

theorem written_of_rooted (h : p.rooted = true) : p.written = "/" ++ .joined p.names := by
  rw [written, h, if_pos rfl]

theorem toList_written (h : p.rooted = true) :
    p.written.toList = .char '/' :: (WrittenPath.joined p.names).toList := by
  rw [written_of_rooted h]
  rfl

/-- A path from the root is cut into its names. -/
theorem pieces_written (h : p.rooted = true) (hs : ∀ name ∈ p.names, .char '/' ∉ name.toList)
    (hne : p.names ≠ []) : p.written.pieces = .ofText "" :: p.names := by
  have hroot : p.written = "" ++ "/" ++ WrittenPath.joined p.names := written_of_rooted h
  rw [hroot, WrittenPath.pieces_append (by simp), WrittenPath.pieces_joined hs hne]

/-- **A path whose names are names is read as itself where it is written.** -/
theorem parse_written_of_hasNames (h : p.HasNames) : Route.parse p.written = p.route := by
  have hslash : ∀ name ∈ p.names, .char '/' ∉ name.toList := fun name hmem =>
    Route.not_mem_of_isName (h name hmem)
  have hempty : (.ofText "") ∉ p.names := fun hmem => (Route.isName_iff.mp (h "" hmem)).1 rfl
  have hsteps : Route.laterSteps p.names = p.names.map .into := Route.laterSteps_of_isName h
  obtain ⟨rooted, names⟩ := p
  simp only at hslash hempty hsteps
  unfold Route.parse
  cases names with
  | nil => cases rooted <;> rfl
  | cons name names =>
    have hlast : (name :: names).getLast? ≠ some (.ofText "") :=
      fun hlast => hempty (List.mem_of_getLast? hlast)
    cases rooted with
    | true =>
      have hsplit : (Path.mk true (name :: names)).written.pieces = .ofText "" :: name :: names :=
        pieces_written rfl hslash (by simp)
      simp only [hsplit, if_true, hsteps, route]
      simp [hlast]
    | false =>
      have hjoin : (WrittenPath.joined (name :: names)).pieces = name :: names :=
        WrittenPath.pieces_joined hslash (by simp)
      have htext : (Path.mk false (name :: names)).written = .joined (name :: names) := by
        simp [written]
      have hname : name ≠ "" ∧ name ≠ "." := by
        have := Route.isName_iff.mp (h name List.mem_cons_self)
        exact ⟨this.1, this.2.1⟩
      have hfirst : Route.relativeSteps (name :: names) = (name :: names).map .into := by
        rw [Route.relativeSteps, if_neg hname.2, hsteps]
      rw [htext, hjoin]
      cases names with
      | nil => simp [hfirst, route, htext]
      | cons other names =>
        simp only [hname.1, if_false, hfirst, route, htext]
        have hend : (other :: names).getLast? ≠ some (.ofText "") := by
          simpa using hlast
        simp [hend]

/-- **A plain path is read as itself where it is written.** -/
theorem parse_written (h : p.IsPlain) : Route.parse p.written = p.route :=
  parse_written_of_hasNames h.isName

theorem ofText_written_of_hasNames (h : p.HasNames) : ofText p.written = p := by
  rw [ofText, Path.resolve, parse_written_of_hasNames h, empty_follow_route]

theorem ofText_written (h : p.IsPlain) : ofText p.written = p := ofText_written_of_hasNames h.isName

/-- What is in front of a name behind a path. -/
def front (p : Path) : WrittenPath := if p.names = [] then "/" else p.written ++ "/"

theorem written_child (h : p.rooted = true) (name : WrittenPath) :
    (p.child name).written = p.front ++ name := by
  unfold front
  split
  · next hnil => simp [written, child, h, hnil, WrittenPath.joined]
  · next hne =>
    have hchild : (p.child name).rooted = true := h
    rw [written_of_rooted h, written_of_rooted hchild, child, WrittenPath.joined_concat hne]
    simp only [WrittenPath.append_assoc]

/-- Putting a name behind the route is putting it behind the path. -/
theorem append_parse (h : p.IsPlain) {name : WrittenPath} (hn : Route.isName name = true) :
    p.route.append (Route.parse name) = (p.child name).route := by
  obtain ⟨_, hd, _, hs⟩ := Route.isName_iff.mp hn
  have hparse : Route.parse name = ⟨false, [.into name], false, name.size⟩ := by
    have hsplit := WrittenPath.pieces_of_not_mem hs
    have hsteps : Route.laterSteps [name] = [.into name] :=
      Route.laterSteps_of_isName (by simpa using hn)
    simp [Route.parse, hsplit, Route.relativeSteps, hd, hsteps]
  have hsize : (p.child name).route.size =
      (if p.route.isOpen then p.route.size + name.size else p.route.size + 1 + name.size) := by
    have hopen : p.route.isOpen = decide (p.names = []) := by
      cases hnames : p.names <;> simp [Route.isOpen, Route.isEmpty, route, h.rooted, hnames]
    have hslash : (WrittenPath.ofText "/").size = 1 := by decide
    rw [route, written_child h.rooted, hopen, WrittenPath.size_append, front]
    by_cases hnil : p.names = []
    · simp [hnil, route, written, h.rooted, WrittenPath.joined]
    · simp [hnil, route, hslash]
  rw [hparse, Route.append]
  simp only [Bool.false_eq_true, if_false, List.isEmpty_cons, ← hsize]
  simp [route, child]

end

end Path

/-! ## 4. Slashes for backslashes -/

namespace WrittenPath

/-- A character shows where it is a letter, but for the one that stands for other bytes. -/
theorem mem_shown {path : WrittenPath} {c : Char} (hc : c ≠ Letter.replacement) :
    c ∈ path.shown.toList ↔ .char c ∈ path.toList := by
  rw [shown, String.toList_ofList, List.mem_map]
  constructor
  · rintro ⟨l, hl, rfl⟩
    cases l with
    | char c => exact hl
    | stray byte more => exact absurd rfl hc
  · intro hl
    exact ⟨_, hl, rfl⟩

theorem not_mem_withSlashes (path : WrittenPath) : '\\' ∉ (withSlashes path).toList := by
  rw [withSlashes, String.toList_ofList, List.mem_map]
  rintro ⟨c, _, hc⟩
  split at hc
  · exact absurd hc (by decide)
  · next hne => exact hne hc

/-- A path without backslashes is shown as it is. -/
theorem withSlashes_of_not_mem {path : WrittenPath} (h : .char '\\' ∉ path.toList) :
    withSlashes path = path.shown := by
  rw [← mem_shown (by decide)] at h
  have hmap : path.shown.toList.map (fun c => if c = '\\' then '/' else c) = path.shown.toList := by
    conv => rhs; rw [← List.map_id path.shown.toList]
    refine List.map_congr_left fun c hc => ?_
    have hne : c ≠ '\\' := by
      rintro rfl
      exact h hc
    simp [hne]
  rw [withSlashes, hmap, String.ofList_toList]

/-- What is shown of a path with slashes is the path itself. -/
def IsShown (path : WrittenPath) : Prop := ofText (withSlashes path) = path

instance (path : WrittenPath) : Decidable path.IsShown := inferInstanceAs (Decidable (_ = _))

/-- **A path is shown as itself** just when it is text and has no backslash. -/
theorem isShown_iff {path : WrittenPath} :
    path.IsShown ↔ path.IsText ∧ .char '\\' ∉ path.toList := by
  constructor
  · intro h
    rw [← h]
    exact ⟨isText_ofText _, by simpa using not_mem_withSlashes path⟩
  · rintro ⟨htext, hslash⟩
    rw [IsShown, withSlashes_of_not_mem hslash]
    exact htext

/-- What is joined of names that are text is text. -/
theorem isText_joined {names : List WrittenPath} (h : ∀ name ∈ names, name.IsText) :
    (joined names).IsText := by
  refine isText_iff.mpr fun l hl => ?_
  rcases mem_of_mem_joined hl with rfl | ⟨name, hname, hl⟩
  · rfl
  · exact isText_iff.mp (h name hname) l hl

/-- What is joined of names that are shown as themselves is shown as itself. -/
theorem isShown_joined {names : List WrittenPath} (h : ∀ name ∈ names, name.IsShown) :
    (joined names).IsShown := by
  refine isShown_iff.mpr ⟨isText_joined fun name hname => (isShown_iff.mp (h name hname)).1, ?_⟩
  exact not_mem_joined (by decide) fun name hname => (isShown_iff.mp (h name hname)).2

/-- A text behind a byte that is no text. -/
def strayName (byte : UInt8) (text : String) : WrittenPath :=
  .ofList (.stray byte [] :: (ofText text).toList)

end WrittenPath

/-! ## 5. Paths of a file system -/

namespace FileSystem

/-- The root is written with names only. -/
theorem isPlain_nil : ([] : Location).all Route.isName = true := rfl

theorem isPlain_workingPath (fs : FileSystem) : fs.workingPath.IsPlain :=
  ⟨rfl, fun name hmem => List.all_eq_true.mp fs.isPlain name hmem⟩

theorem isPlain_absolute (fs : FileSystem) (path : WrittenPath) : (fs.absolute path).IsPlain :=
  fs.isPlain_workingPath.resolve path

/-- A plain path is absolute. -/
theorem absolute_written (fs : FileSystem) {p : Path} (h : p.IsPlain) :
    fs.absolute p.written = p := by
  rw [absolute, Path.resolve, Path.parse_written h, Path.follow_route _ _ h.rooted]

theorem isPlain_directoryOf (fs : FileSystem) {p : Path} (h : p.IsPlain) :
    (fs.directoryOf p).IsPlain := by
  unfold directoryOf
  split
  · exact h
  · exact h.parent

theorem names_directoryOf {fs : FileSystem} {p : Path} {name : WrittenPath}
    (h : name ∈ (fs.directoryOf p).names) : name ∈ p.names := by
  unfold directoryOf at h
  split at h
  · exact h
  · exact List.dropLast_subset _ h

/-- A path in which the name is there is the nearest one. -/
theorem nearestWith?_self {fs : FileSystem} {p : Path} {name : Route}
    (h : fs.isFile (p.route.append name) = true) : fs.nearestWith? p name = some p := by
  have htake : { p with names := p.names.take (p.names.length - 0) } = p := by
    rw [Nat.sub_zero, List.take_length]
  rw [nearestWith?, ancestors, List.range_succ_eq_map, List.map_cons, htake, List.find?_cons, h]

theorem isPlain_of_mem_ancestors {p q : Path} (h : p.IsPlain) (hq : q ∈ ancestors p) :
    q.IsPlain := by
  obtain ⟨n, _, rfl⟩ := List.mem_map.mp hq
  exact h.take _

/-- The directory that is found above a plain path is plain. -/
theorem isPlain_nearestWith? (fs : FileSystem) {p dir : Path} {name : Route} (h : p.IsPlain)
    (hd : fs.nearestWith? p name = some dir) : dir.IsPlain :=
  isPlain_of_mem_ancestors h (List.mem_of_find?_eq_some hd)

end FileSystem

end Tsconfig
