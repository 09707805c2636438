/-
# The name at the end of a path and its extension

A text is cut behind its last slash (`LastCut`), and if a written path ends in a step into a name, that name
is what stands behind the cut (`LastCut.of_parse`).  A name is cut in turn at its last dot
(`splitName_cases`), and another extension is put behind what stands in front of it
(`LastCut.withExtension`).

So the temporary file of `tsconfig.json` is `tsconfig.json.tmp` (`temporaryPath_child`), and **no path is
its own temporary path**: an extension has no dot, and that of a temporary file has one
(`name_ne_temporary`).
-/
import Tsconfig.Proofs.Path.Pieces

namespace Tsconfig

/-! ## 1. The last piece -/

namespace Route

theorem laterSteps_eq_nil {pieces : List WrittenPath} :
    laterSteps pieces = [] ↔ ∀ piece ∈ pieces, piece = "" := by
  induction pieces with
  | nil => simp [laterSteps]
  | cons piece rest ih =>
    by_cases he : piece = ""
    · simp [laterSteps, he, ih]
    · have hne : laterSteps (piece :: rest) ≠ [] := by
        rw [laterSteps, if_neg he]
        split
        · split
          · simp
          · next hall =>
            intro hnil
            refine hall (List.all_eq_true.mpr fun other hmem => ?_)
            simp [ih.mp hnil other hmem]
        · simp
      simp [hne, he]

/-- Steps that end in a name end where the pieces do, empty ones aside. -/
theorem getLast?_laterSteps {pieces : List WrittenPath} {name : WrittenPath}
    (h : (laterSteps pieces).getLast? = some (.into name)) :
    pieces.getLast? = some name ∨ pieces.getLast? = some (.ofText "") := by
  induction pieces with
  | nil => simp [laterSteps] at h
  | cons piece rest ih =>
    -- What is behind the first piece has a last one, and that is the last one of all.
    have hrest (h : (laterSteps rest).getLast? = some (.into name)) :
        (piece :: rest).getLast? = some name ∨ (piece :: rest).getLast? = some (.ofText "") := by
      cases rest with
      | nil => simp [laterSteps] at h
      | cons other rest => simpa [List.getLast?_cons_cons] using ih h
    rw [laterSteps] at h
    split at h
    · exact hrest h
    · split at h
      · split at h
        · simp at h
        · exact hrest h
      · cases hsteps : laterSteps rest with
        | nil =>
          rw [hsteps] at h
          have hstep : stepOf piece = .into name := by simpa using h
          obtain rfl : piece = name := by
            unfold stepOf at hstep
            split at hstep
            · simp at hstep
            · split at hstep
              · simp at hstep
              · simpa using hstep
          cases rest with
          | nil => exact .inl rfl
          | cons other rest =>
            rw [List.getLast?_cons_cons, List.getLast?_eq_some_getLast (by simp)]
            exact .inr (congrArg some (laterSteps_eq_nil.mp hsteps _ (List.getLast_mem _)))
        | cons step steps =>
          rw [hsteps, List.getLast?_cons_cons, ← hsteps] at h
          exact hrest h

theorem getLast?_relativeSteps {pieces : List WrittenPath} {name : WrittenPath}
    (h : (relativeSteps pieces).getLast? = some (.into name)) :
    pieces.getLast? = some name ∨ pieces.getLast? = some (.ofText "") := by
  cases pieces with
  | nil => simp [relativeSteps] at h
  | cons piece rest =>
    rw [relativeSteps] at h
    split at h
    · cases hsteps : laterSteps rest with
      | nil => simp [hsteps] at h
      | cons step steps =>
        rw [hsteps, List.getLast?_cons_cons, ← hsteps] at h
        cases rest with
        | nil => simp [laterSteps] at hsteps
        | cons other rest => simpa [List.getLast?_cons_cons] using getLast?_laterSteps h
    · exact getLast?_laterSteps h

/-- **A path that ends in a step into a name, and not in a slash, has the name for its last piece.** -/
theorem getLast?_pieces_of_parse {text name : WrittenPath}
    (h : (parse text).steps.getLast? = some (.into name)) (hslash : (parse text).slash = false) :
    (text.pieces).getLast? = some name := by
  unfold parse at h hslash
  split at h
  · simp at h
  · next only heq =>
    have hsteps : (relativeSteps [only]).getLast? = some (.into name) := h
    rw [heq]
    rcases getLast?_relativeSteps hsteps with hname | hempty
    · exact hname
    · obtain rfl : only = "" := by simpa using hempty
      simp [relativeSteps, laterSteps] at hsteps
  · next first rest hrest heq =>
    simp only [heq] at h hslash
    have hlast : (first :: rest).getLast? = rest.getLast? := by
      obtain ⟨other, rest, rfl⟩ := List.exists_cons_of_ne_nil hrest
      rw [List.getLast?_cons_cons]
    have hcases : rest.getLast? = some name ∨ rest.getLast? = some (.ofText "") := by
      split at h
      · exact getLast?_laterSteps h
      · rw [← hlast]
        exact getLast?_relativeSteps h
    rw [heq, hlast]
    rcases hcases with hname | hempty
    · exact hname
    · have hsome : (if first = "" then laterSteps rest else relativeSteps (first :: rest)) ≠ [] := by
        intro hnil
        simp [hnil] at h
      simp [hempty, hsome] at hslash

end Route

namespace WrittenPath

theorem not_mem_takeWhile (c : Letter) (cs : List Letter) : c ∉ cs.takeWhile (· ≠ c) := by
  intro hmem
  have := List.all_eq_true.mp List.all_takeWhile c hmem
  simp at this

theorem eq_of_dropWhile {c d : Letter} {cs rest : List Letter} (h : cs.dropWhile (· ≠ c) = d :: rest) :
    d = c := by
  have := List.head?_dropWhile_not (· ≠ c) cs
  rw [h] at this
  simpa using this

/-- A text that is cut behind its last slash. -/
structure LastCut (path pre piece : WrittenPath) : Prop where
  eq : path = pre ++ piece
  noSlash : .char '/' ∉ piece.toList
  front : pre = "" ∨ ∃ before, pre = before ++ "/"

section

variable {text pre piece name stem extension : WrittenPath}

theorem LastCut.reverse (h : LastCut text pre piece) :
    text.toList.reverse = piece.toList.reverse ++ pre.toList.reverse := by
  simp [h.eq]

/-- **What stands behind the last slash is the last piece.** -/
theorem LastCut.lastPiece (h : LastCut text pre piece) : lastPiece text = (pre, piece) := by
  have hpiece : ∀ c ∈ piece.toList.reverse, decide (c ≠ .char '/') = true := by
    intro c hc
    simp only [decide_eq_true_eq]
    rintro rfl
    exact h.noSlash (List.mem_reverse.mp hc)
  unfold WrittenPath.lastPiece
  simp only [h.reverse, List.dropWhile_append_of_pos hpiece, List.takeWhile_append_of_pos hpiece]
  rcases h.front with rfl | ⟨before, rfl⟩
  · simp [← toList_inj]
  · simp [← toList_inj]

theorem LastCut.getLast?_pieces (h : LastCut text pre piece) :
    (text.pieces).getLast? = some piece := by
  have hone : piece.pieces = [piece] := pieces_of_not_mem h.noSlash
  rw [h.eq]
  rcases h.front with rfl | ⟨before, rfl⟩
  · simp [hone]
  · rw [pieces_append_slash, hone]
    simp

theorem lastCut (text : WrittenPath) :
    LastCut text (WrittenPath.lastPiece text).1 (WrittenPath.lastPiece text).2 := by
  show LastCut text (ofList (text.toList.reverse.dropWhile (· ≠ .char '/')).reverse)
    (ofList (text.toList.reverse.takeWhile (· ≠ .char '/')).reverse)
  refine ⟨?_, ?_, ?_⟩
  · rw [← toList_inj, toList_append, toList_ofList, toList_ofList,
      ← List.reverse_append, List.takeWhile_append_dropWhile, List.reverse_reverse]
  · rw [toList_ofList, List.mem_reverse]
    exact not_mem_takeWhile (.char '/') _
  · cases hdrop : text.toList.reverse.dropWhile (· ≠ .char '/') with
    | nil => exact .inl rfl
    | cons c before =>
      obtain rfl := eq_of_dropWhile hdrop
      refine .inr ⟨ofList before.reverse, ?_⟩
      rw [← toList_inj]
      simp

/-- The name that a written path ends in is its last piece. -/
theorem LastCut.of_parse (h : (Route.parse text).steps.getLast? = some (.into name))
    (hslash : (Route.parse text).slash = false) :
    LastCut text (WrittenPath.lastPiece text).1 name := by
  have hlast := (lastCut text).getLast?_pieces
  rw [Route.getLast?_pieces_of_parse h hslash] at hlast
  rw [Option.some.inj hlast]
  exact lastCut text

/-! ## 2. The file name -/

/-- Nothing is trimmed behind a piece that is neither empty nor a dot. -/
theorem LastCut.trimEnd (h : LastCut text pre piece) (he : piece ≠ "") (hd : piece ≠ ".") :
    trimEnd text = text := by
  have hkeep : trimReversed text.toList.reverse = text.toList.reverse := by
    rw [h.reverse]
    have hslash : .char '/' ∉ piece.toList.reverse := by simpa using h.noSlash
    have hne : piece.toList.reverse ≠ [] := by simpa using he
    have hdot : piece.toList.reverse ≠ [.char '.'] := by
      intro hdot
      refine hd (toList_inj.mp ?_)
      rw [← List.reverse_reverse piece.toList, hdot]
      rfl
    generalize piece.toList.reverse = cs at hslash hne hdot
    match cs with
    | [] => exact absurd rfl hne
    | [c] =>
      have hc : c ≠ .char '.' := fun hc => hdot (by rw [hc])
      have hs : c ≠ .char '/' := fun hs => hslash (by simp [hs])
      rw [List.singleton_append]
      unfold trimReversed
      split <;> simp_all
    | c :: d :: rest =>
      have hs : c ≠ .char '/' := fun hs => hslash (by simp [hs])
      have hs' : d ≠ .char '/' := fun hs => hslash (by simp [hs])
      rw [List.cons_append, List.cons_append]
      unfold trimReversed
      split <;> simp_all
  rw [WrittenPath.trimEnd, hkeep, List.reverse_reverse, ofList_toList]

theorem LastCut.fileName? (h : LastCut text pre piece) (he : piece ≠ "") (hd : piece ≠ ".") :
    fileName? text = if piece = ".." then none else some piece := by
  unfold WrittenPath.fileName?
  rw [h.trimEnd he hd, h.lastPiece]
  simp [he, hd]

/-! ## 3. The extension -/

/-- **A name is its stem, or its stem, a dot and an extension without a dot.** -/
theorem splitName_cases (name : WrittenPath) :
    splitName name = (name, none) ∨
      ∃ stem extension, splitName name = (stem, some extension) ∧ stem ≠ "" ∧
        .char '.' ∉ extension.toList ∧ name = stem ++ "." ++ extension := by
  unfold splitName
  simp only
  split
  · next d c before hdrop =>
    obtain rfl := eq_of_dropWhile hdrop
    refine .inr ⟨_, _, rfl, ?_, ?_, ?_⟩
    · intro hnil
      have := congrArg WrittenPath.toList hnil
      simp at this
    · rw [toList_ofList, List.mem_reverse]
      exact not_mem_takeWhile (.char '.') _
    · rw [← toList_inj]
      calc name.toList
          = (name.toList.reverse.takeWhile (· ≠ .char '.') ++ Letter.char '.' :: c :: before).reverse := by
            rw [← hdrop, List.takeWhile_append_dropWhile, List.reverse_reverse]
        _ = _ := by
            simp only [toList_append, List.reverse_append, List.reverse_cons, List.append_assoc]
            rfl
  · exact .inl rfl

/-- The last dot cuts a name, unless it is in front. -/
theorem splitName_append (hs : stem ≠ "") (he : .char '.' ∉ extension.toList) :
    splitName (stem ++ "." ++ extension) = (stem, some extension) := by
  have hpos : ∀ c ∈ extension.toList.reverse, decide (c ≠ .char '.') = true := by
    intro c hc
    simp only [decide_eq_true_eq]
    rintro rfl
    exact he (List.mem_reverse.mp hc)
  have hreverse : (stem ++ "." ++ extension).toList.reverse =
      extension.toList.reverse ++ Letter.char '.' :: stem.toList.reverse := by simp
  obtain ⟨c, before, hstem⟩ := List.exists_cons_of_ne_nil
    (show stem.toList.reverse ≠ [] by simpa using hs)
  unfold splitName
  simp only [hreverse, List.dropWhile_append_of_pos hpos, List.takeWhile_append_of_pos hpos, hstem]
  have htake : (Letter.char '.' :: c :: before).takeWhile (fun c => decide (c ≠ .char '.')) = [] := rfl
  have hdrop : (Letter.char '.' :: c :: before).dropWhile (fun c => decide (c ≠ .char '.')) =
      Letter.char '.' :: c :: before := rfl
  rw [htake, hdrop]
  simp only [← hstem, List.append_nil, List.reverse_reverse, ofList_toList]

theorem LastCut.cutExtension (h : LastCut text pre name) (hn : Route.isName name = true) :
    cutExtension text = if (splitName name).2 = none then text
      else pre ++ ((splitName name).1 ++ ".") := by
  obtain ⟨he, hd, hdd, _⟩ := Route.isName_iff.mp hn
  unfold WrittenPath.cutExtension
  rw [h.fileName? he hd, if_neg hdd, Option.bind_some]
  rcases splitName_cases name with hsplit | ⟨stem, extension, hsplit, _, _, hname⟩
  · simp [hsplit]
  · have hlength : text.toList.length - extension.toList.length = (pre ++ (stem ++ ".")).toList.length := by
      rw [h.eq, hname]
      simp only [toList_append, List.length_append]
      omega
    have htext : text.toList = (pre ++ (stem ++ ".")).toList ++ extension.toList := by
      rw [h.eq, hname]
      simp
    simp only [hsplit, reduceCtorEq, if_false]
    rw [hlength, htext, List.take_left, ofList_toList]

theorem LastCut.setExtension (h : LastCut text pre piece) (he : piece ≠ "") (hd : piece ≠ ".")
    (extension : WrittenPath) : setExtension text extension =
      if piece = ".." then text else pre ++ ((splitName piece).1 ++ "." ++ extension) := by
  unfold WrittenPath.setExtension
  rw [h.fileName? he hd, h.trimEnd he hd, h.lastPiece]
  split
  · next hnone =>
    split at hnone
    · next hdd => rw [if_pos hdd]
    · simp at hnone
  · next other hsome =>
    split at hsome
    · simp at hsome
    · next hdd =>
      obtain rfl : piece = other := by simpa using hsome
      rw [if_neg hdd]
      simp [append_assoc]

/-- **The extension is put behind the stem of the name**, where a dot and another dot are not a name. -/
theorem LastCut.withExtension (h : LastCut text pre name) (hn : Route.isName name = true)
    (extension : WrittenPath) : withExtension text extension =
      if (splitName name).1 = "." then pre ++ ".."
      else pre ++ ((splitName name).1 ++ "." ++ extension) := by
  obtain ⟨he, hd, hdd, _⟩ := Route.isName_iff.mp hn
  unfold WrittenPath.withExtension
  rw [h.cutExtension hn]
  rcases splitName_cases name with hsplit | ⟨stem, old, hsplit, hstem, _, hname⟩
  · rw [hsplit, if_pos rfl, h.setExtension he hd, if_neg hdd, if_neg hd, hsplit]
  · have hcut : LastCut (pre ++ (stem ++ ".")) pre (stem ++ ".") := by
      refine ⟨rfl, fun hmem => h.noSlash ?_, h.front⟩
      rw [hname, toList_append]
      exact List.mem_append_left _ hmem
    have hone : splitName (stem ++ ".") = (stem, some (.ofText "")) := by
      simpa using splitName_append hstem (show .char '.' ∉ (ofText "").toList by simp)
    have hne : stem ++ "." ≠ "" := by
      intro hnil
      have := congrArg WrittenPath.toList hnil
      simp at this
    have hdot : stem ++ "." ≠ "." := by
      intro hone
      have := congrArg WrittenPath.toList hone
      exact hstem (by simpa using this)
    have hdots : stem ++ "." = ".." ↔ stem = "." := by
      have : (ofText "..").toList = (ofText ".").toList ++ (ofText ".").toList := rfl
      rw [← toList_inj, toList_append, this, List.append_left_inj, toList_inj]
    simp only [hsplit, reduceCtorEq, if_false]
    rw [hcut.setExtension hne hdot, hone]
    by_cases hs : stem = "."
    · rw [if_pos (hdots.mpr hs), if_pos hs, hdots.mpr hs]
    · rw [if_neg fun h => hs (hdots.mp h), if_neg hs]

end

end WrittenPath

/-! ## 4. The temporary file -/

/-- The text of a path is cut in front of its last name. -/
theorem Path.lastCut_child {p : Path} (h : p.rooted = true) {name : WrittenPath}
    (hs : .char '/' ∉ name.toList) : WrittenPath.LastCut (p.child name).written p.front name := by
  refine ⟨Path.written_child h name, hs, .inr ?_⟩
  unfold Path.front
  split
  · exact ⟨"", rfl⟩
  · exact ⟨p.written, rfl⟩

namespace Descriptor

open WrittenPath

/-- The name of the temporary file. -/
def temporaryName : WrittenPath := "tsconfig.json.tmp"

/-- **The temporary file lies beside the descriptor.** -/
theorem temporaryPath_child {p : Path} (h : p.rooted = true) :
    temporaryPath (p.child fileName).written = (p.child temporaryName).written := by
  have hsplit : splitName fileName = (.ofText "tsconfig", some (.ofText "json")) := by decide
  have hname : .ofText "tsconfig" ++ "." ++ temporaryExtension = temporaryName := by decide
  have hcut := Path.lastCut_child h (show .char '/' ∉ (ofText fileName).toList by decide)
  rw [temporaryPath, hcut.withExtension (by decide), hsplit, if_neg (by decide), hname]
  exact (Path.lastCut_child h (by decide)).eq.symm

/-- **A path and its temporary path end in different names.** -/
theorem name_ne_temporary {path name other : WrittenPath}
    (h : (Route.parse path).steps.getLast? = some (.into name))
    (hslash : (Route.parse path).slash = false)
    (ht : (Route.parse (temporaryPath path)).steps.getLast? = some (.into other))
    (htslash : (Route.parse (temporaryPath path)).slash = false) : name ≠ other := by
  have hn : Route.isName name = true := Route.isName_of_into_mem (List.mem_of_getLast? h)
  have ho : Route.isName other = true := Route.isName_of_into_mem (List.mem_of_getLast? ht)
  have hcut := LastCut.of_parse h hslash
  have hother := (LastCut.of_parse ht htslash).lastPiece
  have hpath := hcut.withExtension hn temporaryExtension
  obtain ⟨pre, hpre⟩ : ∃ pre, pre = (lastPiece path).1 := ⟨_, rfl⟩
  rw [← hpre] at hcut hpath
  by_cases hs : (splitName name).1 = "."
  · -- Two dots lead to a directory, and are no name of a file.
    rw [if_pos hs] at hpath
    have hdots : LastCut (temporaryPath path) pre ".." := ⟨hpath, by decide, hcut.front⟩
    obtain rfl : .ofText ".." = other := congrArg Prod.snd (hdots.lastPiece.symm.trans hother)
    exact absurd ho (by decide)
  · rw [if_neg hs] at hpath
    have hstem : .char '/' ∉ ((splitName name).1 ++ "." ++ temporaryExtension).toList := by
      have hext : .char '/' ∉ (ofText ("." ++ temporaryExtension)).toList := by decide
      have : .char '/' ∉ (splitName name).1.toList := by
        intro hmem
        refine hcut.noSlash ?_
        rcases splitName_cases name with hsplit | ⟨stem, old, hsplit, _, _, hname⟩
        · rwa [hsplit] at hmem
        · rw [hsplit] at hmem
          rw [hname]
          simp only [toList_append, List.mem_append]
          exact .inl (.inl hmem)
      rw [append_assoc, ← ofText_append, toList_append, List.mem_append, not_or]
      exact ⟨this, hext⟩
    have htext : LastCut (temporaryPath path) pre
        ((splitName name).1 ++ "." ++ temporaryExtension) := ⟨hpath, hstem, hcut.front⟩
    obtain rfl : (splitName name).1 ++ "." ++ temporaryExtension = other :=
      congrArg Prod.snd (htext.lastPiece.symm.trans hother)
    intro heq
    rcases splitName_cases name with hsplit | ⟨stem, old, hsplit, _, hold, hname⟩
    · have heq : name = name ++ "." ++ temporaryExtension := by rwa [hsplit] at heq
      have hsize := congrArg size heq
      have hdot : (ofText ".").size = 1 := by decide
      rw [size_append, size_append, hdot] at hsize
      omega
    · rw [hsplit, hname] at heq
      have hext : old = temporaryExtension := by
        simpa [← toList_inj] using heq
      rw [hext] at hold
      exact hold (by decide)

end Descriptor

end Tsconfig
