/-
# No import is lost and none is named twice

Declarations are looked for from the start of the text on, at line starts, and behind a declaration the
search goes on at the next line start behind it.  Names and blanks may go on over line ends, so a
declaration may start on a line within another one and is skipped then; and what is found for the two
shapes is merged by where it stands.

Nothing is lost.  The module that a declaration names stands between the first quotes behind its start, so
a declaration that starts in front of the opening quote of another names the same module, and none starts
between that quote and the end (`Shape.Match.mention_eq`).  So **what is found for a shape is what the
shape names from any line start** (`mem_clausesUpTo`), in the order of the text
(`inOrder_clausesUpTo`).  No place is named by both shapes (`not_namesAt_both`), so the merged list names
each place once (`imports_exact`).
-/
import Tsconfig.Proofs.Source.Shapes
import Tsconfig.Proofs.Source.Tokens

namespace Tsconfig.Source

open Text (isBlank)
open scoped Computability

/-! ## 1. Line starts -/

section

variable {cs line p q u v : List Char} {c : Char}

/-- What stands in front of a line start: nothing, or a text that ends with a line end. -/
def IsLineStart (start : List Char) : Prop := start = [] ∨ ∃ u, start = u ++ ['\n']

theorem exists_lineEnd_of_append (h : IsLineStart (p ++ q)) (hq : q ≠ []) : ∃ u, q = u ++ ['\n'] := by
  rcases h with hnil | ⟨u, hu⟩
  · exact (hq (List.append_eq_nil_iff.mp hnil).2).elim
  · obtain ⟨w, d, rfl⟩ := (List.eq_nil_or_concat' q).resolve_left hq
    rw [← List.append_assoc] at hu
    exact ⟨w, by rw [(List.append_inj' hu rfl).2]⟩

/-- A text from one of its line starts on. -/
def LineOf (cs line : List Char) : Prop := ∃ start, start ++ line = cs ∧ IsLineStart start

theorem lineOf_iff : LineOf cs line ↔ line = cs ∨ ∃ u, u ++ '\n' :: line = cs := by
  constructor
  · rintro ⟨_, rfl, rfl | ⟨u, rfl⟩⟩
    · exact Or.inl rfl
    · exact Or.inr ⟨u, List.append_cons u '\n' line⟩
  · rintro (rfl | ⟨u, rfl⟩)
    · exact ⟨[], rfl, Or.inl rfl⟩
    · exact ⟨u ++ ['\n'], (List.append_cons u '\n' line).symm, Or.inr ⟨u, rfl⟩⟩

/-- A character that is not in the first part of a text is in the second. -/
theorem exists_append_of_not_mem (hc : c ∉ p) (h : p ++ q = u ++ c :: v) :
    ∃ w, p ++ w = u ∧ w ++ c :: v = q := by
  rcases List.append_eq_append_iff.mp h with ⟨w, hu, hq⟩ | ⟨w, hp, hcv⟩
  · exact ⟨w, hu.symm, hq.symm⟩
  · cases w with
    | nil => exact ⟨[], by simpa using hp, hcv⟩
    | cons d w =>
      obtain ⟨rfl, -⟩ := List.cons.inj hcv
      rw [hp] at hc
      simp at hc

theorem nextLine?_append (hu : '\n' ∉ u) : nextLine? (u ++ '\n' :: line) = some line := by
  rw [nextLine?, List.dropWhile_append_of_pos (ne_lineEnd_of_not_mem hu)]
  rfl

theorem nextLine?_eq_some :
    nextLine? cs = some line ↔ ∃ u, '\n' ∉ u ∧ u ++ '\n' :: line = cs := by
  constructor
  · intro h
    by_cases hmem : '\n' ∈ cs
    · obtain ⟨u, behind, rfl, hu⟩ := List.eq_append_cons_of_mem hmem
      rw [nextLine?_append hu] at h
      obtain rfl := Option.some.inj h
      exact ⟨u, hu, rfl⟩
    · rw [nextLine?, List.dropWhile_eq_nil_iff.mpr (ne_lineEnd_of_not_mem hmem)] at h
      cases h
  · rintro ⟨u, hu, rfl⟩
    exact nextLine?_append hu

theorem length_nextLine? (h : nextLine? cs = some line) : line.length < cs.length := by
  obtain ⟨u, -, rfl⟩ := nextLine?_eq_some.mp h
  rw [List.length_append, List.length_cons]
  omega

/-- The lines behind a line end of a text are the lines of the text from its next line on. -/
theorem exists_nextLine_iff :
    (∃ u, u ++ '\n' :: line = cs) ↔ ∃ next, nextLine? cs = some next ∧ LineOf next line := by
  constructor
  · rintro ⟨u, rfl⟩
    have hmem : '\n' ∈ u ++ '\n' :: line := List.mem_append_right u List.mem_cons_self
    obtain ⟨p, next, heq, hp⟩ := List.eq_append_cons_of_mem hmem
    refine ⟨next, nextLine?_eq_some.mpr ⟨p, hp, heq.symm⟩, lineOf_iff.mpr ?_⟩
    obtain ⟨w, -, hw⟩ := exists_append_of_not_mem hp heq.symm
    cases w with
    | nil => exact Or.inl (List.cons.inj hw).2
    | cons d w => exact Or.inr ⟨w, (List.cons.inj hw).2⟩
  · rintro ⟨next, hnext, hline⟩
    obtain ⟨p, -, rfl⟩ := nextLine?_eq_some.mp hnext
    rcases lineOf_iff.mp hline with rfl | ⟨u, rfl⟩
    · exact ⟨p, rfl⟩
    · exact ⟨p ++ '\n' :: u, by rw [List.append_assoc, List.cons_append]⟩

end

/-! ## 2. One declaration hides no other -/

namespace Shape.Match

variable {s : Shape} {x y : s.Match} {start rest rest' : List Char}

theorem isOutside_of_mem_front (x : s.Match) : ∀ c ∈ x.front, isOutside c = true :=
  s.front_outside x.front x.front_mem

theorem isModuleChar_of_mem_name (x : s.Match) : ∀ c ∈ x.name, isModuleChar c = true :=
  (mem_someOf.mp x.name_mem).2

theorem lineEnd_not_mem (x : s.Match) : '\n' ∉ x.opening :: (x.name ++ [x.closing]) := by
  have hne : ∀ c, isStringQuote c = true → c ≠ '\n' := by
    rintro _ hquote rfl
    cases hquote
  intro hmem
  rcases List.mem_cons.mp hmem with hopening | hmem
  · exact hne x.opening x.opening_quote hopening.symm
  · rcases List.mem_append.mp hmem with hname | hclosing
    · cases x.isModuleChar_of_mem_name _ hname
    · exact hne x.closing x.closing_quote (List.mem_singleton.mp hclosing).symm

/-- A line end in a match stands in front of the opening quote or behind the closing one. -/
theorem exists_of_text_eq {u v : List Char} (x : s.Match) (h : x.text = u ++ '\n' :: v) :
    (∀ c ∈ u, isOutside c = true) ∨ ∃ w, x.back = w ++ '\n' :: v := by
  rcases List.append_eq_append_iff.mp h with ⟨w, -, hw⟩ | ⟨w, hw, -⟩
  · have hsplit : x.opening :: (x.name ++ [x.closing]) ++ x.back = w ++ '\n' :: v := by
      rw [← hw]
      simp only [List.cons_append, List.append_assoc, List.nil_append]
    obtain ⟨w, -, hback⟩ := exists_append_of_not_mem x.lineEnd_not_mem hsplit
    exact Or.inr ⟨w, hback.symm⟩
  · refine Or.inl fun c hc => x.isOutside_of_mem_front c ?_
    rw [hw]
    exact List.mem_append_left w hc

theorem dropWhile_text (x : s.Match) (rest : List Char) :
    (x.text ++ rest).dropWhile isOutside = x.opening :: x.behind rest := by
  rw [text_append, List.dropWhile_append_of_pos x.isOutside_of_mem_front, List.dropWhile_cons_of_neg]
  rw [isOutside_of_isStringQuote x.opening_quote]
  exact Bool.false_ne_true

theorem takeWhile_behind (x : s.Match) (rest : List Char) :
    (x.behind rest).takeWhile isModuleChar = x.name := by
  have hclosing : ¬ isModuleChar x.closing = true := by simp [isModuleChar, x.closing_quote]
  rw [behind, List.takeWhile_append_of_pos x.isModuleChar_of_mem_name,
    List.takeWhile_cons_of_neg hclosing, List.append_nil]

/-- The first quote tells what is named. -/
theorem mention_congr (h : x.behind rest = y.behind rest') : x.mention rest = y.mention rest' := by
  rw [mention, mention, ← takeWhile_behind x rest, ← takeWhile_behind y rest', h]

/-- **A declaration that starts on a line within another one names the same module there.** -/
theorem mention_eq (hstart : IsLineStart start) (hlen : start.length ≤ x.text.length)
    (h : start ++ (y.text ++ rest') = x.text ++ rest) : y.mention rest' = x.mention rest := by
  by_cases hout : ∀ c ∈ start, isOutside c = true
  · have hdrop := congrArg (List.dropWhile isOutside) h
    rw [List.dropWhile_append_of_pos hout, dropWhile_text, dropWhile_text] at hdrop
    exact mention_congr (List.cons.inj hdrop).2
  · -- the line starts behind the opening quote, so behind the name, where no declaration starts
    obtain rfl | ⟨u, rfl⟩ := hstart
    · exact (hout fun c hc => (List.not_mem_nil hc).elim).elim
    · obtain ⟨v, hv⟩ : u ++ ['\n'] <+: x.text :=
        List.prefix_of_prefix_length_le ⟨_, h⟩ (List.prefix_append _ rest) hlen
      have hrest : y.text ++ rest' = v ++ rest := by
        rw [← hv, List.append_assoc _ v] at h
        exact List.append_cancel_left h
      rw [List.append_assoc] at hv
      rcases x.exists_of_text_eq hv.symm with hu | ⟨w, hback⟩
      · refine (hout fun c hc => ?_).elim
        rcases List.mem_append.mp hc with hc | hc
        · exact hu c hc
        · rw [List.mem_singleton.mp hc]
          rfl
      · rw [text_append] at hrest
        exact (s.back_line (hback ▸ x.back_mem) y.front y.front_mem _ _ hrest).elim

/-- A module is named in front of what is behind the declaration, and behind where the declaration
starts. -/
theorem unread_mention (x : s.Match) (rest : List Char) :
    rest.length < (x.mention rest).unread ∧ (x.mention rest).unread < (x.text ++ rest).length := by
  rw [text_append]
  simp only [mention, behind, List.length_append, List.length_cons]
  omega

end Shape.Match

/-! ## 3. All declarations of a shape -/

/-- Mentions in the order of the text: less and less of it is unread. -/
def InOrder (ms : List Mention) : Prop := ms.Pairwise fun a b => b.unread < a.unread

/-- A reader of clauses that finds the matches of a shape. -/
def Finds (clause : List Char → Option (Mention × List Char)) (s : Shape) : Prop :=
  ∀ {cs m rest}, clause cs = some (m, rest) ↔ ∃ x : s.Match, x.text ++ rest = cs ∧ x.mention rest = m

section

variable {s : Shape} {clause : List Char → Option (Mention × List Char)} {cs rest : List Char}
  {m : Mention} {n : Nat}

/-- The clauses behind a line end of a text. -/
def clausesBehind (clause : List Char → Option (Mention × List Char)) (n : Nat) (rest : List Char) :
    List Mention :=
  (nextLine? rest).elim [] (clausesUpTo clause n)

theorem clausesUpTo_of_none (h : clause cs = none) :
    clausesUpTo clause (n + 1) cs = clausesBehind clause n cs := by
  simp only [clausesUpTo, h, clausesBehind]
  cases nextLine? cs <;> rfl

theorem clausesUpTo_of_some (h : clause cs = some (m, rest)) :
    clausesUpTo clause (n + 1) cs = m :: clausesBehind clause n rest := by
  simp only [clausesUpTo, h, clausesBehind]
  cases nextLine? rest <;> rfl

theorem mem_clausesBehind {p : List Char → Prop}
    (h : ∀ next, next.length < n → (m ∈ clausesUpTo clause n next ↔ ∃ line, LineOf next line ∧ p line))
    (hn : rest.length ≤ n) :
    m ∈ clausesBehind clause n rest ↔ ∃ line, (∃ u, u ++ '\n' :: line = rest) ∧ p line := by
  simp only [exists_nextLine_iff]
  cases hnext : nextLine? rest with
  | none => simp [clausesBehind, hnext]
  | some next =>
    have hlen := Nat.lt_of_lt_of_le (length_nextLine? hnext) hn
    simp [clausesBehind, hnext, h next hlen]

/-- **The clauses that are read are the clauses at all line starts.** -/
theorem mem_clausesUpTo (h : Finds clause s) (hn : cs.length < n) : m ∈ clausesUpTo clause n cs ↔
    ∃ line, LineOf cs line ∧ ∃ rest, clause line = some (m, rest) := by
  induction n generalizing cs with
  | zero => omega
  | succ n ih =>
    cases hclause : clause cs with
    | none =>
      rw [clausesUpTo_of_none hclause, mem_clausesBehind (fun _ => ih) (Nat.le_of_lt_succ hn)]
      constructor
      · rintro ⟨line, hline, hfound⟩
        exact ⟨line, lineOf_iff.mpr (Or.inr hline), hfound⟩
      · rintro ⟨line, hline, rest, hfound⟩
        rcases lineOf_iff.mp hline with rfl | hline
        · rw [hclause] at hfound
          cases hfound
        · exact ⟨line, hline, rest, hfound⟩
    | some found =>
      obtain ⟨m₀, rest⟩ := found
      obtain ⟨x, rfl, rfl⟩ := h.mp hclause
      have hlen : rest.length ≤ n := by
        rw [List.length_append] at hn
        omega
      rw [clausesUpTo_of_some hclause, List.mem_cons, mem_clausesBehind (fun _ => ih) hlen]
      constructor
      · rintro (rfl | ⟨line, ⟨u, rfl⟩, hfound⟩)
        · exact ⟨_, lineOf_iff.mpr (Or.inl rfl), rest, hclause⟩
        · exact ⟨line, lineOf_iff.mpr (Or.inr ⟨x.text ++ u, List.append_assoc ..⟩), hfound⟩
      · rintro ⟨line, ⟨start, hline, hstart⟩, behind, hfound⟩
        obtain ⟨y, rfl, rfl⟩ := h.mp hfound
        by_cases hwithin : start.length ≤ x.text.length
        · exact Or.inl (Shape.Match.mention_eq hstart hwithin hline)
        · obtain ⟨v, rfl⟩ : x.text <+: start :=
            List.prefix_of_prefix_length_le (List.prefix_append _ rest) ⟨_, hline⟩ (by omega)
          rw [List.append_assoc] at hline
          have hrest := List.append_cancel_left hline
          have hne : v ≠ [] := by
            rintro rfl
            exact hwithin (by rw [List.append_nil])
          obtain ⟨u, rfl⟩ := exists_lineEnd_of_append hstart hne
          rw [List.append_assoc] at hrest
          exact Or.inr ⟨_, ⟨u, hrest⟩, behind, hfound⟩

/-- The clauses come in the order of the text. -/
theorem inOrder_clausesUpTo (h : Finds clause s) (hn : cs.length < n) :
    InOrder (clausesUpTo clause n cs) := by
  induction n generalizing cs with
  | zero => omega
  | succ n ih =>
    have hbehind : ∀ rest : List Char, rest.length ≤ n → InOrder (clausesBehind clause n rest) := by
      intro rest hlen
      rw [clausesBehind]
      cases hnext : nextLine? rest with
      | none => exact List.Pairwise.nil
      | some next => exact ih (Nat.lt_of_lt_of_le (length_nextLine? hnext) hlen)
    cases hclause : clause cs with
    | none =>
      rw [clausesUpTo_of_none hclause]
      exact hbehind cs (Nat.le_of_lt_succ hn)
    | some found =>
      obtain ⟨m, rest⟩ := found
      obtain ⟨x, rfl, rfl⟩ := h.mp hclause
      have hlen : rest.length ≤ n := by
        rw [List.length_append] at hn
        omega
      rw [clausesUpTo_of_some hclause]
      refine List.Pairwise.cons ?_ (hbehind rest hlen)
      intro later hlater
      obtain ⟨line, ⟨u, hu⟩, behind, hfound⟩ :=
        (mem_clausesBehind (fun _ => mem_clausesUpTo h) hlen).mp hlater
      obtain ⟨y, rfl, rfl⟩ := h.mp hfound
      have hcs := congrArg List.length hu
      rw [List.length_append, List.length_cons] at hcs
      have hx := x.unread_mention rest
      have hy := y.unread_mention behind
      omega

end

/-! ## 4. Where a module is named -/

/-- A declaration of a shape that starts at a line start of a text names a module at an offset. -/
def Shape.NamesAt (s : Shape) (cs : List Char) (offset : Nat) (name : List Char) : Prop :=
  ∃ (start rest : List Char) (x : s.Match), start ++ (x.text ++ rest) = cs ∧ IsLineStart start ∧
    x.name = name ∧ offset = (start ++ x.front).length + 1

section

variable {s : Shape} {clause : List Char → Option (Mention × List Char)} {cs name : List Char}
  {m : Mention} {k : Nat}

theorem namesAt_iff (h : Finds clause s) : s.NamesAt cs k name ↔
    ∃ m ∈ clauses clause cs, m.name = name ∧ k + m.unread = cs.length := by
  simp only [clauses, mem_clausesUpTo h (Nat.lt_succ_self _)]
  constructor
  · rintro ⟨start, rest, x, rfl, hstart, rfl, rfl⟩
    refine ⟨x.mention rest, ⟨_, ⟨start, rfl, hstart⟩, rest, h.mpr ⟨x, rfl, rfl⟩⟩, rfl, ?_⟩
    rw [Shape.Match.text_append]
    simp only [Shape.Match.mention, List.length_append, List.length_cons]
    omega
  · rintro ⟨m, ⟨_, ⟨start, rfl, hstart⟩, rest, hfound⟩, rfl, hk⟩
    obtain ⟨x, rfl, rfl⟩ := h.mp hfound
    refine ⟨start, rest, x, rfl, hstart, rfl, ?_⟩
    rw [Shape.Match.text_append] at hk
    simp only [Shape.Match.mention, List.length_append, List.length_cons] at hk ⊢
    omega

theorem unread_le_of_mem_clauses (h : Finds clause s) (hm : m ∈ clauses clause cs) :
    m.unread ≤ cs.length := by
  obtain ⟨_, ⟨start, rfl, -⟩, rest, hfound⟩ := (mem_clausesUpTo h (Nat.lt_succ_self _)).mp hm
  obtain ⟨x, rfl, rfl⟩ := h.mp hfound
  have hx := x.unread_mention rest
  rw [List.length_append]
  omega

end

/-! ## 5. The two shapes together -/

section

variable {w cs name name' : List Char} {k : Nat}

theorem mem_fromFront (h : w ∈ fromFront) : (∀ c ∈ w, isBindingChar c = true) ∧ 'o' ∈ w := by
  constructor
  · exact madeOf_fromFront w h
  · obtain ⟨_, ⟨indent, -, keyword, hkeyword, rfl⟩, mid, -, rfl⟩ := h
    refine List.mem_append_left mid (List.mem_append_right indent ?_)
    rcases hkeyword with rfl | rfl
    · decide
    · decide

theorem mem_requireFront (h : w ∈ requireFront) :
    ∃ front blanks, w = front ++ '(' :: blanks ∧ ∀ c ∈ blanks, isBlank c = true := by
  obtain ⟨_, ⟨front, -, _, ⟨b, -, _, rfl, rfl⟩, rfl⟩, blanks, hblanks, rfl⟩ := h
  refine ⟨front ++ b, blanks, ?_, mem_kstar_oneOf.mp hblanks⟩
  simp

/-- **No offset is named by both shapes**: a parenthesis stands in front of the quotes of the one, with
nothing but blanks between, and the other has no parenthesis there. -/
theorem not_namesAt_both (hfrom : fromShape.NamesAt cs k name) (hrequire : requireShape.NamesAt cs k name') :
    False := by
  obtain ⟨start, rest, x, rfl, -, -, rfl⟩ := hfrom
  obtain ⟨start', rest', y, heq, -, -, hk⟩ := hrequire
  rw [Shape.Match.text_append, Shape.Match.text_append, ← List.append_assoc, ← List.append_assoc] at heq
  have hfront : start' ++ y.front = start ++ x.front := (List.append_inj heq (Nat.succ_inj.mp hk.symm)).1
  obtain ⟨hbinding, ho⟩ := mem_fromFront x.front_mem
  obtain ⟨front, blanks, hy, hblanks⟩ := mem_requireFront y.front_mem
  rw [hy, ← List.append_assoc] at hfront
  rcases List.append_eq_append_iff.mp hfront.symm with ⟨w, -, hw⟩ | ⟨w, -, hw⟩
  · have hmem : '(' ∈ x.front := by
      rw [hw]
      exact List.mem_append_right w List.mem_cons_self
    have hparen := hbinding _ hmem
    revert hparen
    decide +kernel
  · have hmem : 'o' ∈ '(' :: blanks := by
      rw [hw]
      exact List.mem_append_right w ho
    rcases List.mem_cons.mp hmem with hparen | hblank
    · cases hparen
    · cases hblanks _ hblank

end

section

variable {m x : Mention} {ms news : List Mention}

theorem mem_insertMention : x ∈ insertMention m ms ↔ x = m ∨ x ∈ ms := by
  induction ms with
  | nil => simp [insertMention]
  | cons y ys ih =>
    rw [insertMention]
    split
    · exact List.mem_cons
    · rw [List.mem_cons, ih, List.mem_cons, or_left_comm]

theorem inOrder_insertMention (h : InOrder ms) (hne : ∀ x ∈ ms, x.unread ≠ m.unread) :
    InOrder (insertMention m ms) := by
  induction ms with
  | nil => exact List.pairwise_singleton _ m
  | cons y ys ih =>
    obtain ⟨hy, hys⟩ := List.pairwise_cons.mp h
    rw [insertMention]
    split
    · next hlt =>
      refine List.Pairwise.cons ?_ h
      intro x hx
      rcases List.mem_cons.mp hx with rfl | hx
      · exact hlt
      · exact (hy x hx).trans hlt
    · next hle =>
      have hlt : m.unread < y.unread := by
        have := hne y List.mem_cons_self
        omega
      refine List.Pairwise.cons ?_ (ih hys fun x hx => hne x (List.mem_cons_of_mem y hx))
      intro x hx
      rcases mem_insertMention.mp hx with rfl | hx
      · exact hlt
      · exact hy x hx

/-- Inserting mentions one by one into a list in order gives all of them in order, if no two stand at one
place. -/
theorem foldl_insertMention (hms : InOrder ms) (hnews : InOrder news)
    (hne : ∀ x ∈ ms, ∀ y ∈ news, x.unread ≠ y.unread) :
    (∀ x, x ∈ news.foldl (fun ms m => insertMention m ms) ms ↔ x ∈ ms ∨ x ∈ news) ∧
      InOrder (news.foldl (fun ms m => insertMention m ms) ms) := by
  induction news generalizing ms with
  | nil => exact ⟨by simp, hms⟩
  | cons m news ih =>
    obtain ⟨hm, hnews⟩ := List.pairwise_cons.mp hnews
    have hinsert := inOrder_insertMention hms fun x hx => hne x hx m List.mem_cons_self
    have hapart : ∀ x ∈ insertMention m ms, ∀ y ∈ news, x.unread ≠ y.unread := by
      intro x hx y hy
      rcases mem_insertMention.mp hx with rfl | hx
      · exact (hm y hy).ne'
      · exact hne x hx y (List.mem_cons_of_mem m hy)
    obtain ⟨hmem, hsorted⟩ := ih hinsert hnews hapart
    refine ⟨fun x => ?_, hsorted⟩
    rw [List.foldl_cons, hmem, mem_insertMention, List.mem_cons, or_assoc, or_left_comm]

end

section

variable {cs : List Char} {m x y : Mention}

theorem finds_importFrom : Finds importFrom? fromShape := importFrom?_eq_some

theorem finds_importRequire : Finds importRequire? requireShape := importRequire?_eq_some

theorem unread_ne (hx : x ∈ clauses importFrom? cs) (hy : y ∈ clauses importRequire? cs) :
    x.unread ≠ y.unread := by
  intro heq
  have hle := unread_le_of_mem_clauses finds_importFrom hx
  have hfrom : fromShape.NamesAt cs (cs.length - x.unread) x.name :=
    (namesAt_iff finds_importFrom).mpr ⟨x, hx, rfl, by omega⟩
  have hrequire : requireShape.NamesAt cs (cs.length - x.unread) y.name :=
    (namesAt_iff finds_importRequire).mpr ⟨y, hy, rfl, by omega⟩
  exact not_namesAt_both hfrom hrequire

theorem mentions_spec (cs : List Char) :
    (∀ m, m ∈ mentions cs ↔ m ∈ clauses importFrom? cs ∨ m ∈ clauses importRequire? cs) ∧
      InOrder (mentions cs) :=
  foldl_insertMention (inOrder_clausesUpTo finds_importFrom (Nat.lt_succ_self _))
    (inOrder_clausesUpTo finds_importRequire (Nat.lt_succ_self _)) fun _ hx _ hy => unread_ne hx hy

theorem unread_le_of_mem_mentions (h : m ∈ mentions cs) : m.unread ≤ cs.length := by
  rcases ((mentions_spec cs).1 m).mp h with h | h
  · exact unread_le_of_mem_clauses finds_importFrom h
  · exact unread_le_of_mem_clauses finds_importRequire h

end

/-- **Imports are read exactly**: what is listed are the names in the text without comments that a
declaration of one of the two shapes names from some line start, by offset and each offset once. -/
theorem imports_exact (text : String) : ∃ found : List (Nat × List Char),
    (references text).imports = found.map (fun e => String.ofList e.2) ∧
      (found.map Prod.fst).Pairwise (· < ·) ∧
      (∀ k name, (k, name) ∈ found ↔ fromShape.NamesAt (withoutComments text.toList) k name ∨
        requireShape.NamesAt (withoutComments text.toList) k name) ∧
      ∀ k name name', ¬ (fromShape.NamesAt (withoutComments text.toList) k name ∧
        requireShape.NamesAt (withoutComments text.toList) k name') := by
  let code := withoutComments text.toList
  obtain ⟨hmem, hsorted⟩ := mentions_spec code
  refine ⟨(mentions code).map fun m => (code.length - m.unread, m.name), ?_, ?_, ?_, ?_⟩
  · rw [List.map_map]
    rfl
  · rw [List.map_map, List.pairwise_map]
    refine hsorted.imp_of_mem ?_
    intro a b ha hb hlt
    have hle := unread_le_of_mem_mentions ha
    simp only [Function.comp_apply]
    omega
  · intro k name
    rw [namesAt_iff finds_importFrom, namesAt_iff finds_importRequire, List.mem_map]
    constructor
    · rintro ⟨m, hm, heq⟩
      obtain ⟨rfl, rfl⟩ := Prod.mk.inj heq
      have hk : code.length - m.unread + m.unread = code.length :=
        Nat.sub_add_cancel (unread_le_of_mem_mentions hm)
      rcases (hmem m).mp hm with hm | hm
      · exact Or.inl ⟨m, hm, rfl, hk⟩
      · exact Or.inr ⟨m, hm, rfl, hk⟩
    · rintro (⟨m, hm, rfl, hk⟩ | ⟨m, hm, rfl, hk⟩)
      · exact ⟨m, (hmem m).mpr (Or.inl hm), by rw [← Nat.eq_sub_of_add_eq hk]⟩
      · exact ⟨m, (hmem m).mpr (Or.inr hm), by rw [← Nat.eq_sub_of_add_eq hk]⟩
  · rintro k name name' ⟨hfrom, hrequire⟩
    exact not_namesAt_both hfrom hrequire

/-- The second line starts within the declaration that the first one starts, and starts one as well. -/
example : (references "import\nimport x from 'm';\nimport\nimport y\n= require('n'\n)").imports =
    ["m", "n"] := by
  decide +kernel

end Tsconfig.Source
