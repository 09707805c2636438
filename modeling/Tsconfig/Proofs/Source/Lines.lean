/-
# Removing comments keeps every line

The pass over a text is what the cut into tokens has to be (`Pass`): where a comment or a literal starts, the
pass takes it, and everywhere else it takes one character of code.  A comment goes to the end of its line, or
to the first end mark; a literal goes to the first quote that no backslash takes with it, and only a template
goes over a line break (`ClosedBy`).  What is not closed is no token, so that its first character is code.  The
tokens of a text are the one pass over it (`pass_iff`).

Each character of a text lies in a comment or it does not (`marked`).  Without its comments a text is the
characters that do not, and the line breaks (`withoutComments_eq`).  Since no line break is removed and none
is added, the lines stay apart as they are (`splitOnP_filter_or`), and **each line is the line that it was
without the characters in comments** (`lines_withoutComments`).
-/
import Mathlib.Data.List.Infix
import Tsconfig.Proofs.Source.Tokens

namespace Tsconfig.Source

/-! ## 1. Literals and comments -/

/-- What stands behind the opening quote of a literal, up to its closing quote. -/
inductive ClosedBy (quote : Char) : List Char → Prop
  | close : ClosedBy quote [quote]
  | plain {c : Char} {cs : List Char} (hquote : c ≠ quote) (hescape : c ≠ '\\')
      (hline : c = '\n' → quote = '\x60') (h : ClosedBy quote cs) : ClosedBy quote (c :: cs)
  | escaped (c : Char) {cs : List Char} (h : ClosedBy quote cs) : ClosedBy quote ('\\' :: c :: cs)

/-- A comment or a literal that is found in front of a rest. -/
inductive Found : Token → List Char → Prop
  | line {body rest : List Char} (hbody : '\n' ∉ body)
      (hrest : ∀ c, rest.head? = some c → c = '\n') : Found (.comment ('/' :: '/' :: body)) rest
  | block {inner : List Char} (rest : List Char) (h : ¬ ['*', '/'] <:+: inner) :
      Found (.comment ('/' :: '*' :: (inner ++ ['*', '/']))) rest
  | literal {quote : Char} {body : List Char} (rest : List Char) (hquote : isQuote quote = true)
      (h : ClosedBy quote body) : Found (.literal (quote :: body)) rest

/-- The pass over a text from left to right: a comment or a literal where one is found, and a character of code
where none is. -/
inductive Pass : List Char → List Token → Prop
  | done : Pass [] []
  | found {t : Token} {rest : List Char} {ts : List Token} (h : Found t rest) (hrest : Pass rest ts) :
      Pass (t.chars ++ rest) (t :: ts)
  | code {c : Char} {rest : List Char} {ts : List Token}
      (h : ∀ t more, Found t more → t.chars ++ more ≠ c :: rest) (hrest : Pass rest ts) :
      Pass (c :: rest) (.code c :: ts)

section

variable {quote c : Char} {cs body rest more inner : List Char} {t : Token} {ts : List Token}

theorem ne_backslash_of_isQuote (h : isQuote quote = true) : quote ≠ '\\' := by
  rintro rfl
  exact absurd h (by decide)

theorem ne_slash_of_isQuote (h : isQuote quote = true) : quote ≠ '/' := by
  rintro rfl
  exact absurd h (by decide)

/-- A literal ends where it is closed. -/
theorem ClosedBy.literalEnd_eq (h : ClosedBy quote body) (hquote : quote ≠ '\\') (rest : List Char) :
    literalEnd quote (body ++ rest) = some (body, rest) := by
  induction h with
  | close => rw [List.cons_append, literalEnd_cons hquote, if_pos rfl, List.nil_append]
  | @plain c cs hc hescape hline _ ih =>
    have hgoes : ¬ (decide (c = '\n') && decide (quote ≠ '\x60')) = true := by simpa using hline
    rw [List.cons_append, literalEnd_cons hescape, if_neg hc, if_neg hgoes, ih, Option.map_some]
  | escaped c _ ih => rw [List.cons_append, List.cons_append, literalEnd, ih, Option.map_some]

theorem closedBy_of_literalEnd (h : literalEnd quote cs = some (body, rest)) :
    ClosedBy quote body := by
  fun_induction literalEnd quote cs generalizing body rest with
  | case1 => simp at h
  | case2 => simp at h
  | case3 c r ih =>
    obtain ⟨⟨b, s⟩, hb, he⟩ := Option.map_eq_some_iff.mp h
    obtain ⟨rfl, rfl⟩ := Prod.mk.inj he
    exact .escaped c (ih hb)
  | case4 r hend hpair =>
    obtain ⟨rfl, rfl⟩ := Prod.mk.inj (Option.some.inj h)
    exact .close
  | case5 => simp at h
  | case6 c r hend hpair hq hn ih =>
    obtain ⟨⟨b, s⟩, hb, he⟩ := Option.map_eq_some_iff.mp h
    obtain ⟨rfl, rfl⟩ := Prod.mk.inj he
    exact .plain hq (ne_backslash hend hpair) (by simpa using hn) (ih hb)

/-- A block comment ends at its first end mark. -/
theorem blockEnd_of_not_infix (h : ¬ ['*', '/'] <:+: inner) (rest : List Char) :
    blockEnd (inner ++ ['*', '/'] ++ rest) = some (inner ++ ['*', '/'], rest) := by
  induction inner with
  | nil => rfl
  | cons c inner ih =>
    have hlater : ¬ ['*', '/'] <:+: inner := by
      intro hin
      exact h (List.infix_cons_iff.mpr (.inr hin))
    rw [List.cons_append, List.cons_append, blockEnd, ih hlater, Option.map_some]
    -- the first two characters are an end mark only if the second is the first of `inner`
    rintro tail rfl hslash
    cases inner with
    | nil => exact absurd (List.cons.inj hslash).1 (by decide)
    | cons d inner =>
      obtain rfl : d = '/' := (List.cons.inj hslash).1
      exact h ⟨[], inner, rfl⟩

theorem exists_inner_of_blockEnd (h : blockEnd cs = some (body, rest)) :
    ∃ inner, body = inner ++ ['*', '/'] ∧ ¬ ['*', '/'] <:+: inner := by
  fun_induction blockEnd cs generalizing body rest with
  | case1 => simp at h
  | case2 r =>
    obtain ⟨rfl, rfl⟩ := Prod.mk.inj (Option.some.inj h)
    exact ⟨[], rfl, by simp⟩
  | case3 c r hmark ih =>
    obtain ⟨⟨b, s⟩, hb, he⟩ := Option.map_eq_some_iff.mp h
    obtain ⟨rfl, rfl⟩ := Prod.mk.inj he
    obtain ⟨inner, rfl, hinner⟩ := ih hb
    refine ⟨c :: inner, rfl, ?_⟩
    intro hin
    rcases List.infix_cons_iff.mp hin with hfirst | hlater
    · obtain ⟨tail, htail⟩ := hfirst
      obtain ⟨rfl, rfl⟩ := List.cons.inj htail
      exact hmark _ rfl (chars_blockEnd hb).symm
    · exact hinner hlater

/-! ## 2. The one pass -/

/-- What is found in front of a rest is the first token. -/
theorem Found.exists_firstToken (h : Found t more) :
    ∃ c rest, t.chars ++ more = c :: rest ∧ firstToken c rest = (t, more) := by
  cases h with
  | @line body _ hbody hrest =>
    refine ⟨'/', '/' :: (body ++ more), rfl, ?_⟩
    have hall := ne_lineEnd_of_not_mem hbody
    rw [firstToken_line, List.takeWhile_append_of_pos hall, List.dropWhile_append_of_pos hall]
    cases more with
    | nil => rw [List.takeWhile_nil, List.dropWhile_nil, List.append_nil]
    | cons d more =>
      obtain rfl := hrest d rfl
      rw [List.takeWhile_cons_of_neg (by decide), List.dropWhile_cons_of_neg (by decide),
        List.append_nil]
  | @block inner _ hinner =>
    refine ⟨'/', '*' :: (inner ++ ['*', '/'] ++ more), rfl, ?_⟩
    rw [firstToken_block, blockEnd_of_not_infix hinner]
  | @literal quote body _ hquote hbody =>
    refine ⟨quote, body ++ more, rfl, ?_⟩
    unfold firstToken
    rw [if_neg (ne_slash_of_isQuote hquote), if_pos hquote,
      hbody.literalEnd_eq (ne_backslash_of_isQuote hquote)]

theorem found_line (more : List Char) :
    Found (.comment ('/' :: '/' :: more.takeWhile (· ≠ '\n'))) (more.dropWhile (· ≠ '\n')) := by
  refine .line ?_ ?_
  · intro hmem
    have hline := List.all_eq_true.mp List.all_takeWhile _ hmem
    exact absurd hline (by decide)
  · intro c hc
    have hnot := List.head?_dropWhile_not (· ≠ '\n') more
    rw [hc] at hnot
    simpa using hnot

/-- A first token that is more than a character of code is found. -/
theorem found_of_firstToken (h : firstToken c rest = (t, more)) (ht : t ≠ .code c) : Found t more := by
  by_cases hslash : c = '/'
  · subst hslash
    cases rest with
    | nil => exact (ht (Prod.mk.inj h).1.symm).elim
    | cons d rest =>
      by_cases hline : d = '/'
      · subst hline
        rw [firstToken_line] at h
        obtain ⟨rfl, rfl⟩ := Prod.mk.inj h
        exact found_line rest
      · by_cases hblock : d = '*'
        · subst hblock
          rw [firstToken_block] at h
          split at h
          · next body behind hend =>
            obtain ⟨rfl, rfl⟩ := Prod.mk.inj h
            obtain ⟨inner, rfl, hinner⟩ := exists_inner_of_blockEnd hend
            exact .block behind hinner
          · exact (ht (Prod.mk.inj h).1.symm).elim
        · rw [firstToken_slash hline hblock] at h
          exact (ht (Prod.mk.inj h).1.symm).elim
  · unfold firstToken at h
    rw [if_neg hslash] at h
    split at h
    · next hquote =>
      split at h
      · next body behind hend =>
        obtain ⟨rfl, rfl⟩ := Prod.mk.inj h
        exact .literal behind hquote (closedBy_of_literalEnd hend)
      · exact (ht (Prod.mk.inj h).1.symm).elim
    · exact (ht (Prod.mk.inj h).1.symm).elim

/-- A first token is found, or nothing is found and it is the first character. -/
theorem found_or_code (c : Char) (rest : List Char) :
    Found (firstToken c rest).1 (firstToken c rest).2 ∨
      firstToken c rest = (.code c, rest) ∧
        ∀ t more, Found t more → t.chars ++ more ≠ c :: rest := by
  by_cases ht : (firstToken c rest).1 = .code c
  · right
    have hcode : firstToken c rest = (.code c, rest) := Prod.ext ht (eq_of_firstToken_code (Prod.ext ht rfl))
    refine ⟨hcode, ?_⟩
    intro t more hfound hcs
    obtain ⟨d, behind, hd, hfirst⟩ := hfound.exists_firstToken
    obtain ⟨rfl, rfl⟩ := List.cons.inj (hcs.symm.trans hd)
    obtain ⟨rfl, rfl⟩ := Prod.mk.inj (hcode.symm.trans hfirst)
    cases hfound
  · exact .inl (found_of_firstToken rfl ht)

theorem pass_tokensUpTo (n : Nat) (cs : List Char) (h : cs.length ≤ n) : Pass cs (tokensUpTo n cs) := by
  induction n generalizing cs with
  | zero =>
    obtain rfl : cs = [] := List.length_eq_zero_iff.mp (Nat.le_zero.mp h)
    exact .done
  | succ n ih =>
    cases cs with
    | nil => exact .done
    | cons c rest =>
      have hlen := length_firstToken c rest
      rw [List.length_cons] at h
      have hrest := ih (firstToken c rest).2 (by omega)
      rw [tokensUpTo]
      rcases found_or_code c rest with hfound | ⟨hcode, hnone⟩
      · have hpass := Pass.found hfound hrest
        rwa [chars_firstToken] at hpass
      · rw [hcode] at hrest ⊢
        exact .code hnone hrest

theorem Pass.eq_tokens (h : Pass cs ts) : ts = tokens cs := by
  induction h with
  | done => rfl
  | @found t rest ts h _ ih =>
    obtain ⟨c, cs, hcs, hfirst⟩ := h.exists_firstToken
    rw [hcs, tokens_cons, hfirst, ih]
  | @code c rest ts h _ ih =>
    rcases found_or_code c rest with hfound | ⟨hcode, -⟩
    · exact (h _ _ hfound (chars_firstToken c rest)).elim
    · rw [tokens_cons, hcode, ih]

/-- **The tokens of a text are the one pass over it.** -/
theorem pass_iff : Pass cs ts ↔ ts = tokens cs := by
  constructor
  · exact Pass.eq_tokens
  · rintro rfl
    exact pass_tokensUpTo cs.length cs (Nat.le_refl _)

end

/-! ## 3. Characters in comments -/

/-- Whether a token is a comment. -/
def Token.isComment : Token → Bool
  | .comment _ => true
  | _ => false

/-- The characters of the tokens, each with whether it lies in a comment. -/
def marked (ts : List Token) : List (Char × Bool) :=
  ts.flatMap fun t => t.chars.map fun c => (c, t.isComment)

/-- The characters of the tokens, line by line. -/
def markedLines (ts : List Token) : List (List (Char × Bool)) :=
  (marked ts).splitOnP fun x => x.1 == '\n'

theorem map_fst_marked (ts : List Token) : (marked ts).map Prod.fst = ts.flatMap Token.chars := by
  rw [marked, List.map_flatMap]
  simp only [List.map_map, Function.comp_def, List.map_id']

theorem kept_eq (t : Token) :
    t.kept = ((t.chars.map fun c => (c, t.isComment)).filter fun x => !x.2 || x.1 == '\n').map Prod.fst := by
  cases t <;>
    simp [Token.kept, Token.chars, Token.isComment, List.filter_map, Function.comp_def, beq_eq_decide]

/-- **Without its comments a text is the characters that lie in none, and the line breaks.** -/
theorem withoutComments_eq (cs : List Char) :
    withoutComments cs = ((marked (tokens cs)).filter fun x => !x.2 || x.1 == '\n').map Prod.fst := by
  rw [withoutComments, marked, List.filter_flatMap, List.map_flatMap]
  exact List.flatMap_congr fun t _ => kept_eq t

theorem count_kept (t : Token) : t.kept.count '\n' = t.chars.count '\n' := by
  cases t with
  | comment cs => rw [kept_comment, List.count_replicate_self, Token.chars]
  | literal cs => rfl
  | code c => rfl

/-- Line breaks stay. -/
theorem count_withoutComments (cs : List Char) : (withoutComments cs).count '\n' = cs.count '\n' := by
  conv_rhs => rw [← chars_tokens cs]
  rw [withoutComments, List.count_flatMap, List.count_flatMap]
  congr 1
  exact List.map_congr_left fun t _ => count_kept t

/-! ## 4. Line by line -/

section

variable {α β : Type}

theorem splitOnP_map (p : β → Bool) (f : α → β) (xs : List α) :
    (xs.map f).splitOnP p = (xs.splitOnP fun x => p (f x)).map (List.map f) := by
  induction xs with
  | nil => rfl
  | cons x xs ih =>
    obtain ⟨line, later, hlines⟩ := List.exists_cons_of_ne_nil (List.splitOnP_ne_nil (fun x => p (f x)) xs)
    rw [List.map_cons, List.splitOnP_cons_eq_if_modifyHead, List.splitOnP_cons_eq_if_modifyHead, ih, hlines]
    cases p (f x) <;> rfl

/-- What is removed leaves the parts apart, as long as what they are apart by stays. -/
theorem splitOnP_filter_or (p q : α → Bool) (xs : List α) :
    (xs.filter fun x => q x || p x).splitOnP p = (xs.splitOnP p).map (List.filter q) := by
  induction xs with
  | nil => rfl
  | cons x xs ih =>
    obtain ⟨line, later, hlines⟩ := List.exists_cons_of_ne_nil (List.splitOnP_ne_nil p xs)
    rw [List.filter_cons, List.splitOnP_cons_eq_if_modifyHead (p := p) x xs, hlines]
    rw [hlines] at ih
    cases hp : p x with
    | true => simp [List.splitOnP_cons_eq_if_modifyHead, hp, ih]
    | false =>
      cases hq : q x with
      | true => simp [List.splitOnP_cons_eq_if_modifyHead, hp, hq, ih]
      | false => simp [hq, ih]

end

theorem map_fst_markedLines (cs : List Char) :
    (markedLines (tokens cs)).map (List.map Prod.fst) = cs.splitOn '\n' := by
  rw [markedLines, List.splitOn_eq_splitOnP]
  conv_rhs => rw [← chars_tokens cs, ← map_fst_marked, splitOnP_map]

theorem splitOn_withoutComments (cs : List Char) :
    (withoutComments cs).splitOn '\n' =
      (markedLines (tokens cs)).map fun line => (line.filter fun x => !x.2).map Prod.fst := by
  rw [withoutComments_eq, List.splitOn_eq_splitOnP, splitOnP_map, splitOnP_filter_or, List.map_map]
  rfl

/-- **Each line stays the line that it was, without the characters in comments.**  There is one pass over a
text, and by the comments of that pass each line of the text is told apart into what stays and what does not.
What stays of the lines are the lines of the text without its comments, and there are as many line breaks in
it.  A literal of the pass stands in it between what is left of the tokens on either side. -/
theorem lines_withoutComments (cs : List Char) :
    ∃ ts, (∀ us, Pass cs us ↔ us = ts) ∧
      (withoutComments cs).count '\n' = cs.count '\n' ∧
      (markedLines ts).map (List.map Prod.fst) = cs.splitOn '\n' ∧
      (withoutComments cs).splitOn '\n' =
        (markedLines ts).map (fun line => (line.filter fun x => !x.2).map Prod.fst) ∧
      ∀ before quoted after, ts = before ++ .literal quoted :: after →
        withoutComments cs = before.flatMap Token.kept ++ quoted ++ after.flatMap Token.kept := by
  refine ⟨tokens cs, fun us => pass_iff, count_withoutComments cs, map_fst_markedLines cs,
    splitOn_withoutComments cs, ?_⟩
  intro before quoted after hts
  rw [withoutComments, hts, List.flatMap_append, List.flatMap_cons, List.append_assoc]
  rfl

/-- A comment mark in a literal, a comment over two lines and a comment that is not closed. -/
example : withoutComments "a('//'); /* one\ntwo */ b(); /* c".toList =
    "a('//'); \n b(); /* c".toList := by
  decide +kernel

end Tsconfig.Source
