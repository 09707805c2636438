/-
# Reference directives, and what hides them

A directive may go on over line ends: between its words, within its quotes, and from the closing quote to
the bracket that ends it.  So a directive that was begun in a text, with its opening quote, and that did
not end there goes on into what stands behind the text, and whatever directive stands there is a part of
it (`isUnfinished_iff`).  Nothing else that stands in front of a directive has a say in whether it is read.

Directives are looked for at line starts, and behind a directive the search goes on at the next line start.
The first line start looked at where an unfinished directive stands, if there is one, is the pending line of
the text (`pendingLine?`).  **What is read of a text with another one on the lines behind
it is what is read of the two, if no line is pending**, and otherwise what is read from the pending line on
comes in the place of the other one (`clauses_directive_append`).  For a directive on a line of its own:
**it is read, between the directives of the text in front of it and those of the text behind it, unless a
line is pending, and then the pending directive is read in its place** (`files_around`).
-/
import Tsconfig.Proofs.Source.Mentions

namespace Tsconfig.Source

open Text (isBlank isIndent)
open scoped Computability

/-! ## 1. Directives as texts -/

/-- What stands in front of the quotes of a directive. -/
def directiveFront : Language Char :=
  (oneOf isIndent)∗ * word "///" * ((oneOf isIndent)∗ * word "<reference") * someOf isBlank *
    word "path" * ((oneOf isBlank)∗ * word "=") * (oneOf isBlank)∗

/-- A directive, in its parts. -/
structure Directive where
  front : List Char
  opening : Char
  path : List Char
  closing : Char
  tail : List Char
  front_mem : front ∈ directiveFront
  opening_quote : isStringQuote opening = true
  path_mem : path ∈ someOf isOutside
  closing_quote : isStringQuote closing = true
  tail_open : '>' ∉ tail

/-- The text of a directive. -/
def Directive.text (x : Directive) : List Char :=
  x.front ++ x.opening :: (x.path ++ x.closing :: (x.tail ++ ['>']))

/-- The text behind the opening quote of a directive that does not end: characters of a path, or a path with
its closing quote and no bracket behind. -/
def Unended (back : List Char) : Prop :=
  (∀ c ∈ back, isOutside c = true) ∨ ∃ path ∈ someOf isOutside, ∃ q tail,
    isStringQuote q = true ∧ '>' ∉ tail ∧ back = path ++ q :: tail

section

variable {cs line next rest path : List Char} {q : Char} {s : String}

theorem ne_of_isStringQuote {c : Char} (hq : isStringQuote q = true) (hc : isStringQuote c = false) :
    q ≠ c := by
  rintro rfl
  rw [hq] at hc
  cases hc

theorem reads_indent_word (hs : s.toList.head?.any (fun c => !isIndent c) = true) :
    Reads (fun cs => after? s.toList (skipIndent cs)) ((oneOf isIndent)∗ * word s) (fun _ => false) :=
  (reads_dropWhile isIndent).bind (reads_after s) fun _ _ => startsOutside_word_mul hs

theorem reads_directiveHead : Reads directiveHead? directiveFront isBlank := by
  have hmarks := reads_indent_word (s := "///") rfl
  have htag := hmarks.bind (reads_indent_word (s := "<reference") rfl) fun _ _ => startsOutside_false
  have hblanks := htag.bind reads_afterBlanks fun _ _ => startsOutside_false
  have hpath := hblanks.bind (reads_after "path") fun _ _ => startsOutside_word_mul rfl
  have hequals := hpath.bind (reads_blanks_word (s := "=") rfl) fun _ _ => startsOutside_false
  exact hequals.skipBlanks fun _ _ => startsOutside_false

/-- The head of a directive, up to a quote. -/
theorem directiveHead?_eq_some (hq : isStringQuote q = true) :
    directiveHead? cs = some (q :: rest) ↔ ∃ front ∈ directiveFront, front ++ q :: rest = cs := by
  refine reads_directiveHead.eq_some ?_
  rintro _ rfl c hc
  obtain rfl := Option.some.inj hc
  exact isBlank_of_isStringQuote hq

theorem isOutside_eq : (fun c => !isStringQuote c) = isOutside := rfl

theorem quotedPath?_eq_some : quotedText? isOutside cs = some (path, rest) ↔ ∃ q q',
    isStringQuote q = true ∧ isStringQuote q' = true ∧ path ∈ someOf isOutside ∧
      cs = q :: (path ++ q' :: rest) :=
  quotedText?_eq_some fun _ => isOutside_of_isStringQuote

/-- A directive up to its closing quote. -/
theorem quotedDirective?_eq_some :
    (directiveHead? cs).bind (quotedText? isOutside) = some (path, rest) ↔ ∃ front ∈ directiveFront,
      ∃ q q', isStringQuote q = true ∧ isStringQuote q' = true ∧ path ∈ someOf isOutside ∧
        front ++ q :: (path ++ q' :: rest) = cs := by
  rw [Option.bind_eq_some_iff]
  constructor
  · rintro ⟨_, hhead, hquoted⟩
    obtain ⟨q, q', hq, hq', hpath, rfl⟩ := quotedPath?_eq_some.mp hquoted
    obtain ⟨front, hfront, rfl⟩ := (directiveHead?_eq_some hq).mp hhead
    exact ⟨front, hfront, q, q', hq, hq', hpath, rfl⟩
  · rintro ⟨front, hfront, q, q', hq, hq', hpath, rfl⟩
    exact ⟨_, (directiveHead?_eq_some hq).mpr ⟨front, hfront, rfl⟩,
      quotedPath?_eq_some.mpr ⟨q, q', hq, hq', hpath, rfl⟩⟩

theorem ne_bracket_of_not_mem (h : '>' ∉ cs) : ∀ c ∈ cs, decide (c ≠ '>') = true :=
  fun _ hc => decide_eq_true (ne_of_mem_of_not_mem hc h)

theorem directive?_of_bracket {tail : List Char} (htail : '>' ∉ tail)
    (h : (directiveHead? cs).bind (quotedText? isOutside) = some (path, tail ++ '>' :: rest)) :
    directive? cs = some (path, rest) := by
  rw [directive?, isOutside_eq, h]
  dsimp only
  rw [List.dropWhile_append_of_pos (ne_bracket_of_not_mem htail)]
  rfl

theorem directive?_of_not_mem (hrest : '>' ∉ rest)
    (h : (directiveHead? cs).bind (quotedText? isOutside) = some (path, rest)) :
    directive? cs = none := by
  rw [directive?, isOutside_eq, h]
  dsimp only
  rw [List.dropWhile_eq_nil_iff.mpr (ne_bracket_of_not_mem hrest)]

theorem directive?_of_quoted (h : (directiveHead? cs).bind (quotedText? isOutside) = none) :
    directive? cs = none := by
  rw [directive?, isOutside_eq, h]

/-- **The reader of directives reads directives and no more.** -/
theorem directive?_eq_some :
    directive? cs = some (path, rest) ↔ ∃ x : Directive, x.text ++ rest = cs ∧ x.path = path := by
  constructor
  · intro h
    cases hquoted : (directiveHead? cs).bind (quotedText? isOutside) with
    | none =>
      rw [directive?_of_quoted hquoted] at h
      cases h
    | some p =>
      obtain ⟨found, behind⟩ := p
      by_cases hmem : '>' ∈ behind
      · obtain ⟨tail, more, rfl, htail⟩ := List.eq_append_cons_of_mem hmem
        rw [directive?_of_bracket htail hquoted] at h
        obtain ⟨rfl, rfl⟩ := Prod.mk.inj (Option.some.inj h)
        obtain ⟨front, hfront, q, q', hq, hq', hpath, rfl⟩ := quotedDirective?_eq_some.mp hquoted
        exact ⟨⟨front, q, found, q', tail, hfront, hq, hpath, hq', htail⟩,
          by simp [Directive.text], rfl⟩
      · rw [directive?_of_not_mem hmem hquoted] at h
        cases h
  · rintro ⟨x, rfl, rfl⟩
    refine directive?_of_bracket x.tail_open (quotedDirective?_eq_some.mpr ?_)
    exact ⟨x.front, x.front_mem, x.opening, x.closing, x.opening_quote, x.closing_quote, x.path_mem,
      by simp [Directive.text]⟩

/-- A directive is read whatever stands behind it. -/
theorem directive?_append (h : directive? cs = some (path, rest)) (more : List Char) :
    directive? (cs ++ more) = some (path, rest ++ more) := by
  obtain ⟨x, rfl, hpath⟩ := directive?_eq_some.mp h
  exact directive?_eq_some.mpr ⟨x, by rw [List.append_assoc], hpath⟩

end

/-! ## 2. Unfinished directives -/

/-- Whether a text starts with a quote and, behind it, a directive does not end. -/
def opensUnended : List Char → Bool
  | [] => false
  | q :: back => isStringQuote q &&
    (back.all isOutside || (quotedText? isOutside (q :: back)).any fun p => !p.2.contains '>')

/-- Whether a directive is begun at the start of a text, with its opening quote, and does not end. -/
def isUnfinished (line : List Char) : Bool := (directiveHead? line).any opensUnended

section

variable {cs line next rest path back u v : List Char} {q : Char}

theorem opensUnended_iff : opensUnended cs = true ↔
    ∃ q back, isStringQuote q = true ∧ Unended back ∧ cs = q :: back := by
  constructor
  · intro h
    cases cs with
    | nil => cases h
    | cons q back =>
      simp only [opensUnended, Bool.and_eq_true, Bool.or_eq_true, List.all_eq_true, Option.any_eq_true,
        Bool.not_eq_true', List.contains_eq_mem, decide_eq_false_iff_not] at h
      obtain ⟨hq, hall | ⟨⟨path, tail⟩, hquoted, htail⟩⟩ := h
      · exact ⟨q, back, hq, Or.inl hall, rfl⟩
      · obtain ⟨_, q', -, hq', hpath, hcons⟩ := quotedPath?_eq_some.mp hquoted
        exact ⟨q, back, hq, Or.inr ⟨path, hpath, q', tail, hq', htail, (List.cons.inj hcons).2⟩, rfl⟩
  · rintro ⟨q, back, hq, hall | ⟨path, hpath, q', tail, hq', htail, rfl⟩, rfl⟩
    · simp only [opensUnended, hq, List.all_eq_true.mpr hall, Bool.true_or, Bool.and_self]
    · have hquoted : quotedText? isOutside (q :: (path ++ q' :: tail)) = some (path, tail) :=
        quotedPath?_eq_some.mpr ⟨q, q', hq, hq', hpath, rfl⟩
      simp [opensUnended, hq, hquoted, htail]

/-- **An unfinished directive**: the front of a directive, a quote, and no end behind it. -/
theorem isUnfinished_iff : isUnfinished line = true ↔ ∃ front ∈ directiveFront, ∃ q back,
    isStringQuote q = true ∧ Unended back ∧ front ++ q :: back = line := by
  rw [isUnfinished, Option.any_eq_true]
  constructor
  · rintro ⟨_, hhead, hopens⟩
    obtain ⟨q, back, hq, hback, rfl⟩ := opensUnended_iff.mp hopens
    obtain ⟨front, hfront, rfl⟩ := (directiveHead?_eq_some hq).mp hhead
    exact ⟨front, hfront, q, back, hq, hback, rfl⟩
  · rintro ⟨front, hfront, q, back, hq, hback, rfl⟩
    exact ⟨_, (directiveHead?_eq_some hq).mpr ⟨front, hfront, rfl⟩,
      opensUnended_iff.mpr ⟨q, back, hq, hback, rfl⟩⟩

theorem ne_slash_of_isBlank (c : Char) (h : isBlank c = true) : decide (c ≠ '/') = true := by
  refine decide_eq_true ?_
  rintro rfl
  revert h
  decide

theorem ne_slash_of_isIndent (c : Char) (h : isIndent c = true) : decide (c ≠ '/') = true :=
  ne_slash_of_isBlank c (isBlank_of_isIndent h)

/-- Behind a line end in front of the opening quote there is no slash. -/
theorem slash_not_mem_of_front (h : u ++ '\n' :: v ∈ directiveFront) : '/' ∉ v := by
  simp only [directiveFront, mul_assoc] at h
  obtain ⟨indent, hindent, _, ⟨_, rfl, words, hwords, rfl⟩, heq⟩ := h
  have hmarks : '\n' ∉ indent ++ "///".toList := by
    intro hmem
    rcases List.mem_append.mp hmem with hmem | hmem
    · cases mem_kstar_oneOf.mp hindent _ hmem
    · revert hmem
      decide
  obtain ⟨w, -, rfl⟩ := exists_append_of_not_mem hmarks ((List.append_assoc ..).trans heq)
  have hindents : MadeOf (· ≠ '/') (oneOf isIndent)∗ := madeOf_kstar.mono ne_slash_of_isIndent
  have hblanks : MadeOf (· ≠ '/') (oneOf isBlank)∗ := madeOf_kstar.mono ne_slash_of_isBlank
  have hmade := madeOf_mul hindents (madeOf_mul (madeOf_word (s := "<reference") rfl)
    (madeOf_mul (madeOf_someOf.mono ne_slash_of_isBlank) (madeOf_mul (madeOf_word (s := "path") rfl)
      (madeOf_mul hblanks (madeOf_mul (madeOf_word (s := "=") rfl) hblanks)))))
  intro hmem
  have hslash := hmade _ hwords '/' (List.mem_append_right w (List.mem_cons_of_mem _ hmem))
  cases hslash

/-- A directive that a line end cuts behind its opening quote does not end in front of the line end. -/
theorem unended_of_cut {x : Directive}
    (h : x.path ++ x.closing :: (x.tail ++ ['>']) = back ++ '\n' :: v) : Unended back := by
  rcases List.append_eq_append_iff.mp h with ⟨w, rfl, hw⟩ | ⟨w, hpath, -⟩
  · cases w with
    | nil => exact (ne_of_isStringQuote x.closing_quote rfl (List.cons.inj hw).1).elim
    | cons q w =>
      obtain ⟨rfl, hbehind⟩ := List.cons.inj hw
      replace hbehind : x.tail ++ ['>'] = w ++ '\n' :: v := hbehind
      refine Or.inr ⟨x.path, x.path_mem, x.closing, w, x.closing_quote, ?_, rfl⟩
      obtain rfl | ⟨v, c, rfl⟩ := List.eq_nil_or_concat' v
      · cases (List.append_inj' hbehind rfl).2
      · rw [← List.cons_append, ← List.append_assoc] at hbehind
        have htail := (List.append_inj' hbehind rfl).1
        intro hmem
        exact x.tail_open (htail ▸ List.mem_append_left _ hmem)
  · refine Or.inl fun c hc => ?_
    exact (mem_someOf.mp x.path_mem).2 c (hpath ▸ List.mem_append_left w hc)

/-- **What goes on behind a line end, in front of a slash, was begun in front of it.** -/
theorem isUnfinished_of_append (hnone : directive? line = none) (hnext : next.head? = some '/')
    (h : directive? (line ++ '\n' :: next) = some (path, rest)) : isUnfinished line = true := by
  obtain ⟨x, hx, rfl⟩ := directive?_eq_some.mp h
  have hnot : ∀ w, x.text ++ w ≠ line := by
    rintro w rfl
    rw [directive?_eq_some.mpr ⟨x, rfl, rfl⟩] at hnone
    cases hnone
  rcases List.append_eq_append_iff.mp hx with ⟨w, hline, -⟩ | ⟨w, htext, hw⟩
  · exact (hnot w hline.symm).elim
  · cases w with
    | nil => exact (hnot [] (by rw [htext, List.append_nil, List.append_nil])).elim
    | cons c w =>
      obtain ⟨rfl, rfl⟩ := List.cons.inj hw
      rcases List.append_eq_append_iff.mp htext with ⟨back, rfl, hback⟩ | ⟨v, hfront, hv⟩
      · cases back with
        | nil => exact (ne_of_isStringQuote x.opening_quote rfl (List.cons.inj hback).1).elim
        | cons q back =>
          obtain ⟨rfl, hbehind⟩ := List.cons.inj hback
          exact isUnfinished_iff.mpr
            ⟨x.front, x.front_mem, x.opening, back, x.opening_quote, unended_of_cut hbehind, rfl⟩
      · -- the line end would stand in front of the opening quote, where no slash follows
        cases v with
        | nil => exact (ne_of_isStringQuote x.opening_quote rfl (List.cons.inj hv).1.symm).elim
        | cons c v =>
          obtain ⟨rfl, rfl⟩ := List.cons.inj hv
          have hslash := slash_not_mem_of_front (hfront ▸ x.front_mem)
          cases v with
          | nil => exact (ne_of_isStringQuote x.opening_quote rfl (Option.some.inj hnext)).elim
          | cons d v =>
            obtain rfl : d = '/' := Option.some.inj hnext
            exact (hslash List.mem_cons_self).elim

/-- Behind an unfinished directive a quote and, behind that, a bracket make it a directive. -/
theorem directive?_of_isUnfinished {m tail : List Char} (h : isUnfinished line = true)
    (hm : m ∈ someOf isOutside) (hbracket : '>' ∉ m) (hq : isStringQuote q = true)
    (htail : '>' ∉ tail) :
    ∃ path, directive? (line ++ (m ++ q :: (tail ++ '>' :: rest))) = some (path, rest) := by
  obtain ⟨front, hfront, q', back, hq', hback, rfl⟩ := isUnfinished_iff.mp h
  rcases hback with hall | ⟨path, hpath, q'', tail', hq'', htail', rfl⟩
  · have hpath : back ++ m ∈ someOf isOutside := by
      obtain ⟨hne, hmall⟩ := mem_someOf.mp hm
      exact mem_someOf.mpr ⟨List.append_ne_nil_of_right_ne_nil back hne,
        List.forall_mem_append.mpr ⟨hall, hmall⟩⟩
    refine ⟨back ++ m, directive?_eq_some.mpr
      ⟨⟨front, q', back ++ m, q, tail, hfront, hq', hpath, hq, htail⟩, ?_, rfl⟩⟩
    simp [Directive.text]
  · have htail'' : '>' ∉ tail' ++ (m ++ q :: tail) := by
      have hne : '>' ≠ q := (ne_of_isStringQuote hq rfl).symm
      simp [htail', hbracket, hne, htail]
    refine ⟨path, directive?_eq_some.mpr ⟨⟨front, q', path, q'', tail' ++ (m ++ q :: tail),
      hfront, hq', hpath, hq'', htail''⟩, ?_, rfl⟩⟩
    simp [Directive.text]

/-- Behind a quote and, behind that, a bracket a directive has ended. -/
theorem not_unended (hq : isStringQuote q = true) (hv : '>' ∈ v) : ¬ Unended (u ++ q :: v) := by
  rintro (hall | ⟨path, hpath, q', tail, -, htail, heq⟩)
  · have hout := hall q (by simp)
    rw [isOutside_of_isStringQuote hq] at hout
    cases hout
  · rcases List.append_eq_append_iff.mp heq with ⟨w, hw, hcons⟩ | ⟨w, -, hcons⟩
    · cases w with
      | nil => exact htail ((List.cons.inj hcons).2 ▸ hv)
      | cons c w =>
        obtain rfl := (List.cons.inj hcons).1
        have hout := (mem_someOf.mp hpath).2 q (hw ▸ List.mem_append_right u List.mem_cons_self)
        rw [isOutside_of_isStringQuote hq] at hout
        cases hout
    · refine htail ?_
      cases w with
      | nil => exact (List.cons.inj hcons).2 ▸ hv
      | cons c w =>
        rw [(List.cons.inj hcons).2]
        exact List.mem_append_right w (List.mem_cons_of_mem q hv)

/-- The first character of a directive behind its indent is a slash. -/
theorem Directive.exists_front (x : Directive) :
    ∃ indent more, (∀ c ∈ indent, isIndent c = true) ∧ x.front = indent ++ '/' :: more := by
  have hfront := x.front_mem
  simp only [directiveFront, mul_assoc] at hfront
  obtain ⟨indent, hindent, _, ⟨_, rfl, words, -, rfl⟩, heq⟩ := hfront
  exact ⟨indent, _, mem_kstar_oneOf.mp hindent, heq.symm⟩

/-- A slash behind an indent does not stand behind a quote. -/
theorem indent_ne {indent more : List Char} (hindent : ∀ c ∈ indent, isIndent c = true)
    (hq : isStringQuote q = true) (hv : '/' ∉ v) : indent ++ '/' :: more ≠ v ++ q :: back := by
  intro h
  obtain ⟨w, rfl, hw⟩ := exists_append_of_not_mem hv h.symm
  cases w with
  | nil => exact ne_of_isStringQuote hq rfl (List.cons.inj hw).1.symm
  | cons c w =>
    obtain ⟨rfl, -⟩ := List.cons.inj hw
    have hblank := isBlank_of_isIndent (hindent c (List.mem_append_right v List.mem_cons_self))
    rw [isBlank_of_isStringQuote hq] at hblank
    cases hblank

/-- **No directive stands in an unfinished one.** -/
theorem directive?_of_lineOf (h : isUnfinished cs = true) (hline : LineOf cs line) :
    directive? line = none := by
  obtain ⟨front, hfront, q, back, hq, hback, rfl⟩ := isUnfinished_iff.mp h
  obtain ⟨start, hstart, hls⟩ := hline
  cases hread : directive? line with
  | none => rfl
  | some p =>
    exfalso
    obtain ⟨x, rfl, -⟩ := directive?_eq_some.mp hread
    let behind := x.path ++ x.closing :: (x.tail ++ '>' :: p.2)
    have hbracket : '>' ∈ behind := by simp [behind]
    have htext : x.text ++ p.2 = x.front ++ x.opening :: behind := by simp [Directive.text, behind]
    rw [htext] at hstart
    obtain ⟨indent, more, hindent, hmarks⟩ := x.exists_front
    have hne {v : List Char} (hv : '/' ∉ v) : x.front ++ x.opening :: behind ≠ v ++ q :: back := by
      rw [hmarks, List.append_assoc, List.cons_append]
      exact indent_ne hindent hq hv
    rcases List.append_eq_append_iff.mp hstart with ⟨v, rfl, hv⟩ | ⟨w, -, hw⟩
    · rcases hls with rfl | ⟨u, rfl⟩
      · -- the directive would start where the unfinished one does
        have hhead : directiveHead? (x.front ++ x.opening :: behind) = some (x.opening :: behind) :=
          (directiveHead?_eq_some x.opening_quote).mpr ⟨x.front, x.front_mem, rfl⟩
        rw [hv, (directiveHead?_eq_some hq).mpr ⟨v, hfront, rfl⟩] at hhead
        obtain ⟨-, rfl⟩ := List.cons.inj (Option.some.inj hhead)
        exact not_unended x.closing_quote (by simp) hback
      · rw [List.append_assoc] at hfront
        exact hne (slash_not_mem_of_front hfront) hv
    · cases w with
      | nil => exact hne (v := []) List.not_mem_nil hw.symm
      | cons c w =>
        obtain ⟨-, hbehind⟩ := List.cons.inj hw
        have hsplit : back = (w ++ x.front) ++ x.opening :: behind := by
          rw [List.append_assoc]
          exact hbehind
        exact not_unended x.opening_quote hbracket (hsplit ▸ hback)

end

/-! ## 3. Clauses line by line -/

/-- A reader of clauses leaves no more than the text. -/
def Shrinks {α : Type} (clause : List Char → Option (α × List Char)) : Prop :=
  ∀ {cs x rest}, clause cs = some (x, rest) → rest.length ≤ cs.length

section

variable {α : Type} {clause : List Char → Option (α × List Char)} {cs : List Char} {n m : Nat}

/-- What is behind the clause that a text starts with, or the text. -/
def behindClause (clause : List Char → Option (α × List Char)) (cs : List Char) : List Char :=
  ((clause cs).map Prod.snd).getD cs

/-- The clause at the start of a text, if there is one, and those from the next line start on. -/
theorem clausesUpTo_succ : clausesUpTo clause (n + 1) cs = ((clause cs).map Prod.fst).toList ++
    (nextLine? (behindClause clause cs)).elim [] (clausesUpTo clause n) := by
  cases h : clause cs with
  | none =>
    simp only [clausesUpTo, behindClause, h, Option.map_none, Option.getD_none]
    cases nextLine? cs <;> rfl
  | some p =>
    simp only [clausesUpTo, behindClause, h, Option.map_some, Option.getD_some]
    cases nextLine? p.2 <;> rfl

theorem Shrinks.length_behindClause (h : Shrinks clause) (cs : List Char) :
    (behindClause clause cs).length ≤ cs.length := by
  rw [behindClause]
  cases hclause : clause cs with
  | none => exact Nat.le_refl _
  | some p => exact h hclause

/-- More line starts than there are make no difference. -/
theorem Shrinks.clausesUpTo_eq (h : Shrinks clause) (hn : cs.length < n) (hm : cs.length < m) :
    clausesUpTo clause n cs = clausesUpTo clause m cs := by
  induction n generalizing m cs with
  | zero => omega
  | succ n ih =>
    obtain ⟨m, rfl⟩ := Nat.exists_eq_succ_of_ne_zero (Nat.ne_zero_of_lt hm)
    rw [Nat.succ_eq_add_one, clausesUpTo_succ, clausesUpTo_succ]
    cases hnext : nextLine? (behindClause clause cs) with
    | none => rfl
    | some next =>
      have hlen := Nat.lt_of_lt_of_le (length_nextLine? hnext) (h.length_behindClause _)
      exact congrArg _ (ih (by omega) (by omega))

/-- **The clauses of a text**: the one at its start, and those from the next line start behind it on. -/
theorem Shrinks.clauses_eq (h : Shrinks clause) (cs : List Char) : clauses clause cs =
    ((clause cs).map Prod.fst).toList ++
      (nextLine? (behindClause clause cs)).elim [] (clauses clause) := by
  rw [clauses, clausesUpTo_succ]
  cases hnext : nextLine? (behindClause clause cs) with
  | none => rfl
  | some next =>
    have hlen := Nat.lt_of_lt_of_le (length_nextLine? hnext) (h.length_behindClause _)
    exact congrArg _ (h.clausesUpTo_eq hlen (Nat.lt_succ_self _))

theorem clausesUpTo_eq_nil (h : ∀ line, LineOf cs line → clause line = none) :
    clausesUpTo clause n cs = [] := by
  induction n generalizing cs with
  | zero => rfl
  | succ n ih =>
    have hcs := h cs (lineOf_iff.mpr (Or.inl rfl))
    rw [clausesUpTo_succ, behindClause, hcs]
    cases hnext : nextLine? cs with
    | none => simp [hnext]
    | some next =>
      have hlines : ∀ line, LineOf next line → clause line = none := fun line hline =>
        h line (lineOf_iff.mpr (Or.inr (exists_nextLine_iff.mpr ⟨next, hnext, hline⟩)))
      simpa [hnext] using ih hlines

/-- The next line of a text with another line behind it. -/
theorem nextLine?_append_line (next : List Char) : nextLine? (cs ++ '\n' :: next) =
    some ((nextLine? cs).elim next fun line => line ++ '\n' :: next) := by
  cases hnext : nextLine? cs with
  | none =>
    have hmem : '\n' ∉ cs := by
      intro hmem
      obtain ⟨u, line, rfl, hu⟩ := List.eq_append_cons_of_mem hmem
      rw [nextLine?_append hu] at hnext
      cases hnext
    exact nextLine?_append hmem
  | some line =>
    obtain ⟨u, hu, rfl⟩ := nextLine?_eq_some.mp hnext
    rw [List.append_assoc, List.cons_append, nextLine?_append hu]
    rfl

end

/-! ## 4. What is pending at the end of a text -/

/-- The line starts at which a text is looked at for a directive, each with all that stands behind it. -/
def lookedAt (cs : List Char) : List (List Char) :=
  clauses (fun line => some (line, behindClause directive? line)) cs

/-- The first line start that is looked at where an unfinished directive stands. -/
def pendingLine? (cs : List Char) : Option (List Char) := (lookedAt cs).find? isUnfinished

section

variable {cs next : List Char}

theorem shrinks_directive : Shrinks directive? := by
  intro cs path rest h
  obtain ⟨x, rfl, -⟩ := directive?_eq_some.mp h
  simp

theorem lookedAt_eq (cs : List Char) :
    lookedAt cs = cs :: (nextLine? (behindClause directive? cs)).elim [] lookedAt := by
  have hshrinks : Shrinks fun line => some (line, behindClause directive? line) := by
    intro cs line rest h
    obtain ⟨-, rfl⟩ := Prod.mk.inj (Option.some.inj h)
    exact shrinks_directive.length_behindClause _
  exact hshrinks.clauses_eq cs

theorem pendingLine?_of_unfinished (h : isUnfinished cs = true) : pendingLine? cs = some cs := by
  rw [pendingLine?, lookedAt_eq, List.find?_cons_of_pos h]

theorem pendingLine?_of_not (h : ¬ isUnfinished cs = true) :
    pendingLine? cs = (nextLine? (behindClause directive? cs)).bind pendingLine? := by
  rw [pendingLine?, lookedAt_eq, List.find?_cons_of_neg h]
  cases nextLine? (behindClause directive? cs) <;> rfl

/-- Where no directive is pending, a directive is read as it would be without the lines behind it. -/
theorem directive?_line (h : ¬ isUnfinished cs = true) (hnext : next.head? = some '/') :
    (directive? (cs ++ '\n' :: next)).map Prod.fst = (directive? cs).map Prod.fst ∧
      behindClause directive? (cs ++ '\n' :: next) = behindClause directive? cs ++ '\n' :: next := by
  simp only [behindClause]
  cases hread : directive? cs with
  | some p => simp [directive?_append hread]
  | none =>
    have hboth : directive? (cs ++ '\n' :: next) = none := by
      cases hread' : directive? (cs ++ '\n' :: next) with
      | none => rfl
      | some p => exact (h (isUnfinished_of_append hread hnext hread')).elim
    simp [hboth]

/-- **The directives of a text with lines behind it** that start with a slash: those of the text, and then
those of the lines, or what is read from the pending line on. -/
theorem clauses_directive_append (hnext : next.head? = some '/') (cs : List Char) :
    clauses directive? (cs ++ '\n' :: next) = clauses directive? cs ++
      (pendingLine? cs).elim (clauses directive? next) fun line =>
        clauses directive? (line ++ '\n' :: next) := by
  induction hlen : cs.length using Nat.strong_induction_on generalizing cs with
  | _ n ih =>
    by_cases hunfinished : isUnfinished cs = true
    · have hnone : clauses directive? cs = [] :=
        clausesUpTo_eq_nil fun _ => directive?_of_lineOf hunfinished
      rw [pendingLine?_of_unfinished hunfinished, hnone]
      rfl
    · obtain ⟨hfirst, hbehind⟩ := directive?_line hunfinished hnext
      rw [shrinks_directive.clauses_eq, hfirst, hbehind, nextLine?_append_line,
        pendingLine?_of_not hunfinished, shrinks_directive.clauses_eq cs, List.append_assoc]
      refine congrArg _ ?_
      cases hline : nextLine? (behindClause directive? cs) with
      | none => rfl
      | some line =>
        have hshorter : line.length < n := by
          have hle := length_nextLine? hline
          have hle' := shrinks_directive.length_behindClause cs
          omega
        exact ih line.length hshorter line rfl

end

/-! ## 5. A directive on a line of its own -/

/-- The reference directive of a name. -/
def referenceTag (name : String) : String := "/// <reference path=\"" ++ name ++ "\" />"

section

variable {name : String} {after : List Char}

theorem referenceTag_front : "/// <reference path=".toList ∈ directiveFront := by
  have hhead : directiveHead? "/// <reference path=\"".toList = some ['"'] := by decide +kernel
  obtain ⟨front, hfront, heq⟩ := (directiveHead?_eq_some (q := '"') rfl).mp hhead
  obtain rfl : front = "/// <reference path=".toList := (List.append_inj' heq rfl).1
  exact hfront

theorem toList_referenceTag (name : String) : (referenceTag name).toList =
    "/// <reference path=".toList ++ '"' :: (name.toList ++ '"' :: " />".toList) := by
  have hfront : "/// <reference path=\"".toList = "/// <reference path=".toList ++ ['"'] := by
    decide +kernel
  have hback : "\" />".toList = '"' :: " />".toList := by decide +kernel
  unfold referenceTag
  rw [String.toList_append, String.toList_append, hfront, hback, List.append_assoc, List.append_assoc]
  exact rfl

theorem directive?_referenceTag (hne : name ≠ "") (hquote : ∀ c ∈ name.toList, isStringQuote c = false)
    (after : List Char) :
    directive? ((referenceTag name).toList ++ after) = some (name.toList, after) := by
  have hname : name.toList ∈ someOf isOutside :=
    mem_someOf.mpr ⟨fun h => hne (String.toList_eq_nil_iff.mp h),
      fun c hc => by simp [isOutside, hquote c hc]⟩
  refine directive?_eq_some.mpr ⟨⟨_, '"', name.toList, '"', " /".toList,
    referenceTag_front, rfl, hname, rfl, by decide⟩, ?_, rfl⟩
  rw [toList_referenceTag]
  simp [Directive.text]

/-- What a directive says, with its line ended and a text behind it. -/
theorem clauses_of_directive? {cs path rest : List Char} (h : directive? cs = some (path, rest))
    (hnext : nextLine? rest = some after) :
    clauses directive? cs = path :: clauses directive? after := by
  rw [shrinks_directive.clauses_eq, behindClause, h]
  simp [hnext]

/-- An unfinished directive takes the directive of a name with it, and ends on its line. -/
theorem exists_directive?_pending {line : List Char} (hline : '\n' ∉ name.toList)
    (h : isUnfinished line = true) (after : List Char) : ∃ path rest,
      directive? (line ++ '\n' :: ((referenceTag name).toList ++ '\n' :: after)) = some (path, rest) ∧
        nextLine? rest = some after := by
  have hbracket : '>' ∈ name.toList ++ '"' :: " />".toList := by simp
  have hlines : '\n' ∉ name.toList ++ '"' :: " />".toList := by simp [hline]
  obtain ⟨tail, rest, hsplit, htail⟩ := List.eq_append_cons_of_mem hbracket
  have hrest : '\n' ∉ rest := by
    rw [hsplit] at hlines
    exact fun hmem => hlines (List.mem_append_right tail (List.mem_cons_of_mem _ hmem))
  have hm : '\n' :: "/// <reference path=".toList ∈ someOf isOutside :=
    mem_someOf.mpr ⟨List.cons_ne_nil _ _, List.all_eq_true.mp (by decide)⟩
  obtain ⟨path, hpath⟩ : ∃ path, directive? (line ++ ('\n' :: "/// <reference path=".toList ++
      '"' :: (tail ++ '>' :: (rest ++ '\n' :: after)))) = some (path, rest ++ '\n' :: after) :=
    directive?_of_isUnfinished h hm (by decide) rfl htail
  refine ⟨path, rest ++ '\n' :: after, ?_, nextLine?_append hrest⟩
  rw [← hpath, toList_referenceTag, hsplit]
  simp

end

/-- **A directive on a line of its own is read, whatever stands around it, unless a directive is pending in
front of it.**  If none is, it is read between the directives of the text in front of it and those of the
text behind it.  If one is, that one goes on into the line and is read in its place. -/
theorem files_around {name : String} (hne : name ≠ "")
    (hquote : ∀ c ∈ name.toList, isStringQuote c = false) (hline : '\n' ∉ name.toList)
    (before after : String) :
    (pendingLine? before.toList = none →
      (references (before ++ "\n" ++ referenceTag name ++ "\n" ++ after)).files =
        (references before).files ++ name :: (references after).files) ∧
    ∀ line, pendingLine? before.toList = some line → ∃ path rest,
      directive? (line ++ ("\n" ++ referenceTag name ++ "\n" ++ after).toList) = some (path, rest) ∧
      (references (before ++ "\n" ++ referenceTag name ++ "\n" ++ after)).files =
        (references before).files ++ String.ofList path :: (references after).files := by
  have hnext : ((referenceTag name).toList ++ '\n' :: after.toList).head? = some '/' := by
    rw [toList_referenceTag]
    rfl
  have htext (line : List Char) : line ++ ("\n" ++ referenceTag name ++ "\n" ++ after).toList =
      line ++ '\n' :: ((referenceTag name).toList ++ '\n' :: after.toList) := by
    simp [String.toList_append]
  have hfiles : (references (before ++ "\n" ++ referenceTag name ++ "\n" ++ after)).files =
      (clauses directive? (before.toList ++
        '\n' :: ((referenceTag name).toList ++ '\n' :: after.toList))).map String.ofList := by
    simp [references, String.toList_append]
  rw [hfiles, clauses_directive_append hnext]
  constructor
  · intro hpending
    have htag := clauses_of_directive? (directive?_referenceTag hne hquote ('\n' :: after.toList))
      (nextLine?_append (u := []) List.not_mem_nil)
    rw [hpending, Option.elim_none, htag]
    simp [references]
  · intro line hpending
    obtain ⟨path, rest, hread, hbehind⟩ :=
      exists_directive?_pending hline (List.find?_some hpending) after.toList
    refine ⟨path, rest, by rw [htext, hread], ?_⟩
    rw [hpending, Option.elim_some, clauses_of_directive? hread hbehind]
    simp [references]

/-- Code, a directive with a stray quote behind it, a line that starts like a directive, and a directive that
ends on the next line. -/
def busyText : String :=
  "let a = '/*';\n/// <reference path='x' /> // \"\n/// <reference no path=\"\n/// <reference path=\"y\"\n/>"

theorem files_around_busy : ("z\\w>" ≠ "" ∧ (∀ c ∈ "z\\w>".toList, isStringQuote c = false) ∧
    '\n' ∉ "z\\w>".toList ∧ pendingLine? busyText.toList = none) ∧
      (references (busyText ++ "\n" ++ referenceTag "z\\w>" ++ "\n" ++ busyText)).files =
        (references busyText).files ++ "z\\w>" :: (references busyText).files ∧
      (references busyText).files = ["x", "y"] := by
  have hpending : pendingLine? busyText.toList = none := by decide +kernel
  have hquote : ∀ c ∈ "z\\w>".toList, isStringQuote c = false := by
    simpa using List.any_eq_false.mp (show "z\\w>".toList.any isStringQuote = false by decide)
  have hline : '\n' ∉ "z\\w>".toList := by decide
  have hne : "z\\w>" ≠ "" := by decide
  exact ⟨⟨hne, hquote, hline, hpending⟩,
    (files_around hne hquote hline busyText busyText).1 hpending, by decide +kernel⟩

/-- **An unfinished directive on an earlier line hides a directive**: one without its bracket, and one with
nothing behind its opening quote. -/
theorem files_around_hidden :
    (∀ c ∈ "b.ts".toList, isStringQuote c = false ∧ c ≠ '\n') ∧
      "b.ts" ∉ (references
        ("/// <reference path=\"a.ts\"" ++ "\n" ++ referenceTag "b.ts" ++ "\n" ++ "")).files ∧
      "b.ts" ∉ (references
        ("/// <reference path=\"" ++ "\n" ++ referenceTag "b.ts" ++ "\n" ++ "")).files := by
  refine ⟨?_, by decide +kernel, by decide +kernel⟩
  simpa using List.all_eq_true.mp
    (show "b.ts".toList.all (fun c => !isStringQuote c && c ≠ '\n') = true by decide)

end Tsconfig.Source
