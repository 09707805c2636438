/-
# Comments and literals

Source text is cut, from left to right, into comments, string and template literals, and single
characters of code.  A literal that is not closed, and a block comment that is not closed, is no token:
its first character is code and cutting goes on behind it.  So a comment mark inside a literal opens no
comment, and a quote inside a comment opens no literal.

The tokens of a text make up the text again (`chars_tokens`).  Removing the comments keeps their line
breaks (`withoutComments`), so that every line stays on its line.
-/

namespace Tsconfig.Source

/-- A piece of source text. -/
inductive Token
  | comment (chars : List Char)
  | literal (chars : List Char)
  | code (c : Char)
  deriving DecidableEq

/-- The text of a token. -/
def Token.chars : Token → List Char
  | .comment cs => cs
  | .literal cs => cs
  | .code c => [c]

/-! ## 1. Where tokens end -/

/-- A block comment up to its end mark, and the rest. -/
def blockEnd : List Char → Option (List Char × List Char)
  | [] => none
  | '*' :: '/' :: rest => some (['*', '/'], rest)
  | c :: rest => (blockEnd rest).map fun p => (c :: p.1, p.2)

/-- A literal up to its closing quote, and the rest.  A backslash takes the next character with it.
Only a template goes on over a line break. -/
def literalEnd (quote : Char) : List Char → Option (List Char × List Char)
  | [] => none
  | '\\' :: [] => none
  | '\\' :: c :: rest => (literalEnd quote rest).map fun p => ('\\' :: c :: p.1, p.2)
  | c :: rest =>
    if c = quote then some ([c], rest)
    else if c = '\n' && quote ≠ '\x60' then none
    else (literalEnd quote rest).map fun p => (c :: p.1, p.2)

/-- Whether a character opens a literal. -/
def isQuote (c : Char) : Bool :=
  c = '"' || c = '\x27' || c = '\x60'

/-- The first token of a text that starts with `c`, and the rest. -/
def firstToken (c : Char) (rest : List Char) : Token × List Char :=
  if c = '/' then
    match rest with
    | '/' :: more =>
      (.comment ('/' :: '/' :: more.takeWhile (· ≠ '\n')), more.dropWhile (· ≠ '\n'))
    | '*' :: more =>
      match blockEnd more with
      | some (body, more) => (.comment ('/' :: '*' :: body), more)
      | none => (.code c, rest)
    | _ => (.code c, rest)
  else if isQuote c then
    match literalEnd c rest with
    | some (body, more) => (.literal (c :: body), more)
    | none => (.code c, rest)
  else (.code c, rest)

/-! ## 2. The tokens of a text -/

/-- The first `n` tokens of a text. -/
def tokensUpTo : Nat → List Char → List Token
  | 0, _ => []
  | _, [] => []
  | n + 1, c :: rest =>
    let (t, rest) := firstToken c rest
    t :: tokensUpTo n rest

/-- The tokens of a text; there are no more than characters. -/
def tokens (cs : List Char) : List Token := tokensUpTo cs.length cs

/-- What is left of a token without its comment: the line breaks. -/
def Token.kept : Token → List Char
  | .comment cs => cs.filter (· = '\n')
  | .literal cs => cs
  | .code c => [c]

/-- The text without its comments. -/
def withoutComments (cs : List Char) : List Char := (tokens cs).flatMap Token.kept

/-! ## 3. Nothing is lost -/

theorem chars_blockEnd {cs body rest : List Char} (h : blockEnd cs = some (body, rest)) :
    body ++ rest = cs := by
  fun_induction blockEnd cs generalizing body rest with
  | case1 => simp at h
  | case2 r =>
    simp only [Option.some.injEq, Prod.mk.injEq] at h
    obtain ⟨rfl, rfl⟩ := h
    rfl
  | case3 c r _ ih =>
    obtain ⟨⟨b, s⟩, hb, he⟩ := Option.map_eq_some_iff.1 h
    simp only [Prod.mk.injEq] at he
    obtain ⟨rfl, rfl⟩ := he
    simp [ih hb]

theorem chars_literalEnd {quote : Char} {cs body rest : List Char}
    (h : literalEnd quote cs = some (body, rest)) : body ++ rest = cs := by
  fun_induction literalEnd quote cs generalizing body rest with
  | case1 => simp at h
  | case2 => simp at h
  | case3 c r ih =>
    obtain ⟨⟨b, s⟩, hb, he⟩ := Option.map_eq_some_iff.1 h
    simp only [Prod.mk.injEq] at he
    obtain ⟨rfl, rfl⟩ := he
    simp [ih hb]
  | case4 r =>
    simp only [Option.some.injEq, Prod.mk.injEq] at h
    obtain ⟨rfl, rfl⟩ := h
    rfl
  | case5 => simp at h
  | case6 c r _ _ _ _ ih =>
    obtain ⟨⟨b, s⟩, hb, he⟩ := Option.map_eq_some_iff.1 h
    simp only [Prod.mk.injEq] at he
    obtain ⟨rfl, rfl⟩ := he
    simp [ih hb]

theorem chars_firstToken (c : Char) (rest : List Char) :
    (firstToken c rest).1.chars ++ (firstToken c rest).2 = c :: rest := by
  unfold firstToken
  split
  · next hc =>
    subst hc
    split
    · simp [Token.chars]
    · split
      · next body more hb => simp [Token.chars, chars_blockEnd hb]
      · rfl
    · rfl
  · split
    · split
      · next body more hb => simp [Token.chars, chars_literalEnd hb]
      · rfl
    · rfl

theorem length_firstToken (c : Char) (rest : List Char) :
    (firstToken c rest).2.length ≤ rest.length := by
  have h := congrArg List.length (chars_firstToken c rest)
  have : 0 < (firstToken c rest).1.chars.length := by
    unfold firstToken
    repeat' split
    all_goals simp [Token.chars]
  simp only [List.length_append, List.length_cons] at h
  omega

theorem chars_tokensUpTo (n : Nat) (cs : List Char) (h : cs.length ≤ n) :
    (tokensUpTo n cs).flatMap Token.chars = cs := by
  induction n generalizing cs with
  | zero =>
    have : cs = [] := List.length_eq_zero_iff.1 (by omega)
    simp [this, tokensUpTo]
  | succ n ih =>
    cases cs with
    | nil => simp [tokensUpTo]
    | cons c rest =>
      have hlen := length_firstToken c rest
      simp only [List.length_cons] at h
      simp only [tokensUpTo, List.flatMap_cons]
      rw [ih _ (by omega)]
      exact chars_firstToken c rest

/-- The tokens of a text make up the text. -/
theorem chars_tokens (cs : List Char) : (tokens cs).flatMap Token.chars = cs :=
  chars_tokensUpTo _ cs (Nat.le_refl _)

end Tsconfig.Source
