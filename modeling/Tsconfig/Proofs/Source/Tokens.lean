/-
# What a comment says does not matter

A text is cut from left to right, so the tokens in front of a comment could depend on what it says: an
open quote in front of it may find its closing quote in the comment, a slash its star, an open comment its
end mark.  But then the token goes on into the comment, and the comment is none.

So where a comment is found behind a text, the tokens of that text are those that the text decides by
itself: a literal or comment that ends within it ends there whatever comes behind
(`firstToken_of_append`), and a quote or slash that opens nothing within it opens nothing with another
comment behind it either (`firstToken_congr`).  **Two comments that are found behind the same text are
found behind the same tokens** (`tokens_congr`), and with as many line breaks in them they leave the same
text (`withoutComments_congr`), in which the same imports are read (`imports_congr`).
-/
import Mathlib.Data.List.Basic
import Tsconfig.Source.References

namespace Tsconfig.Source

/-! ## 1. One token after the other -/

section

variable {c : Char} {cs rest : List Char}

theorem tokensUpTo_eq {m n : Nat} (hm : cs.length ≤ m) (hn : cs.length ≤ n) :
    tokensUpTo m cs = tokensUpTo n cs := by
  induction m generalizing n cs with
  | zero =>
    obtain rfl : cs = [] := List.length_eq_zero_iff.mp (Nat.le_zero.mp hm)
    cases n <;> rfl
  | succ m ih =>
    cases cs with
    | nil => cases n <;> rfl
    | cons c rest =>
      obtain ⟨k, rfl⟩ : ∃ k, n = k + 1 := Nat.exists_eq_succ_of_ne_zero (by simp at hn; omega)
      have hlen := length_firstToken c rest
      simp only [List.length_cons] at hm hn
      simp only [tokensUpTo]
      rw [ih (by omega) (by omega : (firstToken c rest).2.length ≤ k)]

/-- The tokens of a text are its first token and those of the rest. -/
theorem tokens_cons (c : Char) (rest : List Char) :
    tokens (c :: rest) = (firstToken c rest).1 :: tokens (firstToken c rest).2 := by
  have hlen := length_firstToken c rest
  rw [tokens, tokens, List.length_cons, tokensUpTo]
  simp only
  rw [tokensUpTo_eq hlen (Nat.le_refl _)]

end

/-! ## 2. Tokens that end within a text -/

section

variable {q c : Char} {cs body rest front more r u x y : List Char} {t : Token}

theorem literalEnd_cons (hc : c ≠ '\\') (cs : List Char) :
    literalEnd q (c :: cs) =
      if c = q then some ([c], cs)
      else if c = '\n' && q ≠ '\x60' then none
      else (literalEnd q cs).map fun p => (c :: p.1, p.2) := by
  rw [literalEnd]
  · rintro rfl
    exact (hc rfl).elim
  · rintro d ds rfl
    exact (hc rfl).elim

/-- A character that is read by itself is no backslash, since a backslash ends the text or takes the next
character with it. -/
theorem ne_backslash (hend : c = '\\' → cs = [] → False)
    (hpair : ∀ d ds, c = '\\' → cs = d :: ds → False) : c ≠ '\\' := by
  intro hc
  cases cs with
  | nil => exact hend hc rfl
  | cons d ds => exact hpair d ds hc rfl

/-- A literal ends at the first quote that closes it, whatever comes behind. -/
theorem literalEnd_append (h : literalEnd q cs = some (body, rest)) (more : List Char) :
    literalEnd q (body ++ more) = some (body, more) := by
  fun_induction literalEnd q cs generalizing body rest with
  | case1 => simp at h
  | case2 => simp at h
  | case3 c r ih =>
    obtain ⟨⟨b, s⟩, hb, he⟩ := Option.map_eq_some_iff.mp h
    obtain ⟨rfl, rfl⟩ := Prod.mk.inj he
    simp [literalEnd, ih hb]
  | case4 r hend hpair =>
    obtain ⟨rfl, rfl⟩ := Prod.mk.inj (Option.some.inj h)
    simp [literalEnd_cons (ne_backslash hend hpair)]
  | case5 => simp at h
  | case6 c r hend hpair hq hn ih =>
    obtain ⟨⟨b, s⟩, hb, he⟩ := Option.map_eq_some_iff.mp h
    obtain ⟨rfl, rfl⟩ := Prod.mk.inj he
    simp only [List.cons_append, literalEnd_cons (ne_backslash hend hpair), if_neg hq, if_neg hn, ih hb,
      Option.map_some]

theorem literalEnd_of_append (h : literalEnd q (front ++ x) = some (body, r ++ x)) (y : List Char) :
    literalEnd q (front ++ y) = some (body, r ++ y) := by
  have hchars := chars_literalEnd h
  rw [← List.append_assoc] at hchars
  obtain rfl := List.append_cancel_right hchars
  rw [List.append_assoc, literalEnd_append h]

theorem blockEnd_ne_nil (h : blockEnd cs = some (body, rest)) : body ≠ [] := by
  rintro rfl
  fun_cases blockEnd cs <;> simp_all [blockEnd]

/-- A block comment ends at the first mark that ends it, whatever comes behind. -/
theorem blockEnd_append (h : blockEnd cs = some (body, rest)) (more : List Char) :
    blockEnd (body ++ more) = some (body, more) := by
  fun_induction blockEnd cs generalizing body rest with
  | case1 => simp at h
  | case2 r =>
    obtain ⟨rfl, rfl⟩ := Prod.mk.inj (Option.some.inj h)
    rfl
  | case3 c r hmark ih =>
    obtain ⟨⟨b, s⟩, hb, he⟩ := Option.map_eq_some_iff.mp h
    obtain ⟨rfl, rfl⟩ := Prod.mk.inj he
    have hr := chars_blockEnd hb
    rw [List.cons_append, blockEnd, ih hb]
    · rfl
    · -- the end mark would stand in what the comment holds
      rintro tail rfl hslash
      cases b with
      | nil => exact blockEnd_ne_nil hb rfl
      | cons d b =>
        obtain rfl : d = '/' := (List.cons.inj hslash).1
        exact hmark _ rfl hr.symm

theorem blockEnd_of_append (h : blockEnd (front ++ x) = some (body, r ++ x)) (y : List Char) :
    blockEnd (front ++ y) = some (body, r ++ y) := by
  have hchars := chars_blockEnd h
  rw [← List.append_assoc] at hchars
  obtain rfl := List.append_cancel_right hchars
  rw [List.append_assoc, blockEnd_append h]

theorem ne_lineEnd_of_not_mem (hu : '\n' ∉ u) : ∀ c ∈ u, decide (c ≠ '\n') = true :=
  fun _ hc => decide_eq_true (ne_of_mem_of_not_mem hc hu)

/-- A line that ends in front of a slash ends in the text in front of it. -/
theorem mem_of_dropWhile (h : (front ++ '/' :: x).dropWhile (· ≠ '\n') = r ++ '/' :: x) :
    '\n' ∈ front := by
  by_contra hmem
  rw [List.dropWhile_append_of_pos (ne_lineEnd_of_not_mem hmem), List.dropWhile_cons_of_pos (by decide)] at h
  have hle := (List.dropWhile_suffix (l := x) fun c => decide (c ≠ '\n')).sublist.length_le
  rw [h, List.length_append, List.length_cons] at hle
  omega

theorem firstToken_line (more : List Char) : firstToken '/' ('/' :: more) =
    (.comment ('/' :: '/' :: more.takeWhile (· ≠ '\n')), more.dropWhile (· ≠ '\n')) := rfl

theorem firstToken_block (more : List Char) : firstToken '/' ('*' :: more) =
    match blockEnd more with
    | some (body, more) => (.comment ('/' :: '*' :: body), more)
    | none => (.code '/', '*' :: more) := rfl

theorem firstToken_slash {d : Char} (hline : d ≠ '/') (hblock : d ≠ '*') (more : List Char) :
    firstToken '/' (d :: more) = (.code '/', d :: more) := by
  unfold firstToken
  simp [hline, hblock]

/-- A line comment ends at its line end, whatever stands behind it. -/
theorem firstToken_line_append
    (h : firstToken '/' ('/' :: (front ++ '/' :: x)) = (t, r ++ '/' :: x)) (y : List Char) :
    firstToken '/' ('/' :: (front ++ '/' :: y)) = (t, r ++ '/' :: y) := by
  rw [firstToken_line] at h ⊢
  obtain ⟨rfl, hrest⟩ := Prod.mk.inj h
  obtain ⟨line, behind, rfl, hline⟩ := List.eq_append_cons_of_mem (mem_of_dropWhile hrest)
  have hall := ne_lineEnd_of_not_mem hline
  rw [List.append_assoc, List.dropWhile_append_of_pos hall] at hrest
  obtain rfl : '\n' :: behind = r := List.append_cancel_right hrest
  rw [List.append_assoc, List.append_assoc, List.takeWhile_append_of_pos hall,
    List.takeWhile_append_of_pos hall, List.dropWhile_append_of_pos hall]
  rfl

/-- A literal or a comment that ends in front of a slash ends there whatever stands behind it. -/
theorem firstToken_of_append (h : firstToken c (front ++ '/' :: x) = (t, r ++ '/' :: x))
    (ht : t ≠ .code c) (y : List Char) :
    firstToken c (front ++ '/' :: y) = (t, r ++ '/' :: y) := by
  by_cases hc : c = '/'
  · subst hc
    cases front with
    | nil =>
      -- the slash behind the first one opens a line comment that takes the rest of the line with it
      have hdrop : ([] ++ '/' :: x).dropWhile (· ≠ '\n') = r ++ '/' :: x := (Prod.mk.inj h).2
      exact (List.not_mem_nil (mem_of_dropWhile hdrop)).elim
    | cons d front =>
      by_cases hline : d = '/'
      · subst hline
        exact firstToken_line_append h y
      · by_cases hblock : d = '*'
        · subst hblock
          rw [List.cons_append, firstToken_block] at h ⊢
          split at h
          · next body more hend =>
            obtain ⟨rfl, rfl⟩ := Prod.mk.inj h
            rw [blockEnd_of_append hend]
          · exact (ht (Prod.mk.inj h).1.symm).elim
        · rw [List.cons_append, firstToken_slash hline hblock] at h
          exact (ht (Prod.mk.inj h).1.symm).elim
  · unfold firstToken at h ⊢
    rw [if_neg hc] at h ⊢
    split at h
    · next hq =>
      rw [if_pos hq]
      split at h
      · next body more hend =>
        obtain ⟨rfl, rfl⟩ := Prod.mk.inj h
        rw [literalEnd_of_append hend]
      · exact (ht (Prod.mk.inj h).1.symm).elim
    · exact (ht (Prod.mk.inj h).1.symm).elim

/-- A character that opens nothing leaves the rest as it is. -/
theorem eq_of_firstToken_code (h : firstToken c rest = (.code c, more)) : more = rest := by
  have hchars := chars_firstToken c rest
  rw [h] at hchars
  exact (List.cons.inj hchars).2

/-- **Where the first token ends in front of a comment, with two comments, it is the same token.** -/
theorem firstToken_congr {t₁ t₂ : Token} {r₁ r₂ : List Char}
    (h₁ : firstToken c (front ++ '/' :: x) = (t₁, r₁ ++ '/' :: x))
    (h₂ : firstToken c (front ++ '/' :: y) = (t₂, r₂ ++ '/' :: y)) : t₁ = t₂ ∧ r₁ = r₂ := by
  by_cases ht₁ : t₁ = .code c
  · by_cases ht₂ : t₂ = .code c
    · subst ht₁ ht₂
      constructor
      · rfl
      · rw [List.append_cancel_right (eq_of_firstToken_code h₁),
          List.append_cancel_right (eq_of_firstToken_code h₂)]
    · obtain ⟨ht, hr⟩ := Prod.mk.inj (h₁.symm.trans (firstToken_of_append h₂ ht₂ x))
      exact ⟨ht, List.append_cancel_right hr⟩
  · obtain ⟨ht, hr⟩ := Prod.mk.inj ((firstToken_of_append h₁ ht₁ y).symm.trans h₂)
    exact ⟨ht, List.append_cancel_right hr⟩

end

/-! ## 3. The tokens in front of a comment -/

/-- The cut of a text in three parts finds the part in the middle as a comment, behind the first. -/
def FindsComment (a c b : List Char) : Prop :=
  ∃ before after, tokens (a ++ c ++ b) = before ++ .comment c :: after ∧
    before.flatMap Token.chars = a

section

variable {a b c c₁ c₂ cs : List Char} {front back : List Token}

/-- What is cut behind the first tokens is cut as it would be by itself. -/
theorem tokens_of_append (h : tokens cs = front ++ back) : tokens (back.flatMap Token.chars) = back := by
  induction front generalizing cs with
  | nil => rw [← List.nil_append back, ← h, chars_tokens]
  | cons t front ih =>
    cases cs with
    | nil => cases h
    | cons c rest =>
      rw [tokens_cons, List.cons_append] at h
      exact ih (List.cons.inj h).2

theorem exists_firstToken_of_mem {t : Token} (h : t ∈ tokens cs) :
    ∃ c rest, t = (firstToken c rest).1 := by
  obtain ⟨front, back, hcs⟩ := List.append_of_mem h
  have hback := tokens_of_append hcs
  cases hrest : (t :: back).flatMap Token.chars with
  | nil =>
    rw [hrest] at hback
    cases hback
  | cons c rest =>
    rw [hrest, tokens_cons] at hback
    exact ⟨c, rest, (List.cons.inj hback).1.symm⟩

theorem chars_ne_nil_of_mem_tokens {t : Token} (h : t ∈ tokens cs) : t.chars ≠ [] := by
  obtain ⟨c, rest, rfl⟩ := exists_firstToken_of_mem h
  have hchars := congrArg List.length (chars_firstToken c rest)
  have hlen := length_firstToken c rest
  rintro hnil
  rw [hnil, List.nil_append, List.length_cons] at hchars
  omega

/-- A comment starts with a slash. -/
theorem exists_slash_of_comment (h : .comment c ∈ tokens cs) : ∃ x, c = '/' :: x := by
  obtain ⟨d, rest, ht⟩ := exists_firstToken_of_mem h
  unfold firstToken at ht
  repeat' split at ht
  all_goals cases ht
  all_goals exact ⟨_, rfl⟩

theorem FindsComment.exists_slash (h : FindsComment a c b) : ∃ x, c = '/' :: x := by
  obtain ⟨front, back, ht, -⟩ := h
  have hmem : .comment c ∈ tokens (a ++ c ++ b) := by
    rw [ht]
    exact List.mem_append_right _ List.mem_cons_self
  exact exists_slash_of_comment hmem

/-- Behind a comment that is found, the text is cut as it would be by itself. -/
theorem FindsComment.exists_tokens (h : FindsComment a c b) :
    ∃ front, tokens (a ++ c ++ b) = front ++ .comment c :: tokens b ∧
      front.flatMap Token.chars = a := by
  obtain ⟨front, back, ht, ha⟩ := h
  have hchars := chars_tokens (a ++ c ++ b)
  rw [ht, List.flatMap_append, ha, List.flatMap_cons, List.append_assoc] at hchars
  have hb : back.flatMap Token.chars = b := List.append_cancel_left (List.append_cancel_left hchars)
  have hback := tokens_of_append (ht.trans (List.append_cons front (.comment c) back))
  rw [hb] at hback
  exact ⟨front, by rw [ht, hback], ha⟩

/-- The first token of a text, when the tokens in front of a rest make up that text. -/
theorem firstToken_of_tokens {t : Token} {a z : List Char}
    (h : tokens (a ++ z) = t :: front ++ back) (ha : (t :: front).flatMap Token.chars = a) :
    ∃ c more, a = c :: more ∧ firstToken c (more ++ z) = (t, front.flatMap Token.chars ++ z) ∧
      tokens (front.flatMap Token.chars ++ z) = front ++ back := by
  have hmem : t ∈ tokens (a ++ z) := by
    rw [h]
    exact List.mem_cons_self
  obtain ⟨c, more, hat⟩ : ∃ c more, a = c :: more := by
    refine List.exists_cons_of_ne_nil ?_
    rintro rfl
    exact chars_ne_nil_of_mem_tokens hmem (List.append_eq_nil_iff.mp ha).1
  have hchars := chars_firstToken c (more ++ z)
  rw [hat, List.cons_append, tokens_cons, List.cons_append] at h
  obtain ⟨hfirst, hrest⟩ := List.cons.inj h
  rw [hfirst, ← List.cons_append, ← hat, ← ha, List.flatMap_cons, List.append_assoc] at hchars
  have hsnd := List.append_cancel_left hchars
  rw [hsnd] at hrest
  exact ⟨c, more, hat, Prod.ext hfirst hsnd, hrest⟩

/-- The tokens that make up the text in front of a slash do not depend on what is behind it. -/
theorem front_congr {front₁ front₂ back₁ back₂ : List Token} {a x y : List Char}
    (h₁ : tokens (a ++ '/' :: x) = front₁ ++ back₁) (ha₁ : front₁.flatMap Token.chars = a)
    (h₂ : tokens (a ++ '/' :: y) = front₂ ++ back₂) (ha₂ : front₂.flatMap Token.chars = a) :
    front₁ = front₂ := by
  induction front₁ generalizing a front₂ with
  | nil =>
    cases front₂ with
    | nil => rfl
    | cons t front₂ =>
      obtain ⟨c, more, hat, -, -⟩ := firstToken_of_tokens h₂ ha₂
      rw [← ha₁] at hat
      cases hat
  | cons t₁ front₁ ih =>
    obtain ⟨c, more, rfl, hfirst₁, hrest₁⟩ := firstToken_of_tokens h₁ ha₁
    cases front₂ with
    | nil => cases ha₂
    | cons t₂ front₂ =>
      obtain ⟨d, more, hat, hfirst₂, hrest₂⟩ := firstToken_of_tokens h₂ ha₂
      obtain ⟨rfl, rfl⟩ := List.cons.inj hat
      obtain ⟨rfl, hchars⟩ := firstToken_congr hfirst₁ hfirst₂
      rw [← hchars] at hrest₂
      rw [ih hrest₁ rfl hrest₂ hchars.symm]

/-- **Two comments that are found behind a text are found behind the same tokens**, and what is cut
behind them is what is cut there without them. -/
theorem tokens_congr (h₁ : FindsComment a c₁ b) (h₂ : FindsComment a c₂ b) :
    ∃ front, tokens (a ++ c₁ ++ b) = front ++ .comment c₁ :: tokens b ∧
      tokens (a ++ c₂ ++ b) = front ++ .comment c₂ :: tokens b := by
  obtain ⟨front, ht₁, ha₁⟩ := h₁.exists_tokens
  obtain ⟨front₂, ht₂, ha₂⟩ := h₂.exists_tokens
  obtain ⟨x₁, rfl⟩ := h₁.exists_slash
  obtain ⟨x₂, rfl⟩ := h₂.exists_slash
  rw [List.append_assoc] at ht₁ ht₂
  obtain rfl := front_congr ht₁ ha₁ ht₂ ha₂
  rw [List.append_assoc, List.append_assoc]
  exact ⟨front, ht₁, ht₂⟩

/-- What is left of a comment is told by the number of its line breaks. -/
theorem kept_comment (c : List Char) :
    (Token.comment c).kept = List.replicate (c.count '\n') '\n' := List.filter_beq '\n'

/-- **Two comments with as many line breaks leave the same text.** -/
theorem withoutComments_congr (h₁ : FindsComment a c₁ b) (h₂ : FindsComment a c₂ b)
    (hlines : c₁.count '\n' = c₂.count '\n') :
    withoutComments (a ++ c₁ ++ b) = withoutComments (a ++ c₂ ++ b) := by
  obtain ⟨before, ht₁, ht₂⟩ := tokens_congr h₁ h₂
  rw [withoutComments, withoutComments, ht₁, ht₂]
  simp only [List.flatMap_append, List.flatMap_cons, kept_comment, hlines]

end

/-- **What a comment says does not matter to imports.** -/
theorem imports_congr {a b c₁ c₂ : String} (h₁ : FindsComment a.toList c₁.toList b.toList)
    (h₂ : FindsComment a.toList c₂.toList b.toList)
    (hlines : c₁.toList.count '\n' = c₂.toList.count '\n') :
    (references (a ++ c₁ ++ b)).imports = (references (a ++ c₂ ++ b)).imports := by
  have hcode : withoutComments (a ++ c₁ ++ b).toList = withoutComments (a ++ c₂ ++ b).toList := by
    simp only [String.toList_append]
    exact withoutComments_congr h₁ h₂ hlines
  simp only [references, hcode]

/-- An import, and code with a slash and a quote that open nothing. -/
def strayText : String := "import a from './a';\nlet half = 1 / '2;\n"

/-- What stands behind the comment. -/
def exportText : String := "\nexport * from './b';"

/-- A block comment and a line comment, with quotes, marks and an import in them. -/
theorem imports_congr_stray :
    FindsComment strayText.toList "/* don't \"*/".toList exportText.toList ∧
      FindsComment strayText.toList "// import c from './c'; /*".toList exportText.toList ∧
      (references (strayText ++ "/* don't \"*/" ++ exportText)).imports =
        (references (strayText ++ "// import c from './c'; /*" ++ exportText)).imports ∧
      (references (strayText ++ "/* don't \"*/" ++ exportText)).imports = ["./a", "./b"] := by
  have hblock : FindsComment strayText.toList "/* don't \"*/".toList exportText.toList :=
    ⟨(tokens strayText.toList).take 36, tokens exportText.toList, by decide +kernel, by decide +kernel⟩
  have hline : FindsComment strayText.toList "// import c from './c'; /*".toList exportText.toList :=
    ⟨(tokens strayText.toList).take 36, tokens exportText.toList, by decide +kernel, by decide +kernel⟩
  exact ⟨hblock, hline, imports_congr hblock hline (by decide), by decide +kernel⟩

end Tsconfig.Source
