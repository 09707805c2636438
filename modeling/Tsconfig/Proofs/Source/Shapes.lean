/-
# The shapes of imports

A module is imported in one of two shapes: `import x from "m"`, also with `export` and without what is
imported (`fromShape`), and `import x = require("m")`, also with `export` in front (`requireShape`).  In
front of the module name and its quotes, and behind them, stand texts of a regular language each
(`Shape`); a text of a shape in its parts is a `Shape.Match`.

**The readers of imports read the shapes and no more** (`importFrom?_eq_some`, `importRequire?_eq_some`).
For the second one every part ends where the next one starts.  What stands in front of the quote in the
first shape has no such parts, since the names may hold blanks and a `from` of their own; there the text
up to the quote is taken as a whole, and is tested from its two ends (`isImportHead_iff`).

Two facts about shapes are kept with them, since all that is said of several imports in one text follows
from them: there is no quote in front of the opening one, and on a line that starts behind the closing one
starts no other declaration.
-/
import Tsconfig.Proofs.Source.Readers

namespace Tsconfig.Source

open Text (isBlank isIndent inRanges blankRanges)
open scoped Computability

/-! ## 1. Characters -/

/-- A character of code outside the quotes. -/
def isOutside (c : Char) : Bool := !isStringQuote c

section

variable {c : Char}

theorem isBlank_of_isIndent (h : isIndent c = true) : isBlank c = true := by
  simp only [isIndent, Bool.or_eq_true, decide_eq_true_eq] at h
  obtain rfl | rfl := h <;> decide

theorem mem_of_inRanges {ranges : List (Nat × Nat)} {n : Nat} (h : inRanges ranges n = true) :
    n ∈ ranges.flatMap fun r => List.range' r.1 (r.2 + 1 - r.1) := by
  obtain ⟨r, hr, hin⟩ := List.any_eq_true.mp h
  simp only [Bool.and_eq_true, decide_eq_true_eq] at hin
  exact List.mem_flatMap.mpr ⟨r, hr, List.mem_range'_1.mpr ⟨hin.1, by omega⟩⟩

/-- No blank is a character of an identifier. -/
theorem isIdentifier_of_isBlank (h : isBlank c = true) : isIdentifier c = false := by
  have hall : ∀ n ∈ blankRanges.flatMap (fun r => List.range' r.1 (r.2 + 1 - r.1)),
      isIdentifier (Char.ofNat n) = false := by
    decide +kernel
  simpa only [Char.ofNat_toNat] using hall c.toNat (mem_of_inRanges h)

theorem isBlank_of_isIdentifier (h : isIdentifier c = true) : isBlank c = false := by
  rw [← Bool.not_eq_true]
  intro hblank
  rw [isIdentifier_of_isBlank hblank] at h
  cases h

theorem isBindingChar_of_isBlank (h : isBlank c = true) : isBindingChar c = true := by
  rw [isBindingChar, h, Bool.or_true]

theorem isBindingChar_of_isIdentifier (h : isIdentifier c = true) : isBindingChar c = true := by
  simp only [isBindingChar, h, Bool.true_or]

theorem isOutside_of_isBindingChar (h : isBindingChar c = true) : isOutside c = true := by
  rw [isOutside, Bool.not_eq_true']
  rw [← Bool.not_eq_true]
  intro hquote
  simp only [isStringQuote, Bool.or_eq_true, decide_eq_true_eq] at hquote
  obtain rfl | rfl := hquote
  · revert h
    decide +kernel
  · revert h
    decide +kernel

theorem isOutside_of_isStringQuote (h : isStringQuote c = true) : isOutside c = false := by
  rw [isOutside, h, Bool.not_true]

theorem isOutside_of_isBlank (h : isBlank c = true) : isOutside c = true :=
  isOutside_of_isBindingChar (isBindingChar_of_isBlank h)

theorem isBlank_of_isStringQuote (h : isStringQuote c = true) : isBlank c = false := by
  rw [← Bool.not_eq_true]
  intro hblank
  have hout := isOutside_of_isBlank hblank
  rw [isOutside_of_isStringQuote h] at hout
  cases hout

end

/-! ## 2. In front of the quotes -/

/-- What stands in front of the quote in an import or export of something from a module. -/
def bindings : Language Char :=
  someOf isBindingChar * someOf isBlank * word "from" * (oneOf isBlank)∗

/-- `import x from` or `export x from`, or the keyword alone. -/
def fromFront : Language Char :=
  (oneOf isIndent)∗ * (word "import" + word "export") * (someOf isBlank * (1 + bindings))

/-- `import x = require(`, with or without an `export` in front. -/
def requireFront : Language Char :=
  (oneOf isIndent)∗ * (1 + word "export" * someOf isBlank) * word "import" * someOf isBlank *
    someOf isIdentifier * ((oneOf isBlank)∗ * word "=") * ((oneOf isBlank)∗ * word "require") *
    ((oneOf isBlank)∗ * word "(") * (oneOf isBlank)∗

section

variable {cs w : List Char}

theorem madeOf_bindings : MadeOf isBindingChar bindings := by
  have hblank : ∀ c, isBlank c = true → isBindingChar c = true := fun _ => isBindingChar_of_isBlank
  refine madeOf_mul (madeOf_mul (madeOf_mul madeOf_someOf ?_) (madeOf_word ?_)) ?_
  · exact madeOf_someOf.mono hblank
  · decide +kernel
  · exact madeOf_kstar.mono hblank

theorem madeOf_fromFront : MadeOf isBindingChar fromFront := by
  have hblank : ∀ c, isBlank c = true → isBindingChar c = true := fun _ => isBindingChar_of_isBlank
  refine madeOf_mul (madeOf_mul ?_ (madeOf_add (madeOf_word ?_) (madeOf_word ?_))) (madeOf_mul ?_ ?_)
  · exact madeOf_kstar.mono fun c hc => hblank c (isBlank_of_isIndent hc)
  · decide +kernel
  · decide +kernel
  · exact madeOf_someOf.mono hblank
  · exact madeOf_add madeOf_one madeOf_bindings

theorem madeOf_requireFront : MadeOf isOutside requireFront := by
  have hblank : ∀ c, isBlank c = true → isOutside c = true := fun _ => isOutside_of_isBlank
  have hindent : MadeOf isOutside (oneOf isIndent)∗ :=
    madeOf_kstar.mono fun c hc => hblank c (isBlank_of_isIndent hc)
  have hblanks : MadeOf isOutside (someOf isBlank) := madeOf_someOf.mono hblank
  have hname : MadeOf isOutside (someOf isIdentifier) :=
    madeOf_someOf.mono fun c hc => isOutside_of_isBindingChar (isBindingChar_of_isIdentifier hc)
  have hword : ∀ {s : String}, s.toList.all isOutside = true →
      MadeOf isOutside ((oneOf isBlank)∗ * word s) :=
    fun h => madeOf_mul (madeOf_kstar.mono hblank) (madeOf_word h)
  have hkeyword := madeOf_mul (madeOf_mul hindent
    (madeOf_add madeOf_one (madeOf_mul (madeOf_word (s := "export") rfl) hblanks)))
    (madeOf_word (s := "import") rfl)
  have hequals := madeOf_mul (madeOf_mul (madeOf_mul hkeyword hblanks) hname) (hword (s := "=") rfl)
  have hrequire := madeOf_mul (madeOf_mul hequals (hword (s := "require") rfl)) (hword (s := "(") rfl)
  exact madeOf_mul hrequire (madeOf_kstar.mono hblank)

theorem reads_exportBlanks : Reads (fun cs => (after? "export".toList cs).bind afterBlanks?)
    (word "export" * someOf isBlank) isBlank :=
  (reads_after "export").bind reads_afterBlanks fun _ _ => startsOutside_false

/-- An `export` is skipped, if the text without it cannot start with one. -/
theorem reads_skipExport : Reads (fun cs => some (skipExport cs)) (1 + word "export" * someOf isBlank)
    (fun c => c = 'e' || isBlank c) := by
  intro k hk cs
  have hblanks : StartsOutside isBlank k := hk.mono fun c hc => by rw [hc, Bool.or_true]
  rw [add_mul, one_mul, Language.mem_add, reads_exportBlanks k hblanks]
  simp only [skipExport]
  cases hread : (after? "export".toList cs).bind afterBlanks? with
  | none => simp
  | some rest =>
    have hnot : cs ∉ k := by
      intro hcs
      obtain ⟨mid, hmid, -⟩ := Option.bind_eq_some_iff.mp hread
      have hhead := hk cs hcs 'e' (by rw [← after?_eq_some.mp hmid]; rfl)
      cases hhead
    simp [hnot]

theorem reads_requireHead : Reads requireHead? requireFront isBlank := by
  have hindent : Reads (fun cs => some (skipIndent cs)) (oneOf isIndent)∗ isIndent :=
    reads_dropWhile isIndent
  have hexport := hindent.bind reads_skipExport fun k hk => by
    rw [add_mul, one_mul, mul_assoc]
    refine startsOutside_add (hk.mono ?_) (startsOutside_word_mul rfl)
    intro c hc
    rw [isBlank_of_isIndent hc, Bool.or_true]
  have himport := hexport.bind (reads_after "import") fun _ _ => startsOutside_word_mul rfl
  have hblanks := himport.bind reads_afterBlanks fun _ _ => startsOutside_false
  have hname := hblanks.bind reads_afterIdentifier fun _ _ =>
    startsOutside_someOf_mul fun _ => isBlank_of_isIdentifier
  have hequals := hname.bind (reads_blanks_word (s := "=") rfl) fun _ _ => by
    rw [mul_assoc]
    exact startsOutside_kstar_mul (fun _ => isIdentifier_of_isBlank) (startsOutside_word_mul rfl)
  have hrequire := hequals.bind (reads_blanks_word (s := "require") rfl) fun _ _ => startsOutside_false
  have hparen := hrequire.bind (reads_blanks_word (s := "(") rfl) fun _ _ => startsOutside_false
  exact hparen.skipBlanks fun _ _ => startsOutside_false

theorem reads_importKeyword :
    Reads importKeyword? (word "import" + word "export") (fun _ => false) := by
  intro k hk cs
  rw [add_mul, Language.mem_add, reads_after "import" k hk, reads_after "export" k hk]
  simp only [importKeyword?]
  cases himport : after? "import".toList cs with
  | none => simp
  | some mid =>
    have hexport : after? "export".toList cs = none := by
      rw [← after?_eq_some.mp himport]
      rfl
    simp only [hexport, Option.some_or, reduceCtorEq, false_and, exists_false, or_false]

/-- Blanks, bindings and blanks: what `isBindings` tests at the first and at the last character. -/
theorem isBindings_iff :
    isBindings w = true ↔ w ∈ someOf isBlank * (someOf isBindingChar * someOf isBlank) := by
  constructor
  · intro h
    simp only [isBindings, Bool.and_eq_true, decide_eq_true_eq, List.all_eq_true] at h
    obtain ⟨⟨⟨hall, hlen⟩, hhead⟩, hlast⟩ := h
    cases w with
    | nil => cases hhead
    | cons c more =>
      obtain rfl | ⟨y, d, rfl⟩ := List.eq_nil_or_concat' more
      · simp at hlen
      · have hy : y ≠ [] := by
          rintro rfl
          simp at hlen
        rw [← List.cons_append, List.getLast?_append] at hlast
        refine ⟨[c], mem_someOf.mpr ⟨by simp, by simpa using hhead⟩, y ++ [d],
          ⟨y, mem_someOf.mpr ⟨hy, ?_⟩, [d], mem_someOf.mpr ⟨by simp, by simpa using hlast⟩, rfl⟩, rfl⟩
        intro e he
        exact hall e (List.mem_cons_of_mem _ (List.mem_append_left _ he))
  · rintro ⟨u, hu, _, ⟨y, hy, z, hz, rfl⟩, rfl⟩
    obtain ⟨hu, hublank⟩ := mem_someOf.mp hu
    obtain ⟨hy, hybinding⟩ := mem_someOf.mp hy
    obtain ⟨hz, hzblank⟩ := mem_someOf.mp hz
    have hlen : 3 ≤ (u ++ (y ++ z)).length := by
      have hulen := List.length_pos_iff.mpr hu
      have hylen := List.length_pos_iff.mpr hy
      have hzlen := List.length_pos_iff.mpr hz
      simp only [List.length_append]
      omega
    have hall : ∀ c ∈ u ++ (y ++ z), isBindingChar c = true := by
      intro c hc
      rcases List.mem_append.mp hc with hc | hc
      · exact isBindingChar_of_isBlank (hublank c hc)
      · rcases List.mem_append.mp hc with hc | hc
        · exact hybinding c hc
        · exact isBindingChar_of_isBlank (hzblank c hc)
    have hhead : (u ++ (y ++ z)).head?.any isBlank = true := by
      obtain ⟨c, more, rfl⟩ := List.exists_cons_of_ne_nil hu
      exact hublank c List.mem_cons_self
    have hlast : (u ++ (y ++ z)).getLast?.any isBlank = true := by
      obtain ⟨z, d, rfl⟩ := (List.eq_nil_or_concat' z).resolve_left hz
      rw [← List.append_assoc, ← List.append_assoc, List.getLast?_concat]
      exact hzblank d List.mem_concat_self
    simp only [isBindings, Bool.and_eq_true, decide_eq_true_eq, List.all_eq_true]
    exact ⟨⟨⟨hall, hlen⟩, hhead⟩, hlast⟩

theorem exists_trimBlanks (w : List Char) : ∃ b, b ∈ (oneOf isBlank)∗ ∧ trimBlanks w ++ b = w := by
  refine ⟨(w.reverse.takeWhile isBlank).reverse, mem_kstar_oneOf.mpr ?_, ?_⟩
  · intro c hc
    exact List.mem_takeWhile_imp (List.mem_reverse.mp hc)
  · rw [trimBlanks, ← List.reverse_append, List.takeWhile_append_dropWhile, List.reverse_reverse]

theorem trimBlanks_append {b : List Char} (hb : b ∈ (oneOf isBlank)∗) (w : List Char) :
    trimBlanks (w ++ b) = trimBlanks w := by
  have hall : ∀ c ∈ b.reverse, isBlank c = true := by
    intro c hc
    exact mem_kstar_oneOf.mp hb c (List.mem_reverse.mp hc)
  rw [trimBlanks, List.reverse_append, List.dropWhile_append_of_pos hall, trimBlanks]

theorem trimBlanks_from (w : List Char) : trimBlanks (w ++ "from".toList) = w ++ "from".toList := by
  have hlast : ("from".toList.reverse ++ w.reverse).dropWhile isBlank =
      "from".toList.reverse ++ w.reverse := List.dropWhile_cons_of_neg (by decide)
  rw [trimBlanks, List.reverse_append, hlast, ← List.reverse_append, List.reverse_reverse]

theorem isImportHead_iff : isImportHead w = true ↔ w ∈ someOf isBlank * (1 + bindings) := by
  by_cases hblank : w.all isBlank = true
  · have hall : ∀ c ∈ w, isBlank c = true := List.all_eq_true.mp hblank
    rw [isImportHead, if_pos hblank, Bool.not_eq_true', List.isEmpty_eq_false_iff]
    constructor
    · intro hne
      exact ⟨w, mem_someOf.mpr ⟨hne, hall⟩, [], Or.inl rfl, List.append_nil w⟩
    · rintro ⟨u, hu, v, -, rfl⟩
      exact List.append_ne_nil_of_left_ne_nil (mem_someOf.mp hu).1 v
  · rw [isImportHead, if_neg hblank]
    simp only [Bool.and_eq_true, decide_eq_true_eq]
    constructor
    · rintro ⟨hfrom, hbindings⟩
      obtain ⟨b, hb, hw⟩ := exists_trimBlanks w
      obtain ⟨u, hu, v, hv, huv⟩ := isBindings_iff.mp hbindings
      refine ⟨u, hu, v ++ "from".toList ++ b, Or.inr ⟨_, ⟨v, hv, _, rfl, rfl⟩, b, hb, rfl⟩, ?_⟩
      calc u ++ (v ++ "from".toList ++ b)
          = (u ++ v) ++ "from".toList ++ b := by simp only [List.append_assoc]
        _ = trimBlanks w ++ b := by
          rw [show u ++ v = _ from huv, ← hfrom, List.take_append_drop]
        _ = w := hw
    · rintro ⟨u, hu, v, rfl | ⟨_, ⟨x, hx, _, rfl, rfl⟩, b, hb, rfl⟩, rfl⟩
      · refine (hblank (List.all_eq_true.mpr ?_)).elim
        simpa using (mem_someOf.mp hu).2
      · have htrim : trimBlanks (u ++ (x ++ "from".toList ++ b)) = (u ++ x) ++ "from".toList := by
          rw [← List.append_assoc, ← List.append_assoc, trimBlanks_append hb, trimBlanks_from]
        have hlen : ((u ++ x) ++ "from".toList).length - "from".length = (u ++ x).length := by
          rw [List.length_append, String.length_toList, Nat.add_sub_cancel]
        simp only [htrim, hlen]
        rw [List.drop_left, List.take_left]
        exact ⟨rfl, isBindings_iff.mpr ⟨u, hu, x, hx, rfl⟩⟩

/-- What stands in front of the quotes of an import or export, taken off a text. -/
def fromHead? (cs : List Char) : Option (List Char) :=
  (importKeyword? (skipIndent cs)).bind fun mid =>
    if isImportHead (mid.takeWhile isOutside) then some (mid.dropWhile isOutside) else none

theorem importFrom?_eq (cs : List Char) : importFrom? cs = (fromHead? cs).bind mention? := by
  rw [importFrom?, fromHead?]
  cases importKeyword? (skipIndent cs) with
  | none => rfl
  | some mid =>
    change (if isImportHead (mid.takeWhile isOutside) then mention? (mid.dropWhile isOutside) else none) =
      (if isImportHead (mid.takeWhile isOutside) then some (mid.dropWhile isOutside) else none).bind mention?
    by_cases hhead : isImportHead (mid.takeWhile isOutside) = true
    · rw [if_pos hhead, if_pos hhead]
      rfl
    · rw [if_neg hhead, if_neg hhead]
      rfl

theorem reads_fromHead : Reads fromHead? fromFront isOutside := by
  have hkeyword : Reads (fun cs => importKeyword? (skipIndent cs))
      ((oneOf isIndent)∗ * (word "import" + word "export")) (fun _ => false) := by
    refine (reads_dropWhile isIndent).bind reads_importKeyword ?_
    intro k _
    rw [add_mul]
    exact startsOutside_add (startsOutside_word_mul rfl) (startsOutside_word_mul rfl)
  refine hkeyword.bind ?_ fun _ _ => startsOutside_false
  intro k hk cs
  have hbindings : MadeOf isOutside bindings :=
    madeOf_bindings.mono fun _ => isOutside_of_isBindingChar
  have hmade : MadeOf isOutside (someOf isBlank * (1 + bindings)) :=
    madeOf_mul (madeOf_someOf.mono fun _ => isOutside_of_isBlank) (madeOf_add madeOf_one hbindings)
  rw [mem_mul_iff_takeWhile hmade hk, ← isImportHead_iff]
  simp [Option.ite_none_right_eq_some, and_assoc]

end

/-! ## 3. Shapes and their matches -/

/-- The texts of module names. -/
def moduleName : Language Char := someOf isModuleChar

/-- The shape of a declaration: what stands in front of the quotes around the module name, and what
stands behind them. -/
structure Shape where
  front : Language Char
  back : Language Char
  /-- There is no quote in front of the opening one. -/
  front_outside : MadeOf isOutside front
  /-- No declaration starts on a line that lies in what stands behind the quotes of another. -/
  back_line : ∀ {u v : List Char}, u ++ '\n' :: v ∈ back → ∀ w ∈ front, ∀ r rest, w ++ r ≠ v ++ rest

/-- `import x from "m"`, `export x from "m"` or `import "m"`. -/
def fromShape : Shape where
  front := fromFront
  back := 1
  front_outside := madeOf_fromFront.mono fun _ => isOutside_of_isBindingChar
  back_line := by
    rintro u v h
    exact (List.append_ne_nil_of_right_ne_nil u (List.cons_ne_nil _ v) h).elim

/-- Behind a line end between the closing quote and the parenthesis there are blanks and the parenthesis,
and a declaration starts with a keyword. -/
theorem requireBack_line {u v : List Char} (h : u ++ '\n' :: v ∈ (oneOf isBlank)∗ * word ")") :
    ∀ w ∈ requireFront, ∀ r rest, w ++ r ≠ v ++ rest := by
  intro w hw r rest heq
  obtain ⟨b, hb, _, rfl, hback⟩ := h
  obtain rfl | ⟨v, d, rfl⟩ := List.eq_nil_or_concat' v
  · cases (List.append_inj' hback rfl).2
  · rw [← List.cons_append, ← List.append_assoc] at hback
    obtain ⟨rfl, hd⟩ := List.append_inj' hback rfl
    obtain rfl : ')' = d := List.singleton_inj.mp hd
    let t : Char → Bool := fun c => isBlank c || c = ')'
    have hindent : MadeOf t (oneOf isIndent)∗ := by
      refine madeOf_kstar.mono fun c hc => ?_
      simp only [t, isBlank_of_isIndent hc, Bool.true_or]
    have hmem : w ++ r ∈ requireFront * {r} := Language.append_mem_mul hw rfl
    have hkeyword : ∀ k, StartsOutside t ((1 + word "export" * someOf isBlank) * (word "import" * k)) := by
      intro k
      rw [add_mul, one_mul, mul_assoc]
      exact startsOutside_add (startsOutside_word_mul rfl) (startsOutside_word_mul rfl)
    simp only [requireFront, mul_assoc] at hmem
    -- the indent of the declaration would take the parenthesis with it
    have htake := ((mem_mul_iff_takeWhile hindent (hkeyword _)).mp hmem).1
    have hall : ∀ c ∈ v ++ [')'], t c = true := by
      intro c hc
      rcases List.mem_append.mp hc with hv | hparen
      · simp only [t, mem_kstar_oneOf.mp hb c (by simp [hv]), Bool.true_or]
      · rw [List.mem_singleton.mp hparen]
        rfl
    rw [heq, List.takeWhile_append_of_pos hall] at htake
    have hparen := mem_kstar_oneOf.mp htake ')' (by simp)
    cases hparen

/-- `import x = require("m")`. -/
def requireShape : Shape where
  front := requireFront
  back := (oneOf isBlank)∗ * word ")"
  front_outside := madeOf_requireFront
  back_line := requireBack_line

/-- A text of a shape, in its parts. -/
structure Shape.Match (s : Shape) where
  front : List Char
  opening : Char
  name : List Char
  closing : Char
  back : List Char
  front_mem : front ∈ s.front
  opening_quote : isStringQuote opening = true
  name_mem : name ∈ moduleName
  closing_quote : isStringQuote closing = true
  back_mem : back ∈ s.back

namespace Shape.Match

variable {s : Shape} (x : s.Match) (rest : List Char)

/-- The text of a match. -/
def text : List Char := x.front ++ x.opening :: (x.name ++ x.closing :: x.back)

/-- The text behind the opening quote of a match with a rest behind it. -/
def behind : List Char := x.name ++ x.closing :: (x.back ++ rest)

/-- The name in a match, and where it stands. -/
def mention : Mention := ⟨x.name, (x.behind rest).length⟩

theorem text_append : x.text ++ rest = x.front ++ x.opening :: x.behind rest := by
  simp only [text, behind, List.append_assoc, List.cons_append]

end Shape.Match

/-! ## 4. What the readers of imports read -/

section

variable {f : List Char → Option (List Char)} {l : Language Char} {t : Char → Bool}
  {cs rest : List Char} {m : Mention}

/-- A text that starts with a module name in quotes, and what the mention says of it. -/
def IsNamed (m : Mention) (cs rest : List Char) : Prop :=
  ∃ q q', isStringQuote q = true ∧ isStringQuote q' = true ∧ m.name ∈ moduleName ∧
    cs = q :: (m.name ++ q' :: rest) ∧ m.unread = (m.name ++ q' :: rest).length

theorem mention?_eq_some : mention? cs = some (m, rest) ↔ IsNamed m cs rest := by
  have hquote : ∀ c, isStringQuote c = true → isModuleChar c = false := by
    intro c hc
    simp only [isModuleChar, hc, Bool.not_true, Bool.false_and]
  rw [mention?, Option.map_eq_some_iff]
  constructor
  · rintro ⟨⟨name, rest⟩, hread, heq⟩
    obtain ⟨rfl, rfl⟩ := Prod.mk.inj heq
    obtain ⟨q, q', hq, hq', hname, rfl⟩ := (quotedText?_eq_some hquote).mp hread
    exact ⟨q, q', hq, hq', hname, rfl, rfl⟩
  · rintro ⟨q, q', hq, hq', hname, rfl, hunread⟩
    refine ⟨(m.name, rest), (quotedText?_eq_some hquote).mpr ⟨q, q', hq, hq', hname, rfl⟩, ?_⟩
    rw [List.length_cons, Nat.add_sub_cancel, ← hunread]

/-- A module name behind what a reader takes. -/
theorem Reads.mention? (hf : Reads f l t) (ht : ∀ c, isStringQuote c = true → t c = false) :
    (f cs).bind mention? = some (m, rest) ↔ ∃ w ∈ l, ∃ mid, w ++ mid = cs ∧ IsNamed m mid rest := by
  have hout : ∀ mid, IsNamed m mid rest → StartsOutside t {mid} := by
    rintro _ ⟨q, q', hq, -, -, rfl, -⟩ _ rfl c hc
    obtain rfl := Option.some.inj hc
    exact ht q hq
  rw [Option.bind_eq_some_iff]
  constructor
  · rintro ⟨mid, hmid, hname⟩
    have hnamed := mention?_eq_some.mp hname
    obtain ⟨w, hw, hcs⟩ := (hf.eq_some (hout mid hnamed)).mp hmid
    exact ⟨w, hw, mid, hcs, hnamed⟩
  · rintro ⟨w, hw, mid, hcs, hnamed⟩
    exact ⟨mid, (hf.eq_some (hout mid hnamed)).mpr ⟨w, hw, hcs⟩, mention?_eq_some.mpr hnamed⟩

/-- A match is what stands in front of the quotes, taken off by a reader, and a name in quotes with what
stands behind them. -/
theorem Reads.match_iff {s : Shape} (hf : Reads f s.front t)
    (ht : ∀ c, isStringQuote c = true → t c = false) :
    (∃ back ∈ s.back, (f cs).bind Source.mention? = some (m, back ++ rest)) ↔
      ∃ x : s.Match, x.text ++ rest = cs ∧ x.mention rest = m := by
  constructor
  · rintro ⟨back, hback, hread⟩
    obtain ⟨w, hw, _, rfl, q, q', hq, hq', hname, rfl, hunread⟩ := (hf.mention? ht).mp hread
    refine ⟨⟨w, q, m.name, q', back, hw, hq, hname, hq', hback⟩, ?_, ?_⟩
    · exact Shape.Match.text_append _ rest
    · exact congrArg (Mention.mk m.name) hunread.symm
  · rintro ⟨x, rfl, rfl⟩
    refine ⟨x.back, x.back_mem, (hf.mention? ht).mpr ⟨x.front, x.front_mem, _, (x.text_append rest).symm,
      x.opening, x.closing, x.opening_quote, x.closing_quote, x.name_mem, rfl, rfl⟩⟩

theorem importFrom?_eq_some : importFrom? cs = some (m, rest) ↔
    ∃ x : fromShape.Match, x.text ++ rest = cs ∧ x.mention rest = m := by
  rw [importFrom?_eq, ← reads_fromHead.match_iff fun _ => isOutside_of_isStringQuote]
  constructor
  · intro h
    exact ⟨[], rfl, h⟩
  · rintro ⟨_, rfl, h⟩
    exact h

theorem after?_requireBack {r : List Char} : after? ")".toList (skipBlanks r) = some rest ↔
    ∃ back ∈ requireShape.back, back ++ rest = r :=
  (reads_blanks_word (s := ")") rfl).eq_some startsOutside_false

theorem importRequire?_eq_some : importRequire? cs = some (m, rest) ↔
    ∃ x : requireShape.Match, x.text ++ rest = cs ∧ x.mention rest = m := by
  rw [← reads_requireHead.match_iff fun _ => isBlank_of_isStringQuote, importRequire?]
  cases hname : (requireHead? cs).bind mention? with
  | none => simp
  | some p =>
    simp only [Option.map_eq_some_iff, Option.some.injEq, Prod.mk.injEq]
    constructor
    · rintro ⟨behind, hbehind, hm, rfl⟩
      obtain ⟨back, hback, hr⟩ := after?_requireBack.mp hbehind
      exact ⟨back, hback, Prod.ext hm hr.symm⟩
    · rintro ⟨back, hback, rfl⟩
      exact ⟨rest, after?_requireBack.mpr ⟨back, hback, rfl⟩, rfl, rfl⟩

end

end Tsconfig.Source
