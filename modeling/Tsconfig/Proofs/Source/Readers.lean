/-
# What the readers of source text read

A declaration has a shape: an indent, a keyword, blanks, a name and so on, one behind the other.  Such a
shape is a regular language, made of words (`word`) and of runs of characters that a test accepts
(`oneOf`, `someOf`).  Its readers take one part after the other off a text and never go back.

That is right where no part can take what the next one starts with.  So what a reader takes is said
together with the characters that must not follow (`Reads`): **in front of every text that does not start
with one of them, the reader takes a text of the language off, and takes one off whenever it can.**  Two
readers can be put together where the second language does not start with what the first must not be
followed by (`Reads.bind`).
-/
import Mathlib.Computability.Language
import Mathlib.Data.List.TakeWhile
import Tsconfig.Source.References

namespace Tsconfig.Source

open Text (isBlank)
open scoped Computability

/-! ## 1. Texts of characters that a test accepts -/

/-- The texts of one character that a test accepts. -/
def oneOf (test : Char → Bool) : Language Char := {w | ∃ c, test c = true ∧ w = [c]}

/-- The texts of such characters, one at least. -/
def someOf (test : Char → Bool) : Language Char := oneOf test * (oneOf test)∗

/-- A word alone. -/
def word (s : String) : Language Char := {s.toList}

/-- The texts of a language are of characters that a test accepts. -/
def MadeOf (test : Char → Bool) (l : Language Char) : Prop := ∀ w ∈ l, ∀ c ∈ w, test c = true

/-- No text of a language starts with a character that a test accepts. -/
def StartsOutside (test : Char → Bool) (l : Language Char) : Prop :=
  ∀ w ∈ l, ∀ c ∈ w.head?, test c = false

section

variable {t u : Char → Bool} {l k : Language Char} {w cs rest : List Char} {c : Char} {s : String}

theorem mem_kstar_oneOf : w ∈ (oneOf t)∗ ↔ ∀ c ∈ w, t c = true := by
  rw [Language.mem_kstar]
  constructor
  · rintro ⟨pieces, rfl, hpieces⟩ c hc
    obtain ⟨piece, hpiece, hmem⟩ := List.mem_flatten.mp hc
    obtain ⟨d, hd, rfl⟩ := hpieces piece hpiece
    rwa [List.mem_singleton.mp hmem]
  · intro h
    refine ⟨w.map ([·]), ?_, ?_⟩
    · exact (List.flatMap_singleton' w).symm
    · rintro y hy
      obtain ⟨c, hc, rfl⟩ := List.mem_map.mp hy
      exact ⟨c, h c hc, rfl⟩

theorem mem_someOf : w ∈ someOf t ↔ w ≠ [] ∧ ∀ c ∈ w, t c = true := by
  constructor
  · rintro ⟨_, ⟨c, hc, rfl⟩, more, hmore, rfl⟩
    refine ⟨List.cons_ne_nil _ _, List.forall_mem_cons.mpr ⟨hc, mem_kstar_oneOf.mp hmore⟩⟩
  · rintro ⟨hne, hall⟩
    obtain ⟨c, more, rfl⟩ := List.exists_cons_of_ne_nil hne
    obtain ⟨hc, hmore⟩ := List.forall_mem_cons.mp hall
    exact ⟨[c], ⟨c, hc, rfl⟩, more, mem_kstar_oneOf.mpr hmore, rfl⟩

theorem MadeOf.mono (hl : MadeOf t l) (h : ∀ c, t c = true → u c = true) : MadeOf u l :=
  fun w hw c hc => h c (hl w hw c hc)

theorem madeOf_kstar : MadeOf t (oneOf t)∗ := fun _ hw => mem_kstar_oneOf.mp hw

theorem madeOf_someOf : MadeOf t (someOf t) := fun _ hw => (mem_someOf.mp hw).2

theorem madeOf_word (h : s.toList.all t = true) : MadeOf t (word s) := by
  rintro _ rfl
  exact List.all_eq_true.mp h

theorem madeOf_one : MadeOf t 1 := by
  rintro _ rfl c hc
  cases hc

theorem madeOf_add (hl : MadeOf t l) (hk : MadeOf t k) : MadeOf t (l + k) := by
  rintro w (hw | hw)
  · exact hl w hw
  · exact hk w hw

theorem madeOf_mul (hl : MadeOf t l) (hk : MadeOf t k) : MadeOf t (l * k) := by
  rintro _ ⟨w, hw, v, hv, rfl⟩ c hc
  rcases List.mem_append.mp hc with hc | hc
  · exact hl w hw c hc
  · exact hk v hv c hc

/-- A text of two parts, the first of accepted characters and the second not starting with one, is cut at
the first character that is not accepted. -/
theorem mem_mul_iff_takeWhile (hl : MadeOf t l) (hk : StartsOutside t k) :
    cs ∈ l * k ↔ cs.takeWhile t ∈ l ∧ cs.dropWhile t ∈ k := by
  constructor
  · rintro ⟨w, hw, rest, hrest, rfl⟩
    have hall := hl w hw
    have hnone : rest.takeWhile t = [] ∧ rest.dropWhile t = rest := by
      cases rest with
      | nil => exact ⟨rfl, rfl⟩
      | cons c rest =>
        have hc : ¬ t c = true := by simp [hk _ hrest c rfl]
        exact ⟨List.takeWhile_cons_of_neg hc, List.dropWhile_cons_of_neg hc⟩
    rw [List.takeWhile_append_of_pos hall, List.dropWhile_append_of_pos hall, hnone.1, hnone.2,
      List.append_nil]
    exact ⟨hw, hrest⟩
  · rintro ⟨hw, hrest⟩
    exact ⟨_, hw, _, hrest, List.takeWhile_append_dropWhile⟩

theorem mem_kstar_mul (hk : StartsOutside t k) : cs ∈ (oneOf t)∗ * k ↔ cs.dropWhile t ∈ k := by
  rw [mem_mul_iff_takeWhile madeOf_kstar hk, and_iff_right]
  exact mem_kstar_oneOf.mpr fun c hc => List.mem_takeWhile_imp hc

theorem startsOutside_oneOf_mul (h : ∀ c, u c = true → t c = false) :
    StartsOutside t (oneOf u * k) := by
  rintro _ ⟨_, ⟨c, hc, rfl⟩, rest, -, rfl⟩ d hd
  obtain rfl : c = d := Option.some.inj hd
  exact h c hc

theorem startsOutside_someOf_mul (h : ∀ c, u c = true → t c = false) :
    StartsOutside t (someOf u * k) := by
  rw [someOf, mul_assoc]
  exact startsOutside_oneOf_mul h

theorem startsOutside_word_mul (h : s.toList.head?.any (fun c => !t c) = true) :
    StartsOutside t (word s * k) := by
  rintro _ ⟨_, rfl, rest, -, rfl⟩ d hd
  obtain ⟨c, hc, hout⟩ := (Option.any_eq_true ..).mp h
  rw [List.head?_append, Option.mem_def.mp hc] at hd
  obtain rfl : c = d := Option.some.inj hd
  simpa using hout

theorem startsOutside_add (hl : StartsOutside t l) (hk : StartsOutside t k) :
    StartsOutside t (l + k) := by
  rintro w (hw | hw)
  · exact hl w hw
  · exact hk w hw

theorem startsOutside_kstar_mul (h : ∀ c, u c = true → t c = false) (hk : StartsOutside t k) :
    StartsOutside t ((oneOf u)∗ * k) := by
  rw [← one_add_mul_kstar, add_mul, one_mul, mul_assoc]
  exact startsOutside_add hk (startsOutside_oneOf_mul h)

theorem StartsOutside.mono (hk : StartsOutside t k) (h : ∀ c, u c = true → t c = true) :
    StartsOutside u k := by
  intro w hw c hc
  rw [← Bool.not_eq_true]
  intro hu
  have ht := h c hu
  rw [hk w hw c hc] at ht
  cases ht

theorem startsOutside_false : StartsOutside (fun _ => false) k := fun _ _ _ _ => rfl

end

/-! ## 2. Readers -/

/-- A reader takes a text of a language off a text: off every text that starts with one, if what comes
behind does not start with a character that the reader would take as well. -/
def Reads (f : List Char → Option (List Char)) (l : Language Char) (t : Char → Bool) : Prop :=
  ∀ k, StartsOutside t k → ∀ cs, cs ∈ l * k ↔ ∃ rest, f cs = some rest ∧ rest ∈ k

section

variable {f g : List Char → Option (List Char)} {l l₁ l₂ : Language Char} {t u : Char → Bool}
  {cs rest : List Char}

/-- What is read, with one text behind it. -/
theorem Reads.eq_some (hf : Reads f l t) (hrest : StartsOutside t {rest}) :
    f cs = some rest ↔ ∃ w ∈ l, w ++ rest = cs := by
  constructor
  · intro h
    obtain ⟨w, hw, behind, hbehind, hcs⟩ := (hf {rest} hrest cs).mpr ⟨rest, h, rfl⟩
    obtain rfl : rest = behind := hbehind.symm
    exact ⟨w, hw, hcs⟩
  · rintro ⟨w, hw, hcs⟩
    obtain ⟨behind, h, hbehind⟩ := (hf {rest} hrest cs).mp ⟨w, hw, rest, rfl, hcs⟩
    obtain rfl : rest = behind := hbehind.symm
    exact h

/-- One reader after the other. -/
theorem Reads.bind (hf : Reads f l₁ t) (hg : Reads g l₂ u)
    (hout : ∀ k, StartsOutside u k → StartsOutside t (l₂ * k)) :
    Reads (fun cs => (f cs).bind g) (l₁ * l₂) u := by
  intro k hk cs
  rw [mul_assoc, hf _ (hout k hk)]
  constructor
  · rintro ⟨mid, hmid, hin⟩
    obtain ⟨rest, hrest, hin⟩ := (hg k hk mid).mp hin
    exact ⟨rest, Option.bind_eq_some_iff.mpr ⟨mid, hmid, hrest⟩, hin⟩
  · rintro ⟨rest, hrest, hin⟩
    obtain ⟨mid, hmid, hrest⟩ := Option.bind_eq_some_iff.mp hrest
    exact ⟨mid, hmid, (hg k hk mid).mpr ⟨rest, hrest, hin⟩⟩

theorem after?_eq_some {ws : List Char} : after? ws cs = some rest ↔ ws ++ rest = cs := by
  fun_induction after? ws cs with
  | case1 cs => simp [eq_comm]
  | case2 w ws => simp
  | case3 ws d ds ih => simpa using ih
  | case4 w ws d ds hne => simp [hne]

theorem reads_after (s : String) : Reads (after? s.toList) (word s) (fun _ => false) := by
  intro k _ cs
  constructor
  · rintro ⟨_, rfl, rest, hrest, rfl⟩
    exact ⟨rest, after?_eq_some.mpr rfl, hrest⟩
  · rintro ⟨rest, hafter, hrest⟩
    exact ⟨_, rfl, rest, hrest, after?_eq_some.mp hafter⟩

theorem reads_dropWhile (t : Char → Bool) : Reads (fun cs => some (cs.dropWhile t)) (oneOf t)∗ t := by
  intro k hk cs
  simp [mem_kstar_mul hk]

theorem reads_someOf (hnil : f [] = none)
    (hcons : ∀ c rest, f (c :: rest) = if t c then some (rest.dropWhile t) else none) :
    Reads f (someOf t) t := by
  intro k hk cs
  rw [someOf, mul_assoc]
  constructor
  · rintro ⟨_, ⟨c, hc, rfl⟩, rest, hrest, rfl⟩
    exact ⟨_, (hcons c rest).trans (if_pos hc), (mem_kstar_mul hk).mp hrest⟩
  · rintro ⟨rest, hf, hrest⟩
    cases cs with
    | nil => simp [hnil] at hf
    | cons c cs =>
      rw [hcons] at hf
      obtain ⟨hc, hdrop⟩ := Option.ite_none_right_eq_some.mp hf
      obtain rfl := Option.some.inj hdrop
      exact ⟨[c], ⟨c, hc, rfl⟩, cs, (mem_kstar_mul hk).mpr hrest, rfl⟩

theorem reads_afterBlanks : Reads afterBlanks? (someOf isBlank) isBlank :=
  reads_someOf rfl fun _ _ => rfl

theorem reads_afterIdentifier : Reads afterIdentifier? (someOf isIdentifier) isIdentifier :=
  reads_someOf rfl fun _ _ => rfl

/-- A word with blanks in front of it, if it does not start with one. -/
theorem reads_blanks_word {s : String} (hs : s.toList.head?.any (fun c => !isBlank c) = true) :
    Reads (fun cs => after? s.toList (skipBlanks cs)) ((oneOf isBlank)∗ * word s) (fun _ => false) :=
  (reads_dropWhile isBlank).bind (reads_after s) fun _ _ => startsOutside_word_mul hs

theorem Reads.skipBlanks (hf : Reads f l t)
    (hout : ∀ k, StartsOutside isBlank k → StartsOutside t ((oneOf isBlank)∗ * k)) :
    Reads (fun cs => (f cs).map skipBlanks) (l * (oneOf isBlank)∗) isBlank := by
  have hmap : (fun cs => (f cs).map Source.skipBlanks) =
      fun cs => (f cs).bind fun cs => some (cs.dropWhile isBlank) := by
    funext cs
    exact Option.map_eq_bind
  rw [hmap]
  exact hf.bind (reads_dropWhile isBlank) hout

theorem quotedText?_eq_some {inside : Char → Bool} {name : List Char}
    (hquote : ∀ c, isStringQuote c = true → inside c = false) :
    quotedText? inside cs = some (name, rest) ↔ ∃ q q', isStringQuote q = true ∧
      isStringQuote q' = true ∧ name ∈ someOf inside ∧ cs = q :: (name ++ q' :: rest) := by
  constructor
  · intro h
    cases cs with
    | nil => cases h
    | cons q cs =>
      obtain ⟨hq, h⟩ := Option.ite_none_right_eq_some.mp h
      have hcs := (List.takeWhile_append_dropWhile : cs.takeWhile inside ++ cs.dropWhile inside = cs)
      have hall : ∀ c ∈ cs.takeWhile inside, inside c = true := fun c hc => List.mem_takeWhile_imp hc
      cases htake : cs.takeWhile inside with
      | nil => simp [htake] at h
      | cons c more =>
        cases hdrop : cs.dropWhile inside with
        | nil => simp [htake, hdrop] at h
        | cons q' behind =>
          simp only [htake, hdrop] at h
          obtain ⟨hq', heq⟩ := Option.ite_none_right_eq_some.mp h
          obtain ⟨rfl, rfl⟩ := Prod.mk.inj (Option.some.inj heq)
          rw [htake] at hall
          rw [htake, hdrop] at hcs
          exact ⟨q, q', hq, hq', mem_someOf.mpr ⟨List.cons_ne_nil c more, hall⟩, by rw [hcs]⟩
  · rintro ⟨q, q', hq, hq', hname, rfl⟩
    obtain ⟨hne, hall⟩ := mem_someOf.mp hname
    obtain ⟨c, more, rfl⟩ := List.exists_cons_of_ne_nil hne
    have hnot : ¬ inside q' = true := by simp [hquote q' hq']
    rw [quotedText?, if_pos hq, List.takeWhile_append_of_pos hall, List.dropWhile_append_of_pos hall,
      List.takeWhile_cons_of_neg hnot, List.dropWhile_cons_of_neg hnot, List.append_nil]
    simp only [hq', if_true]

end

end Tsconfig.Source
