/-
# Strings and numbers read back

What the printer writes for a string is read as that string (`string_stringText`), whatever stands
behind the closing quote.  A number is different: nothing closes it, so a reader of numbers has to see
that the text goes on with something else.  The readers of numbers never look beyond the first
character that cannot continue a number (`ReadsLocally`), and therefore what is read from the text of a
number is read from it in front of a comma, a bracket or a line break as well
(`valueWith_numberText`).
-/
import Tsconfig.Json.Parser
import Tsconfig.Json.Printer

namespace Tsconfig.Json

open Reader

/-- The text of a number is read as a number and nothing is left. -/
def Number.ReadsTo (n m : Number) : Prop := value 0 n.text = .ok (.number m, [])

/-- The text of a number is read as that number and nothing is left.  Every integer of 64 bits is like
that; of the other numbers those whose decimal is read without a rounding that moves it. -/
def Number.ReadsBack (n : Number) : Prop := value 0 n.text = .ok (.number n, [])

instance (n m : Number) : Decidable (n.ReadsTo m) :=
  match h : value 0 n.text with
  | .ok (.number k, []) =>
    if hk : k = m then .isTrue (by rw [Number.ReadsTo, h, hk])
    else .isFalse (by rw [Number.ReadsTo, h]; simpa using hk)
  | .ok (.number _, _ :: _) | .ok (.null, _) | .ok (.bool _, _) | .ok (.string _, _)
  | .ok (.array _, _) | .ok (.object _, _) | .error _ =>
    .isFalse (by rw [Number.ReadsTo, h]; simp)

instance (n : Number) : Decidable n.ReadsBack := inferInstanceAs (Decidable (n.ReadsTo n))

namespace Reader

/-! ## 1. Blanks -/

theorem skipBlanks_cons_of_blank {c : Char} (h : isBlank c = true) (cs : List Char) :
    skipBlanks (c :: cs) = skipBlanks cs := by
  simp [skipBlanks, h]

theorem skipBlanks_cons {c : Char} (h : isBlank c = false) (cs : List Char) :
    skipBlanks (c :: cs) = c :: cs := by
  simp [skipBlanks, h]

@[simp] theorem skipBlanks_skipBlanks (cs : List Char) :
    skipBlanks (skipBlanks cs) = skipBlanks cs := by
  induction cs with
  | nil => rfl
  | cons c cs ih =>
    cases h : isBlank c with
    | true => rw [skipBlanks_cons_of_blank h, ih]
    | false => rw [skipBlanks_cons h, skipBlanks_cons h]

theorem skipBlanks_append {cs r : List Char} {c : Char} (h : skipBlanks cs = c :: r)
    (rest : List Char) : skipBlanks (cs ++ rest) = c :: (r ++ rest) := by
  induction cs with
  | nil => simp [skipBlanks] at h
  | cons d cs ih =>
    cases hd : isBlank d with
    | true =>
      rw [skipBlanks_cons_of_blank hd] at h
      rw [List.cons_append, skipBlanks_cons_of_blank hd]
      exact ih h
    | false =>
      rw [skipBlanks_cons hd] at h
      rw [List.cons_append, skipBlanks_cons hd, ← List.cons_append, h, List.cons_append]

@[simp] theorem skipBlanks_newLine (indent level : Nat) (cs : List Char) :
    skipBlanks (newLine indent level ++ cs) = skipBlanks cs := by
  have h (n : Nat) : skipBlanks (List.replicate n ' ' ++ cs) = skipBlanks cs := by
    induction n with
    | zero => rfl
    | succ n ih =>
      rw [List.replicate_succ, List.cons_append, skipBlanks_cons_of_blank (by decide), ih]
  rw [newLine, List.cons_append, skipBlanks_cons_of_blank (by decide), h]

/-! ## 2. Strings -/

theorem hexValue?_hexDigit : ∀ d < 16, hexValue? (hexDigit d) = some d := by
  decide

theorem fourDigits_control {n : Nat} (h : n < 0x20) (rest : List Char) :
    fourDigits ('0' :: '0' :: hexDigit (n / 16) :: hexDigit (n % 16) :: rest) = .ok (n, rest) := by
  have h0 : hexValue? '0' = some 0 := by decide
  have h1 := hexValue?_hexDigit (n / 16) (by omega)
  have h2 := hexValue?_hexDigit (n % 16) (by omega)
  have hn : ((0 * 16 + 0) * 16 + n / 16) * 16 + n % 16 = n := by omega
  simp only [fourDigits, h0, h1, h2, hn]

theorem escape_control {c : Char} (h : c.toNat < 0x20) (rest : List Char) :
    escape ('u' :: '0' :: '0' :: hexDigit (c.toNat / 16) :: hexDigit (c.toNat % 16) :: rest) =
      .ok (c, rest) := by
  have hl : isLowSurrogate c.toNat = false := by simp [isLowSurrogate]; omega
  have hh : isHighSurrogate c.toNat = false := by simp [isHighSurrogate]; omega
  simp [escape, fourDigits_control h, hl, hh]

/-- A character that is not escaped is read as itself. -/
theorem stringBody_plain {c : Char} (hq : c ≠ '"') (hb : c ≠ '\\') (hc : ¬ c.toNat < 0x20)
    {limit : Nat} {rest cs r : List Char} (h : stringBody limit rest = .ok (cs, r)) :
    stringBody (limit + 1) (c :: rest) = .ok (c :: cs, r) := by
  simp [stringBody, hq, hb, hc, h]

/-- A character behind a backslash is read as what it stands for. -/
theorem stringBody_escape {c : Char} {text rest : List Char} (he : escape text = .ok (c, rest))
    {limit : Nat} {cs r : List Char} (h : stringBody limit rest = .ok (cs, r)) :
    stringBody (limit + 1) ('\\' :: text) = .ok (c :: cs, r) := by
  have hq : ¬ '\\' = '"' := by decide
  simp only [stringBody, if_neg hq, if_true, he, h]

theorem stringBody_stringChar (c : Char) {limit : Nat} {rest cs r : List Char}
    (h : stringBody limit rest = .ok (cs, r)) :
    stringBody (limit + 1) (stringChar c ++ rest) = .ok (c :: cs, r) := by
  unfold stringChar
  split
  case h_8 hq hb _ _ _ _ _ =>
    split
    · next hc => exact stringBody_escape (escape_control hc rest) h
    · next hc => exact stringBody_plain (by simpa using hq) (by simpa using hb) hc h
  all_goals exact stringBody_escape (by rfl) h

/-- The body of a string, with enough turns for it. -/
theorem stringBody_flatMap (cs rest : List Char) :
    ∀ limit, cs.length < limit →
      stringBody limit (cs.flatMap stringChar ++ '"' :: rest) = .ok (cs, rest) := by
  induction cs with
  | nil =>
    intro limit h
    obtain ⟨n, rfl⟩ : ∃ n, limit = n + 1 := ⟨limit - 1, by simp at h; omega⟩
    simp [stringBody]
  | cons c cs ih =>
    intro limit h
    obtain ⟨n, rfl⟩ : ∃ n, limit = n + 1 := ⟨limit - 1, by simp at h; omega⟩
    rw [List.flatMap_cons, List.append_assoc]
    exact stringBody_stringChar c (ih n (by simpa using h))

theorem length_le_length_flatMap (cs : List Char) : cs.length ≤ (cs.flatMap stringChar).length := by
  have hpos (c : Char) : 1 ≤ (stringChar c).length := by
    unfold stringChar
    split <;> first | decide | (split <;> simp)
  induction cs with
  | nil => simp
  | cons c cs ih =>
    have := hpos c
    simp only [List.length_cons, List.flatMap_cons, List.length_append]
    omega

/-- **A written string is read back**, whatever stands behind it. -/
theorem string_stringText (s : String) (rest : List Char) :
    string (s.toList.flatMap stringChar ++ '"' :: rest) = .ok (s, rest) := by
  have hl : s.toList.length < (s.toList.flatMap stringChar ++ '"' :: rest).length := by
    have := length_le_length_flatMap s.toList
    rw [List.length_append, List.length_cons]
    omega
  unfold string
  rw [stringBody_flatMap s.toList rest _ hl]
  simp only [String.ofList_toList]

/-! ## 3. Numbers -/

/-- A text that cannot continue a number. -/
def EndsNumber (rest : List Char) : Prop :=
  ∀ c, rest.head? = some c → c.isDigit = false ∧ c ≠ '.' ∧ c ≠ 'e' ∧ c ≠ 'E'

/-- A text that cannot continue a row of digits. -/
def EndsDigits (rest : List Char) : Prop := ∀ c, rest.head? = some c → c.isDigit = false

/-- A reader that reads the same when `rest` is put behind the text. -/
def ReadsLocally {α : Type} (rest : List Char) (read : Reader α) : Prop :=
  ∀ cs x r, read cs = .ok (x, r) → read (cs ++ rest) = .ok (x, r ++ rest)

theorem endsNumber_nil : EndsNumber [] := by
  intro c h
  simp at h

theorem endsNumber_cons {c : Char} (h : c.isDigit = false) (hp : c ≠ '.') (he : c ≠ 'e')
    (hE : c ≠ 'E') (rest : List Char) : EndsNumber (c :: rest) := by
  intro d hd
  obtain rfl : c = d := by simpa using hd
  exact ⟨h, hp, he, hE⟩

theorem endsDigits_nil : EndsDigits [] := by
  intro c h
  simp at h

theorem endsDigits_cons {c : Char} (h : c.isDigit = false) (rest : List Char) :
    EndsDigits (c :: rest) := by
  intro d hd
  obtain rfl : c = d := by simpa using hd
  exact h

theorem EndsNumber.endsDigits {rest : List Char} (h : EndsNumber rest) : EndsDigits rest :=
  fun c hc => (h c hc).1

theorem EndsDigits.dropDigits {rest : List Char} (h : EndsDigits rest) :
    rest.dropWhile Char.isDigit = rest := by
  cases rest with
  | nil => rfl
  | cons c rest => simp [h c rfl]

theorem EndsDigits.dropDigits_append {rest : List Char} (h : EndsDigits rest) (cs : List Char) :
    (cs ++ rest).dropWhile Char.isDigit = cs.dropWhile Char.isDigit ++ rest := by
  induction cs with
  | nil => simpa using h.dropDigits
  | cons c cs ih =>
    cases hc : c.isDigit <;> simp [hc, ih]

theorem digitsUpTo_append {rest : List Char} (h : EndsDigits rest) (bound : Nat) (cs : List Char) :
    ∀ n, digitsUpTo bound n (cs ++ rest) =
      ((digitsUpTo bound n cs).1, (digitsUpTo bound n cs).2 ++ rest) := by
  induction cs with
  | nil =>
    intro n
    cases rest with
    | nil => rfl
    | cons c rest => simp [digitsUpTo, h c rfl]
  | cons c cs ih =>
    intro n
    by_cases hc : (c.isDigit && n * 10 + digitValue c ≤ bound) = true
    · simp only [List.cons_append, digitsUpTo, if_pos hc, ih]
    · simp only [List.cons_append, digitsUpTo, if_neg hc]

section

variable {rest : List Char}

theorem readsLocally_realNumber (negative : Bool) (significand : Nat) (exponent : Int) :
    ReadsLocally rest (realNumber negative significand exponent) := by
  intro cs x r h
  unfold realNumber at h ⊢
  cases hx : Binary64.ofDecimal significand exponent with
  | none => simp [hx] at h
  | some y =>
    simp only [hx, Except.ok.injEq, Prod.mk.injEq] at h ⊢
    exact ⟨h.1, by rw [h.2]⟩

theorem readsLocally_exponentDigits (hr : EndsNumber rest) (negative : Bool) (significand : Nat)
    (exponent : Int) (down : Bool) :
    ReadsLocally rest (exponentDigits negative significand exponent down) := by
  intro cs x r h
  cases cs with
  | nil => simp [exponentDigits] at h
  | cons c cs =>
    by_cases hc : c.isDigit = true
    · simp only [exponentDigits, if_pos hc, List.cons_append, digitsUpTo_append hr.endsDigits] at h ⊢
      generalize digitsUpTo greatestExponent (digitValue c) cs = p at h ⊢
      obtain ⟨e, more⟩ := p
      cases more with
      | nil =>
        have := @readsLocally_realNumber rest _ _ _ _ _ _ h
        cases rest with
        | nil => simpa using this
        | cons d rest => simpa [(hr d rfl).1] using this
      | cons d more =>
        by_cases hd : d.isDigit = true
        · simp only [List.cons_append, if_pos hd] at h ⊢
          split at h
          · simp at h
          · next hs =>
            simp only [Except.ok.injEq, Prod.mk.injEq] at h
            rw [if_neg hs, hr.endsDigits.dropDigits_append, h.1, h.2]
        · simp only [List.cons_append, if_neg hd] at h ⊢
          exact readsLocally_realNumber _ _ _ _ _ _ h
    · simp [exponentDigits, hc] at h

theorem exponentPart_eq {cs : List Char} (hp : cs.head? ≠ some '+') (hm : cs.head? ≠ some '-')
    (negative : Bool) (significand : Nat) (exponent : Int) :
    exponentPart negative significand exponent cs =
      exponentDigits negative significand exponent false cs := by
  unfold exponentPart
  split
  · exact absurd rfl hp
  · exact absurd rfl hm
  · rfl

theorem readsLocally_exponentPart (hr : EndsNumber rest) (negative : Bool) (significand : Nat)
    (exponent : Int) : ReadsLocally rest (exponentPart negative significand exponent) := by
  intro cs x r h
  cases cs with
  | nil => simp [exponentPart, exponentDigits] at h
  | cons c cs =>
    by_cases hp : c = '+'
    · subst hp
      exact readsLocally_exponentDigits hr _ _ _ _ _ _ _ h
    · by_cases hm : c = '-'
      · subst hm
        exact readsLocally_exponentDigits hr _ _ _ _ _ _ _ h
      · rw [exponentPart_eq (by simpa using hp) (by simpa using hm)] at h
        rw [exponentPart_eq (by simpa using hp) (by simpa using hm)]
        exact readsLocally_exponentDigits hr _ _ _ _ _ _ _ h

/-- A text that goes on with no exponent. -/
def NoExponent (cs : List Char) : Prop := cs.head? ≠ some 'e' ∧ cs.head? ≠ some 'E'

theorem EndsNumber.noExponent (hr : EndsNumber rest) : NoExponent rest :=
  ⟨fun h => (hr _ h).2.2.1 rfl, fun h => (hr _ h).2.2.2 rfl⟩

theorem decimalEnd_eq {cs : List Char} (h : NoExponent cs) (negative : Bool) (significand : Nat)
    (exponent : Int) :
    decimalEnd negative significand exponent cs = realNumber negative significand exponent cs := by
  unfold decimalEnd
  split
  · exact absurd rfl h.1
  · exact absurd rfl h.2
  · rfl

theorem numberEnd_eq {cs : List Char} (h : NoExponent cs) (hp : cs.head? ≠ some '.')
    (negative : Bool) (significand dropped : Nat) :
    numberEnd negative significand dropped cs = integerEnd negative significand dropped cs := by
  unfold numberEnd
  split
  · exact absurd rfl hp
  · exact absurd rfl h.1
  · exact absurd rfl h.2
  · rfl

theorem readsLocally_decimalEnd (hr : EndsNumber rest) (negative : Bool) (significand : Nat)
    (exponent : Int) : ReadsLocally rest (decimalEnd negative significand exponent) := by
  intro cs x r h
  cases cs with
  | nil =>
    rw [List.nil_append, decimalEnd_eq hr.noExponent]
    exact readsLocally_realNumber _ _ _ [] _ _ h
  | cons c cs =>
    by_cases he : c = 'e'
    · subst he
      exact readsLocally_exponentPart hr _ _ _ _ _ _ h
    · by_cases hE : c = 'E'
      · subst hE
        exact readsLocally_exponentPart hr _ _ _ _ _ _ h
      · rw [decimalEnd_eq ⟨by simpa using he, by simpa using hE⟩] at h
        rw [decimalEnd_eq ⟨by simpa using he, by simpa using hE⟩]
        exact readsLocally_realNumber _ _ _ _ _ _ h

theorem readsLocally_fraction (hr : EndsNumber rest) (negative : Bool) (significand : Nat)
    (exponent : Int) : ReadsLocally rest (fraction negative significand exponent) := by
  intro cs x r h
  simp only [fraction, digitsUpTo_append hr.endsDigits, hr.endsDigits.dropDigits_append, List.length_append] at h ⊢
  generalize digitsUpTo greatestInteger significand cs = p at h ⊢
  obtain ⟨n, more⟩ := p
  by_cases hl : (more.dropWhile Char.isDigit).length = cs.length
  · rw [if_pos hl] at h
    cases cs <;> simp at h
  · rw [if_neg hl] at h
    have hl' : ¬ (more.dropWhile Char.isDigit).length + rest.length = cs.length + rest.length :=
      fun he => hl (Nat.add_right_cancel he)
    rw [if_neg hl', Nat.add_sub_add_right]
    exact readsLocally_decimalEnd hr _ _ _ _ _ _ h

theorem readsLocally_integerEnd (negative : Bool) (significand dropped : Nat) :
    ReadsLocally rest (integerEnd negative significand dropped) := by
  intro cs x r h
  unfold integerEnd at h ⊢
  by_cases hd : dropped ≠ 0
  · rw [if_pos hd] at h ⊢
    exact readsLocally_realNumber _ _ _ _ _ _ h
  · rw [if_neg hd] at h ⊢
    split at h
    · next hn =>
      simp only [Except.ok.injEq, Prod.mk.injEq] at h
      simp [hn, h.1, h.2]
    · next hn =>
      rw [if_neg hn]
      split at h
      · next hs =>
        rw [if_pos hs]
        exact readsLocally_realNumber _ _ _ _ _ _ h
      · next hs =>
        simp only [Except.ok.injEq, Prod.mk.injEq] at h
        rw [if_neg hs, h.1, h.2]

theorem readsLocally_numberEnd (hr : EndsNumber rest) (negative : Bool)
    (significand dropped : Nat) : ReadsLocally rest (numberEnd negative significand dropped) := by
  intro cs x r h
  cases cs with
  | nil =>
    have hp : rest.head? ≠ some '.' := fun h => (hr _ h).2.1 rfl
    rw [List.nil_append, numberEnd_eq hr.noExponent hp]
    exact readsLocally_integerEnd _ _ _ [] _ _ h
  | cons c cs =>
    by_cases hp : c = '.'
    · subst hp
      exact readsLocally_fraction hr _ _ _ _ _ _ h
    · by_cases he : c = 'e'
      · subst he
        exact readsLocally_exponentPart hr _ _ _ _ _ _ h
      · by_cases hE : c = 'E'
        · subst hE
          exact readsLocally_exponentPart hr _ _ _ _ _ _ h
        · rw [numberEnd_eq ⟨by simpa using he, by simpa using hE⟩ (by simpa using hp)] at h
          rw [numberEnd_eq ⟨by simpa using he, by simpa using hE⟩ (by simpa using hp)]
          exact readsLocally_integerEnd _ _ _ _ _ _ h

theorem readsLocally_number (hr : EndsNumber rest) (negative : Bool) :
    ReadsLocally rest (number negative) := by
  intro cs x r h
  cases cs with
  | nil => simp [number] at h
  | cons c cs =>
    by_cases h0 : c = '0'
    · simp only [number, List.cons_append, if_pos h0] at h ⊢
      cases cs with
      | nil =>
        have := readsLocally_numberEnd hr _ _ _ _ _ _ h
        cases rest with
        | nil => exact this
        | cons d rest => simpa [(hr d rfl).1] using this
      | cons d cs =>
        simp only [List.cons_append] at h ⊢
        split at h
        · simp at h
        · next hd =>
          rw [if_neg hd]
          exact readsLocally_numberEnd hr _ _ _ (d :: cs) _ _ h
    · by_cases hc : c.isDigit = true
      · simp only [number, List.cons_append, if_neg h0, if_pos hc, digitsUpTo_append hr.endsDigits,
          hr.endsDigits.dropDigits_append, List.length_append] at h ⊢
        rw [Nat.add_sub_add_right]
        exact readsLocally_numberEnd hr _ _ _ _ _ _ h
      · simp [number, h0, hc] at h

end

/-! ## 4. What a reader of values can do -/

theorem literal_eq_ok {v x : Json} {w cs r : List Char} (h : literal v w cs = .ok (x, r)) :
    x = v ∧ word w cs = .ok r := by
  unfold literal at h
  cases hw : word w cs with
  | error f => simp [hw] at h
  | ok rest =>
    simp only [hw, Except.ok.injEq, Prod.mk.injEq] at h
    exact ⟨h.1.symm, by rw [h.2]⟩

theorem mapped_eq_ok {α : Type} {f : α → Json} {read : Reader α} {cs r : List Char} {v : Json}
    (h : mapped f read cs = .ok (v, r)) : ∃ x, read cs = .ok (x, r) ∧ v = f x := by
  unfold mapped at h
  cases hr : read cs with
  | error e => simp [hr] at h
  | ok p =>
    simp only [hr, Except.ok.injEq, Prod.mk.injEq] at h
    exact ⟨p.1, by rw [← h.2], h.1.symm⟩

/-- What the first character of a value says about it. -/
inductive Begins (container : Reader Json) (c : Char) (text : List Char) (v : Json)
    (r : List Char) : Prop
  | null (hc : c = 'n') (hv : v = .null)
  | bool (hc : c = 't' ∨ c = 'f') (b : Bool) (hv : v = .bool b)
  | negative (hc : c = '-') (n : Number) (hv : v = .number n) (hn : number true text = .ok (n, r))
  | number (hc : c.isDigit = true) (n : Number) (hv : v = .number n)
      (hn : number false (c :: text) = .ok (n, r))
  | string (hc : c = '"') (s : String) (hv : v = .string s) (hs : string text = .ok (s, r))
  | container (hc : c = '[' ∨ c = '\x7b') (hv : container (c :: text) = .ok (v, r))

/-- A value that is read begins with a character that tells its kind. -/
theorem begins_of_valueWith {container : Reader Json} {cs r : List Char} {v : Json}
    (h : valueWith container cs = .ok (v, r)) :
    ∃ c text, skipBlanks cs = c :: text ∧ Begins container c text v r := by
  unfold valueWith at h
  cases ht : skipBlanks cs with
  | nil => simp [ht] at h
  | cons c text =>
    refine ⟨c, text, rfl, ?_⟩
    rw [ht] at h
    simp only at h
    split at h
    · next hc => exact .null hc (literal_eq_ok h).1
    · split at h
      · next hc => exact .bool (.inl hc) true (literal_eq_ok h).1
      · split at h
        · next hc => exact .bool (.inr hc) false (literal_eq_ok h).1
        · split at h
          · next hc =>
            obtain ⟨n, hn, hv⟩ := mapped_eq_ok h
            exact .negative hc n hv hn
          · split at h
            · next hc =>
              obtain ⟨n, hn, hv⟩ := mapped_eq_ok h
              exact .number hc n hv hn
            · split at h
              · next hc =>
                obtain ⟨s, hs, hv⟩ := mapped_eq_ok h
                exact .string hc s hv hs
              · split at h
                · next hc => exact .container (by simpa using hc) h
                · simp at h

/-- **The text of a number is read as it is in front of anything that cannot continue it.** -/
theorem valueWith_numberText {n m : Number} (hn : n.ReadsTo m) {rest : List Char}
    (hr : EndsNumber rest) (container : Reader Json) :
    valueWith container (n.text ++ rest) = .ok (.number m, rest) := by
  obtain ⟨c, text, ht, hb⟩ := begins_of_valueWith hn
  unfold valueWith
  rw [skipBlanks_append ht]
  cases hb with
  | negative hc k hv hm =>
    obtain rfl : m = k := by simpa using hv
    subst hc
    have := readsLocally_number hr true text m [] hm
    simp [mapped, this]
  | number hc k hv hm =>
    obtain rfl : m = k := by simpa using hv
    have := readsLocally_number hr false (c :: text) m [] hm
    have hne {d : Char} (hd : d.isDigit = false) : c ≠ d := by
      rintro rfl
      exact Bool.false_ne_true (hd.symm.trans hc)
    simp only [if_neg (hne (d := 'n') (by decide)), if_neg (hne (d := 't') (by decide)),
      if_neg (hne (d := 'f') (by decide)), if_neg (hne (d := '-') (by decide)), if_pos hc]
    rw [List.cons_append] at this
    simp [mapped, this]
  | null _ hv => simp at hv
  | bool _ _ hv => simp at hv
  | string _ _ hv => simp at hv
  | container _ hv => simp at hv

end Reader

end Tsconfig.Json
