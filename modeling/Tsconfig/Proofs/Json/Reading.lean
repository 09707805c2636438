/-
# Readers go forward

A reader of values takes at least one character off the text (`consumes_value`).  The loops over items
and entries are given a number of turns, and since every turn goes forward, any number will do that is
not less than the length of the text.

Therefore a loop can be followed by another one with other turns and another reader of an item, provided
that this reader reads whatever the first one does (`items_simulated`, `members_simulated`).  That is
how a typed document is compared with the document as it stands.
-/
import Tsconfig.Proofs.Json.RoundTrip

namespace Tsconfig.Json.Reader

/-! ## 1. What is left of a text -/

/-- A reader that takes something off the text. -/
def Consumes {α : Type} (read : Reader α) : Prop :=
  ∀ cs x r, read cs = .ok (x, r) → r.length < cs.length

theorem length_skipBlanks_le (cs : List Char) : (skipBlanks cs).length ≤ cs.length :=
  (List.dropWhile_sublist _).length_le

theorem length_dropDigits_le (cs : List Char) : (cs.dropWhile Char.isDigit).length ≤ cs.length :=
  (List.dropWhile_sublist _).length_le

theorem AtNext.length_le {first : Bool} {cs text : List Char} (h : AtNext first cs text) :
    text.length + (if first then 0 else 1) ≤ cs.length := by
  have hcs := length_skipBlanks_le cs
  cases first with
  | true =>
    have h : skipBlanks cs = text := h
    rw [h] at hcs
    simpa using hcs
  | false =>
    obtain ⟨tail, hcomma, rfl⟩ := h
    have htail := length_skipBlanks_le tail
    rw [hcomma, List.length_cons] at hcs
    simp only [Bool.false_eq_true, if_false]
    omega

theorem length_le_of_word {w : List Char} :
    ∀ {cs r : List Char}, word w cs = .ok r → r.length ≤ cs.length := by
  induction w with
  | nil =>
    intro cs r h
    obtain rfl : cs = r := by simpa [word] using h
    exact Nat.le_refl _
  | cons c w ih =>
    intro cs r h
    cases cs with
    | nil => simp [word] at h
    | cons d cs =>
      rw [word] at h
      split at h
      · exact Nat.le_succ_of_le (ih h)
      · simp at h

/-! ## 2. Strings -/

theorem length_of_fourDigits {cs r : List Char} {n : Nat} (h : fourDigits cs = .ok (n, r)) :
    r.length < cs.length := by
  simp only [fourDigits] at h
  split at h
  · split at h
    · simp only [Except.ok.injEq, Prod.mk.injEq] at h
      obtain ⟨_, rfl⟩ := h
      simp only [List.length_cons]
      omega
    · simp at h
  · simp at h

theorem consumes_surrogatePair (high : Nat) : Consumes (surrogatePair high) := by
  intro cs x r h
  unfold surrogatePair at h
  split at h
  · simp at h
  · simp at h
  · split at h
    · simp at h
    · next hd =>
      have := length_of_fourDigits hd
      split at h
      · simp only [Except.ok.injEq, Prod.mk.injEq] at h
        obtain ⟨_, rfl⟩ := h
        simp only [List.length_cons]
        omega
      · simp at h
  · simp at h
  · simp at h

theorem consumes_escape : Consumes escape := by
  intro cs x r h
  unfold escape at h
  split at h
  case h_10 =>
    split at h
    · simp at h
    · next hd =>
      have hdigits := length_of_fourDigits hd
      split at h
      · simp at h
      · split at h
        · have hpair := consumes_surrogatePair _ _ _ _ h
          simp only [List.length_cons]
          omega
        · simp only [Except.ok.injEq, Prod.mk.injEq] at h
          obtain ⟨_, rfl⟩ := h
          simp only [List.length_cons]
          omega
  all_goals simp at h
  all_goals
    obtain ⟨_, rfl⟩ := h
    simp

theorem consumes_stringBody (limit : Nat) : Consumes (stringBody limit) := by
  induction limit with
  | zero =>
    intro cs x r h
    cases cs <;> simp [stringBody] at h
  | succ limit ih =>
    intro cs x r h
    cases cs with
    | nil => simp [stringBody] at h
    | cons c cs =>
      rw [stringBody] at h
      split at h
      · obtain ⟨_, rfl⟩ : x = [] ∧ cs = r := by simpa [eq_comm] using h
        simp
      · split at h
        · split at h
          · simp at h
          · next he =>
            have hescape := consumes_escape _ _ _ he
            split at h
            · simp at h
            · next hb =>
              have hbody := ih _ _ _ hb
              simp only [Except.ok.injEq, Prod.mk.injEq] at h
              obtain ⟨_, rfl⟩ := h
              simp only [List.length_cons]
              omega
        · split at h
          · simp at h
          · split at h
            · simp at h
            · next hb =>
              have hbody := ih _ _ _ hb
              simp only [Except.ok.injEq, Prod.mk.injEq] at h
              obtain ⟨_, rfl⟩ := h
              simp only [List.length_cons]
              omega

theorem consumes_string : Consumes string := by
  intro cs s r h
  unfold string at h
  split at h
  · simp at h
  · next hb =>
    have hbody := consumes_stringBody _ _ _ _ hb
    simp only [Except.ok.injEq, Prod.mk.injEq] at h
    obtain ⟨_, rfl⟩ := h
    exact hbody

/-! ## 3. Numbers -/

section

variable {negative down : Bool} {bound significand dropped n : Nat} {exponent : Int}
  {cs r : List Char} {x : Number}

theorem length_digitsUpTo_le : ∀ {n : Nat}, (digitsUpTo bound n cs).2.length ≤ cs.length := by
  induction cs with
  | nil => simp [digitsUpTo]
  | cons c cs ih =>
    intro n
    rw [digitsUpTo]
    split
    · exact Nat.le_succ_of_le ih
    · exact Nat.le_refl _

theorem eq_of_realNumber (h : realNumber negative significand exponent cs = .ok (x, r)) : r = cs := by
  unfold realNumber at h
  split at h
  · simp at h
  · exact (Prod.mk.inj (Except.ok.inj h)).2.symm

theorem length_of_exponentDigits
    (h : exponentDigits negative significand exponent down cs = .ok (x, r)) :
    r.length ≤ cs.length := by
  cases cs with
  | nil => simp [exponentDigits] at h
  | cons c cs =>
    have hdigits := @length_digitsUpTo_le greatestExponent cs (digitValue c)
    rw [exponentDigits] at h
    split at h
    · simp only at h
      split at h
      · next d after hafter =>
        rw [hafter, List.length_cons] at hdigits
        have hdrop := length_dropDigits_le after
        split at h
        · split at h
          · simp at h
          · simp only [Except.ok.injEq, Prod.mk.injEq] at h
            obtain ⟨_, rfl⟩ := h
            simp only [List.length_cons]
            omega
        · obtain rfl := eq_of_realNumber h
          rw [hafter]
          simp only [List.length_cons]
          omega
      · next hafter =>
        obtain rfl := eq_of_realNumber h
        simp [hafter]
    · simp at h

theorem length_of_exponentPart (h : exponentPart negative significand exponent cs = .ok (x, r)) :
    r.length ≤ cs.length := by
  unfold exponentPart at h
  split at h
  · exact Nat.le_succ_of_le (length_of_exponentDigits h)
  · exact Nat.le_succ_of_le (length_of_exponentDigits h)
  · exact length_of_exponentDigits h

theorem length_of_decimalEnd (h : decimalEnd negative significand exponent cs = .ok (x, r)) :
    r.length ≤ cs.length := by
  unfold decimalEnd at h
  split at h
  · exact Nat.le_succ_of_le (length_of_exponentPart h)
  · exact Nat.le_succ_of_le (length_of_exponentPart h)
  · exact Nat.le_of_eq (congrArg List.length (eq_of_realNumber h))

theorem length_of_fraction (h : fraction negative significand exponent cs = .ok (x, r)) :
    r.length ≤ cs.length := by
  have hdigits := @length_digitsUpTo_le greatestInteger cs significand
  have hdrop := length_dropDigits_le (digitsUpTo greatestInteger significand cs).2
  simp only [fraction] at h
  split at h
  · cases cs <;> simp at h
  · have hend := length_of_decimalEnd h
    omega

theorem length_of_integerEnd (h : integerEnd negative significand dropped cs = .ok (x, r)) :
    r.length ≤ cs.length := by
  unfold integerEnd at h
  split at h
  · exact Nat.le_of_eq (congrArg List.length (eq_of_realNumber h))
  · split at h
    · exact Nat.le_of_eq (congrArg List.length (Prod.mk.inj (Except.ok.inj h)).2.symm)
    · split at h
      · exact Nat.le_of_eq (congrArg List.length (eq_of_realNumber h))
      · exact Nat.le_of_eq (congrArg List.length (Prod.mk.inj (Except.ok.inj h)).2.symm)

theorem length_of_numberEnd (h : numberEnd negative significand dropped cs = .ok (x, r)) :
    r.length ≤ cs.length := by
  unfold numberEnd at h
  split at h
  · exact Nat.le_succ_of_le (length_of_fraction h)
  · exact Nat.le_succ_of_le (length_of_exponentPart h)
  · exact Nat.le_succ_of_le (length_of_exponentPart h)
  · exact length_of_integerEnd h

end

theorem consumes_number (negative : Bool) : Consumes (number negative) := by
  intro cs x r h
  cases cs with
  | nil => simp [number] at h
  | cons c cs =>
    have hle : r.length ≤ cs.length := by
      unfold number at h
      simp only at h
      split at h
      · split at h
        · split at h
          · simp at h
          · exact length_of_numberEnd h
        · exact length_of_numberEnd h
      · split at h
        · have hdigits := @length_digitsUpTo_le greatestInteger cs (digitValue c)
          have hdrop := length_dropDigits_le (digitsUpTo greatestInteger (digitValue c) cs).2
          have hend := length_of_numberEnd h
          omega
        · simp at h
    exact Nat.lt_succ_of_le hle

/-! ## 4. Loops with another reader -/

section

variable {α β σ τ : Type}

/-- The next item is read wherever it stands. -/
theorem items_next {item : Reader α} (hi : ReadsItems item) {first : Bool} {cs text r₁ r : List Char}
    {x : α} {xs : List α} (ht : AtNext first cs text) (hx : item text = .ok (x, r₁)) {limit : Nat}
    (hxs : items item limit false r₁ = .ok (xs, r)) :
    items item (limit + 1) first cs = .ok (x :: xs, r) := by
  cases first with
  | true =>
    have ht : skipBlanks cs = text := ht
    exact items_first hi (by rwa [← hi.past, ht]) hxs
  | false =>
    obtain ⟨tail, hcomma, rfl⟩ := ht
    exact items_later hi hcomma (by rwa [← hi.past]) hxs

/-- The next entry is read wherever it stands. -/
theorem members_next {member : σ → String → Reader σ} {first : Bool} {cs text r₁ r₂ : List Char}
    {key : String} {s s' : σ} {result : Except Fault (σ × List Char)}
    (ht : AtNext first cs ('"' :: text)) (hk : string text = .ok (key, r₁))
    (hm : member s key r₁ = .ok (s', r₂)) {limit : Nat}
    (hrest : members member limit false s' r₂ = result) :
    members member (limit + 1) first s cs = result := by
  cases first with
  | true => exact members_first ht hk hm hrest
  | false =>
    obtain ⟨tail, hcomma, hquote⟩ := ht
    exact members_later hcomma hquote hk hm hrest

/-- **What one reader reads item by item, a reader that follows it reads as well**, with any number of
turns that is not less than the length of the text. -/
theorem items_simulated {item : Reader α} {item' : Reader β} {f : α → β} (hi : ReadsItems item')
    (hc : Consumes item')
    (hf : ∀ cs x r, item cs = .ok (x, r) → item' cs = .ok (f x, r)) :
    ∀ limit first cs xs r, items item limit first cs = .ok (xs, r) →
      ∀ limit', cs.length ≤ limit' → items item' limit' first cs = .ok (xs.map f, r) := by
  intro limit
  induction limit with
  | zero =>
    intro first cs xs r h
    simp [items] at h
  | succ limit ih =>
    intro first cs xs r h limit' hl
    rcases items_turn h with ⟨hend, rfl⟩ | ⟨text, x, r', xs', ht, hx, hxs, rfl⟩
    · have hcs := length_skipBlanks_le cs
      rw [hend, List.length_cons] at hcs
      obtain ⟨n, rfl⟩ : ∃ n, limit' = n + 1 := ⟨limit' - 1, by omega⟩
      exact items_end hend n first
    · have hx' := hf _ _ _ hx
      have hshort := hc _ _ _ hx'
      have htext := ht.length_le
      obtain ⟨n, rfl⟩ : ∃ n, limit' = n + 1 := ⟨limit' - 1, by omega⟩
      exact items_next hi ht hx' (ih false r' xs' r hxs n (by omega))

/-- **What one reader reads entry by entry, a reader that follows it reads as well.**  `R` ties what the
two have read so far. -/
theorem members_simulated {member : σ → String → Reader σ} {member' : τ → String → Reader τ}
    {R : σ → τ → Prop} (hc : ∀ t key, Consumes (member' t key))
    (hm : ∀ s t key cs s' r, R s t → member s key cs = .ok (s', r) →
      ∃ t', R s' t' ∧ member' t key cs = .ok (t', r)) :
    ∀ limit first s t cs s' r, R s t → members member limit first s cs = .ok (s', r) →
      ∀ limit', cs.length ≤ limit' →
        ∃ t', R s' t' ∧ members member' limit' first t cs = .ok (t', r) := by
  intro limit
  induction limit with
  | zero =>
    intro first s t cs s' r _ h
    simp [members] at h
  | succ limit ih =>
    intro first s t cs s' r hR h limit' hl
    rcases members_turn h with ⟨hend, rfl⟩ | ⟨text, key, cs', s₁, r', ht, hk, hs, hrest⟩
    · have hcs := length_skipBlanks_le cs
      rw [hend, List.length_cons] at hcs
      obtain ⟨n, rfl⟩ : ∃ n, limit' = n + 1 := ⟨limit' - 1, by omega⟩
      exact ⟨t, hR, members_end hend n first t⟩
    · obtain ⟨t₁, hR₁, ht₁⟩ := hm s t key cs' s₁ r' hR hs
      have hkey := consumes_string _ _ _ hk
      have hentry := hc _ _ _ _ _ ht₁
      have htext := ht.length_le
      rw [List.length_cons] at htext
      obtain ⟨n, rfl⟩ : ∃ n, limit' = n + 1 := ⟨limit' - 1, by omega⟩
      obtain ⟨t', hR', hrest'⟩ := ih false s₁ t₁ r' s' r hR₁ hrest n (by omega)
      exact ⟨t', hR', members_next ht hk ht₁ hrest'⟩

theorem length_of_items {item : Reader α} (hc : Consumes item) :
    ∀ limit first cs xs r, items item limit first cs = .ok (xs, r) → r.length < cs.length := by
  intro limit
  induction limit with
  | zero =>
    intro first cs xs r h
    simp [items] at h
  | succ limit ih =>
    intro first cs xs r h
    rcases items_turn h with ⟨hend, rfl⟩ | ⟨text, x, r', xs', ht, hx, hxs, rfl⟩
    · have hcs := length_skipBlanks_le cs
      rw [hend, List.length_cons] at hcs
      omega
    · have hitem := hc _ _ _ hx
      have htext := ht.length_le
      have hrest := ih false r' xs' r hxs
      omega

theorem length_of_members {member : σ → String → Reader σ} (hc : ∀ s key, Consumes (member s key)) :
    ∀ limit first s cs s' r, members member limit first s cs = .ok (s', r) →
      r.length < cs.length := by
  intro limit
  induction limit with
  | zero =>
    intro first s cs s' r h
    simp [members] at h
  | succ limit ih =>
    intro first s cs s' r h
    rcases members_turn h with ⟨hend, rfl⟩ | ⟨text, key, cs', s₁, r', ht, hk, hs, hrest⟩
    · have hcs := length_skipBlanks_le cs
      rw [hend, List.length_cons] at hcs
      omega
    · have hkey := consumes_string _ _ _ hk
      have hentry := hc _ _ _ _ _ hs
      have htext := ht.length_le
      rw [List.length_cons] at htext
      have hlater := ih false s₁ r' s' r hrest
      omega

end

/-! ## 5. Values -/

theorem consumes_mapped {α : Type} {f : α → Json} {read : Reader α} (h : Consumes read) :
    Consumes (mapped f read) := by
  intro cs v r hv
  obtain ⟨x, hx, _⟩ := mapped_eq_ok hv
  exact h _ _ _ hx

theorem length_of_colon {cs r : List Char} (h : colon cs = .ok r) : r.length < cs.length := by
  have hcs := length_skipBlanks_le cs
  unfold colon at h
  split at h
  · simp at h
  · next hcolon =>
    obtain rfl := Except.ok.inj h
    rw [hcolon, List.length_cons] at hcs
    omega
  · simp at h

theorem consumes_entry {read : Reader Json} (h : Consumes read) (fields : Fields Json)
    (key : String) : Consumes (entry read fields key) := by
  intro cs fields' r he
  obtain ⟨text, v, hcolon, hv, _⟩ := entry_eq_ok he
  exact Nat.lt_trans (h _ _ _ hv) (length_of_colon hcolon)

theorem consumes_valueWith {container : Reader Json} (h : Consumes container) :
    Consumes (valueWith container) := by
  intro cs v r hv
  have hcs := length_skipBlanks_le cs
  unfold valueWith at hv
  split at hv
  · simp at hv
  · next c text ht =>
    have hword {x : Json} {w : List Char} (hl : literal x w text = .ok (v, r)) :
        r.length ≤ text.length := length_le_of_word (literal_eq_ok hl).2
    rw [ht, List.length_cons] at hcs
    split at hv
    · have := hword hv
      omega
    split at hv
    · have := hword hv
      omega
    split at hv
    · have := hword hv
      omega
    split at hv
    · have := consumes_mapped (consumes_number true) _ _ _ hv
      omega
    split at hv
    · have := consumes_mapped (consumes_number false) _ _ _ hv
      rw [List.length_cons] at this
      omega
    split at hv
    · have := consumes_mapped consumes_string _ _ _ hv
      omega
    split at hv
    · have := h _ _ _ hv
      rw [List.length_cons] at this
      omega
    · simp at hv

theorem consumes_containerOf {inner : Reader Json} (h : Consumes inner) :
    Consumes (containerOf inner) := by
  intro cs v r hv
  unfold containerOf at hv
  split at hv
  · obtain ⟨xs, hxs, _⟩ := mapped_eq_ok hv
    have := length_of_items h _ _ _ _ _ hxs
    rw [List.length_cons]
    omega
  · obtain ⟨fields, hf, _⟩ := mapped_eq_ok hv
    have := length_of_members (consumes_entry h) _ _ _ _ _ _ hf
    rw [List.length_cons]
    omega
  · simp at hv

/-- **A value that is read takes something off the text.** -/
theorem consumes_value (depth : Nat) : Consumes (value depth) := by
  induction depth with
  | zero => exact consumes_valueWith fun cs v r h => by simp at h
  | succ depth ih => exact consumes_valueWith (consumes_containerOf ih)

end Tsconfig.Json.Reader
