/-
# What a pattern leaves

A pattern accepts a text if it leaves nothing of it (`accepts_iff`).  What a sequence of tokens leaves is
what its tokens leave one after the other (`leaves_cons`, `leaves_append`), and what a token leaves is said
by a split of the text: a character stands in front of it (`leaves_literals`), a star takes bytes that are no
slashes (`mem_afterNames`), `**` takes everything up to some slash (`mem_afterSlashes`).

Tokens take bytes.  A character of several bytes has none below 128, so **a text can be cut in characters
wherever it can be cut at such a byte** (`exists_cut`), and the characters in front of a text are read off
its bytes (`exists_eq_append`).
-/
import Tsconfig.Glob.Selection

namespace Tsconfig.Glob

/-! ## 1. Characters and bytes -/

section

variable {c : Char} {cs ds : List Char} {b : UInt8} {u v : List UInt8}

/-- A byte below 128 is a character of its own. -/
theorem bytesOf_of_mem (hb : b ∈ bytesOf c) (hlt : b < 128) : bytesOf c = [b] := by
  have hlow {n : Nat} (h : 128 ≤ n) (h' : n < 256) : ¬ UInt8.ofNat n < 128 := by
    rw [UInt8.lt_iff_toNat_lt, UInt8.toNat_ofNat', Nat.mod_eq_of_lt h']
    exact Nat.not_lt.mpr h
  unfold bytesOf String.utf8EncodeChar at hb ⊢
  simp only at hb ⊢
  split at hb
  · next h =>
    rw [if_pos h, List.mem_singleton.mp hb]
  · split at hb
    · simp only [List.mem_cons, List.not_mem_nil, or_false] at hb
      rcases hb with rfl | rfl <;> exact absurd hlt (hlow (by omega) (by omega))
    · split at hb
      · simp only [List.mem_cons, List.not_mem_nil, or_false] at hb
        rcases hb with rfl | rfl | rfl <;> exact absurd hlt (hlow (by omega) (by omega))
      · simp only [List.mem_cons, List.not_mem_nil, or_false] at hb
        rcases hb with rfl | rfl | rfl | rfl <;> exact absurd hlt (hlow (by omega) (by omega))

/-- **A text is cut in characters where it is cut at a byte below 128.** -/
theorem exists_cut (hlt : b < 128) (h : cs.flatMap bytesOf = u ++ b :: v) :
    ∃ front c back, cs = front ++ c :: back ∧ front.flatMap bytesOf = u ∧ bytesOf c = [b] ∧
      back.flatMap bytesOf = v := by
  induction cs generalizing u with
  | nil => simp at h
  | cons c cs ih =>
    rw [List.flatMap_cons] at h
    -- The cut lies behind the first character, or it is at its end or inside of it.
    rcases List.append_eq_append_iff.mp h with ⟨w, rfl, hrest⟩ | ⟨w, hc, hrest⟩
    · obtain ⟨front, d, back, rfl, rfl, hd, hback⟩ := ih hrest
      exact ⟨c :: front, d, back, rfl, List.flatMap_cons, hd, hback⟩
    · cases w with
      | nil =>
        obtain ⟨front, d, back, rfl, hfront, hd, hback⟩ := ih (u := []) hrest.symm
        refine ⟨c :: front, d, back, rfl, ?_, hd, hback⟩
        rw [List.flatMap_cons, hfront, hc, List.append_nil, List.append_nil]
      | cons b' w =>
        -- A byte below 128 inside of a character is all of it, so nothing is in front of the cut.
        obtain ⟨rfl, rfl⟩ := List.cons.inj hrest
        have hone : bytesOf c = [b] := bytesOf_of_mem (by simp [hc]) hlt
        rw [hone] at hc
        rcases List.append_eq_singleton_iff.mp hc.symm with ⟨rfl, hw⟩ | ⟨-, hw⟩
        · obtain rfl := (List.cons.inj hw).2
          exact ⟨[], c, cs, rfl, rfl, hone, rfl⟩
        · cases hw

/-- **The characters in front of a text are read off its bytes.** -/
theorem exists_eq_append (h : ds.flatMap bytesOf = cs.flatMap bytesOf ++ v) :
    ∃ es, ds = cs ++ es ∧ es.flatMap bytesOf = v := by
  have hbytes : cs.utf8Encode ++ v.toByteArray = ds.utf8Encode := by
    have h' : (ds.flatMap String.utf8EncodeChar) = cs.flatMap String.utf8EncodeChar ++ v := h
    rw [List.utf8Encode, List.utf8Encode, h', List.toByteArray_append]
  obtain ⟨es, rfl⟩ := List.isPrefix_of_utf8Encode_append_eq_utf8Encode _ hbytes
  refine ⟨es, rfl, ?_⟩
  rw [List.flatMap_append] at h
  exact List.append_cancel_left h

theorem bytesOf_slash : bytesOf '/' = [slash] := by decide

/-- What stands in front of a slash is read off the bytes. -/
theorem exists_eq_append_slash (h : ds.flatMap bytesOf = cs.flatMap bytesOf ++ slash :: v) :
    ∃ es, ds = cs ++ '/' :: es ∧ es.flatMap bytesOf = v := by
  have hfront : ds.flatMap bytesOf = (cs ++ ['/']).flatMap bytesOf ++ v := by
    simp [h, bytesOf_slash]
  obtain ⟨es, rfl, hes⟩ := exists_eq_append hfront
  exact ⟨es, by simp, hes⟩

theorem flatMap_bytesOf_inj (h : ds.flatMap bytesOf = cs.flatMap bytesOf) : ds = cs := by
  obtain ⟨es, rfl, hes⟩ := exists_eq_append (v := []) (h.trans (List.append_nil _).symm)
  have hempty : [].flatMap bytesOf = es.flatMap bytesOf ++ [] := by simp [hes]
  obtain ⟨_, hnil, -⟩ := exists_eq_append hempty
  rw [(List.append_eq_nil_iff.mp hnil.symm).1, List.append_nil]

/-- **A text ends as its bytes do**, where the end begins with a byte below 128. -/
theorem suffix_flatMap_bytesOf (hc : bytesOf c = [b]) (hlt : b < 128) :
    (c :: cs).flatMap bytesOf <:+ ds.flatMap bytesOf ↔ c :: cs <:+ ds := by
  constructor
  · rintro ⟨u, hu⟩
    rw [List.flatMap_cons, hc, List.singleton_append] at hu
    obtain ⟨front, d, back, rfl, -, hd, hback⟩ := exists_cut hlt hu.symm
    obtain rfl := flatMap_bytesOf_inj hback
    obtain rfl : d = c := by
      have hone : [d].flatMap bytesOf = [c].flatMap bytesOf := by simp [hc, hd]
      exact (List.cons.inj (flatMap_bytesOf_inj hone)).1
    exact List.suffix_append front _
  · rintro ⟨front, rfl⟩
    rw [List.flatMap_append]
    exact List.suffix_append _ _

end

/-! ## 2. What tokens leave -/

section

variable {s rest : List UInt8}

theorem mem_afterBytes {bs : List UInt8} : rest ∈ afterBytes bs s ↔ s = bs ++ rest := by
  induction bs generalizing s with
  | nil => simp [afterBytes, eq_comm]
  | cons b bs ih =>
    cases s with
    | nil => simp [afterBytes]
    | cons c s =>
      rw [afterBytes]
      split
      · next h => simp [h, ih]
      · next h => simp [Ne.symm h]

theorem mem_afterNames : rest ∈ afterNames s ↔ ∃ w, slash ∉ w ∧ s = w ++ rest := by
  induction s with
  | nil =>
    rw [afterNames, List.mem_singleton]
    constructor
    · rintro rfl
      exact ⟨[], by simp, rfl⟩
    · rintro ⟨w, -, h⟩
      exact (List.append_eq_nil_iff.mp h.symm).2
  | cons b s ih =>
    rw [afterNames, List.mem_cons]
    constructor
    · rintro (rfl | h)
      · exact ⟨[], by simp, rfl⟩
      · split at h
        · simp at h
        · next hb =>
          obtain ⟨w, hw, rfl⟩ := ih.mp h
          exact ⟨b :: w, by simp [Ne.symm hb, hw], rfl⟩
    · rintro ⟨w, hw, h⟩
      cases w with
      | nil => exact Or.inl h.symm
      | cons b' w =>
        obtain ⟨rfl, rfl⟩ := List.cons.inj h
        obtain ⟨hb, hw⟩ := not_or.mp fun hmem => hw (List.mem_cons.mpr hmem)
        rw [if_neg (Ne.symm hb)]
        exact Or.inr (ih.mpr ⟨w, hw, rfl⟩)

theorem mem_afterSlashes : rest ∈ afterSlashes s ↔ ∃ w, s = w ++ slash :: rest := by
  induction s with
  | nil => simp [afterSlashes]
  | cons b s ih =>
    have hcons : (∃ w, b :: s = w ++ slash :: rest) ↔
        (b = slash ∧ s = rest) ∨ ∃ w, s = w ++ slash :: rest := by
      constructor
      · rintro ⟨w, h⟩
        cases w with
        | nil => exact Or.inl (List.cons.inj h)
        | cons b' w => exact Or.inr ⟨w, (List.cons.inj h).2⟩
      · rintro (⟨rfl, rfl⟩ | ⟨w, rfl⟩)
        · exact ⟨[], rfl⟩
        · exact ⟨b :: w, rfl⟩
    rw [hcons, afterSlashes]
    split
    · next hb => rw [List.mem_cons, ih, eq_comm, and_iff_right hb]
    · next hb => rw [ih, or_iff_right fun h => hb h.1]

/-- **Everything up to some slash and then no slash** is anything at all. -/
theorem exists_mem_afterNames :
    (∃ m ∈ s :: afterSlashes s, rest ∈ afterNames m) ↔ rest <:+ s := by
  simp only [List.mem_cons, mem_afterSlashes, mem_afterNames]
  constructor
  · rintro ⟨m, rfl | ⟨w, rfl⟩, w', -, rfl⟩
    · exact List.suffix_append w' rest
    · exact ⟨w ++ slash :: w', by simp⟩
  · rintro ⟨u, rfl⟩
    -- The part without a slash is what is behind the last slash of `u`, or `u` itself.
    induction u with
    | nil => exact ⟨rest, Or.inl rfl, [], by simp, rfl⟩
    | cons b u ih =>
      obtain ⟨m, rfl | ⟨w, hw⟩, w', hw', hrest⟩ := ih
      · by_cases hb : slash = b
        · exact ⟨u ++ rest, Or.inr ⟨[], by simp [hb]⟩, w', hw', hrest⟩
        · refine ⟨b :: u ++ rest, Or.inl rfl, b :: w', ?_, by simp [hrest]⟩
          simp [hb, hw']
      · exact ⟨m, Or.inr ⟨b :: w, by simp [hw]⟩, w', hw', hrest⟩

end

/-! ## 3. What sequences leave -/

/-- A sequence of tokens can match a part of a text in front of a rest. -/
def Leaves (p : Pattern) (s rest : List UInt8) : Prop := rest ∈ sequenceRests p [s]

section

variable {p q : Pattern} {s rest : List UInt8}

theorem mem_sequenceRests {texts : List (List UInt8)} :
    rest ∈ sequenceRests p texts ↔ ∃ s ∈ texts, Leaves p s rest := by
  induction p generalizing texts with
  | nil => simp [sequenceRests, Leaves]
  | cons t ts ih =>
    have hone (s : List UInt8) : Leaves (t :: ts) s rest ↔ ∃ m ∈ t.rests s, Leaves ts m rest := by
      rw [Leaves, sequenceRests, ih]
      simp [List.mem_eraseDups]
    rw [sequenceRests, ih]
    simp only [hone, List.mem_eraseDups, List.mem_flatMap]
    constructor
    · rintro ⟨m, ⟨s, hs, hm⟩, hrest⟩
      exact ⟨s, hs, m, hm, hrest⟩
    · rintro ⟨s, hs, m, hm, hrest⟩
      exact ⟨m, ⟨s, hs, hm⟩, hrest⟩

@[simp] theorem leaves_nil : Leaves [] s rest ↔ s = rest := by
  simp [Leaves, sequenceRests, eq_comm]

theorem leaves_cons {t : Token} : Leaves (t :: p) s rest ↔ ∃ m ∈ t.rests s, Leaves p m rest := by
  rw [Leaves, sequenceRests, mem_sequenceRests]
  simp [List.mem_eraseDups]

theorem leaves_append : Leaves (p ++ q) s rest ↔ ∃ m, Leaves p s m ∧ Leaves q m rest := by
  induction p generalizing s with
  | nil => simp
  | cons t ts ih =>
    simp only [List.cons_append, leaves_cons, ih]
    constructor
    · rintro ⟨m, hm, m', hts, hq⟩
      exact ⟨m', ⟨m, hm, hts⟩, hq⟩
    · rintro ⟨m', ⟨m, hm, hts⟩, hq⟩
      exact ⟨m, hm, m', hts, hq⟩

theorem leaves_literals {cs : List Char} :
    Leaves (cs.map .literal) s rest ↔ s = cs.flatMap bytesOf ++ rest := by
  induction cs generalizing s with
  | nil => simp
  | cons c cs ih =>
    simp only [List.map_cons, leaves_cons, Token.rests, mem_afterBytes, ih, List.flatMap_cons,
      List.append_assoc]
    exact ⟨fun ⟨m, hs, hm⟩ => hm ▸ hs, fun hs => ⟨_, hs, rfl⟩⟩

/-- **A pattern accepts what it leaves nothing of.** -/
theorem accepts_iff {text : String} :
    accepts p text = true ↔ isEverything p = true ∨ Leaves p (textBytes text) [] := by
  rw [accepts, Bool.or_eq_true, List.contains_iff_mem, Leaves]

end

end Tsconfig.Glob
