/-
# A descriptor that was written can be read

Every number of a descriptor is one that its text held (`isStored_of_parse`), and therefore the canonical
text of the descriptor is read again (`exists_parse_canonical`).  What is read is the descriptor but for
its numbers, which may be rounded once more; nothing is assumed of them.
-/
import Tsconfig.Proofs.Descriptor.Object
import Tsconfig.Proofs.Json.Numbers

namespace Tsconfig

open Json

namespace Json.Reader

/-! ## 1. The numbers of what is read -/

/-- Entries whose numbers a document can hold. -/
def FieldsStored (fields : Fields Json) : Prop := ∀ e ∈ fields, ∀ n ∈ e.2.numbers, n.IsStored

theorem FieldsStored.insert {fields : Fields Json} (h : FieldsStored fields) (key : String) {v : Json}
    (hv : ∀ n ∈ v.numbers, n.IsStored) : FieldsStored (fields.insert key v) := by
  intro e he
  rcases Fields.mem_insert he with rfl | he
  · exact hv
  · exact h e he

/-- **The numbers of a value that is read are ones that a document can hold.** -/
theorem isStored_of_value (depth : Nat) :
    ∀ cs v r, value depth cs = .ok (v, r) → ∀ n ∈ v.numbers, n.IsStored := by
  -- Arrays and objects are left to the induction on the depth.
  have hvalue (container : Reader Json)
      (hc : ∀ cs v r, container cs = .ok (v, r) → ∀ n ∈ v.numbers, n.IsStored) :
      ∀ cs v r, valueWith container cs = .ok (v, r) → ∀ n ∈ v.numbers, n.IsStored := by
    intro cs v r h n hn
    obtain ⟨c, text, _, hb⟩ := begins_of_valueWith h
    cases hb with
    | null _ hv => simp [hv, numbers] at hn
    | bool _ b hv => simp [hv, numbers] at hn
    | string _ s hv => simp [hv, numbers] at hn
    | negative _ m hv hm =>
      obtain rfl : n = m := by simpa [hv, numbers] using hn
      exact isStored_of_number hm
    | number _ m hv hm =>
      obtain rfl : n = m := by simpa [hv, numbers] using hn
      exact isStored_of_number hm
    | container _ hv => exact hc _ _ _ hv n hn
  induction depth with
  | zero => exact hvalue _ fun cs v r h => by simp at h
  | succ depth ih =>
    refine hvalue _ fun cs v r h n hn => ?_
    unfold containerOf at h
    split at h
    · obtain ⟨xs, hxs, rfl⟩ := mapped_eq_ok h
      rw [numbers, itemNumbers_eq] at hn
      obtain ⟨x, hx, hmem⟩ := List.mem_flatMap.mp hn
      exact forall_of_items ih _ _ _ _ _ hxs x hx n hmem
    · obtain ⟨fields, hfields, rfl⟩ := mapped_eq_ok h
      have hstored : FieldsStored fields :=
        invariant_of_members (P := FieldsStored) (fun _ key _ _ _ hs hm => by
          obtain ⟨text, v, _, hv, rfl⟩ := entry_eq_ok hm
          exact hs.insert key (ih _ _ _ hv)) _ _ [] _ _ _ (by simp [FieldsStored]) hfields
      rw [numbers, fieldNumbers_eq] at hn
      obtain ⟨e, he, hmem⟩ := List.mem_flatMap.mp hn
      exact hstored e he n hmem
    · simp at h

end Json.Reader

/-- The numbers of a document that is an object. -/
theorem Json.isStored_of_parseObject? {text : String} {fields : Fields Json}
    (h : parseObject? text = some fields) : ∀ n ∈ (Json.object fields).numbers, n.IsStored := by
  have hparse : parse text = .ok (.object fields) := by
    unfold parseObject? parse? at h
    cases hv : parse text with
    | error f => simp [hv] at h
    | ok v => cases v <;> simp_all
  unfold parse Reader.atEnd at hparse
  split at hparse
  · simp at hparse
  · next hv =>
    split at hparse
    · obtain rfl := Except.ok.inj hparse
      exact Reader.isStored_of_value _ _ _ _ hv
    · simp at hparse

namespace Descriptor

/-! ## 2. The descriptor -/

section

variable {d : Descriptor}

theorem isStored_of_parse {text : String} (h : parse text = .ok d) : ∀ n ∈ d.numbers, n.IsStored := by
  obtain ⟨old, hold, hsays⟩ := says_of_parse h
  exact fun n hn => isStored_of_parseObject? hold n (mem_numbers_of_object hsays hn)

/-- **The canonical text of a well formed descriptor whose numbers a document can hold is read as that
descriptor**, but for its numbers. -/
theorem exists_parse_canonical (h : d.WellFormed) (hn : ∀ n ∈ d.numbers, n.IsStored) :
    ∃ f, parse d.canonical = .ok { d.mapNumbers f with keyOrder := d.entries.keys } := by
  have hto (n : Number) : ∃ m, n.IsStored → n.ReadsTo m := by
    by_cases hs : n.IsStored
    · obtain ⟨m, hm⟩ := Number.exists_readsTo hs
      exact ⟨m, fun _ => hm⟩
    · exact ⟨n, fun hs' => absurd hs' hs⟩
  choose f hf using hto
  exact ⟨f, parse_canonical_mapNumbers h fun n hmem => hf n (hn n hmem)⟩

end

end Descriptor

end Tsconfig
