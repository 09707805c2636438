/-
# The last pattern that applies decides

Patterns are applied one after the other to a list that grows and shrinks.  A plain pattern applies to a
candidate if the listing of its root yields it and the pattern accepts it (`AddsAt`); a negated one applies
if it accepts it (`RemovesAt`).  The pattern that decides for a candidate is the first plain one that
applies behind the last negated one that applies (`Decides`): it is there if and only if some plain pattern
applies with no negated one behind it (`exists_decides_iff`).

Applying one more pattern keeps the list as the patterns decide (`Chosen.apply`).  So **a candidate is
selected if and only if some plain pattern applies to it and no negated one behind that does, no candidate is
selected twice, and candidates come in the order of the patterns that decide for them**, those of one pattern
in the order in which they are listed (`expand_decided`).
-/
import Mathlib.Data.List.Forall2
import Mathlib.Data.List.Induction
import Mathlib.Data.List.Nodup
import Mathlib.Data.Nat.Find
import Tsconfig.Proofs.Glob.Selected

namespace Tsconfig.Glob

open FileSystem

/-! ## 1. Which pattern decides -/

section

variable (fs : FileSystem) (base : Path) (rs : List Rule) (c : String)

/-- A plain rule adds a candidate: the listing of its root yields it and its pattern accepts it. -/
structure Rule.Adds (r : Rule) : Prop where
  plain : r.negated = false
  listed : c ∈ candidates fs base r.root
  accepted : r.accepts c = true

/-- A negated rule takes a candidate away: its pattern accepts it. -/
structure Rule.Removes (r : Rule) : Prop where
  negated : r.negated = true
  accepted : r.accepts c = true

/-- The rule at an index adds a candidate. -/
def AddsAt (i : Nat) : Prop := ∃ r, rs[i]? = some r ∧ r.Adds fs base c

/-- The rule at an index takes a candidate away. -/
def RemovesAt (i : Nat) : Prop := ∃ r, rs[i]? = some r ∧ r.Removes c

/-- The rule at an index is the first that adds a candidate behind the last one that takes it away. -/
structure Decides (i : Nat) : Prop where
  adds : AddsAt fs base rs c i
  last : ∀ j, i < j → ¬ RemovesAt rs c j
  first : ∀ k < i, AddsAt fs base rs c k → ∃ j, k < j ∧ RemovesAt rs c j

/-- A candidate comes before another: the rule that decides for it does, or the one rule that decides for
both lists it first. -/
def ComesBefore (d : String) : Prop := ∃ i j, Decides fs base rs c i ∧ Decides fs base rs d j ∧
  (i < j ∨ i = j ∧ ∃ r, rs[i]? = some r ∧
    (candidates fs base r.root).idxOf c < (candidates fs base r.root).idxOf d)

end

section

variable {fs : FileSystem} {base : Path} {rs : List Rule} {r : Rule} {c d : String} {i : Nat}

/-- **Some rule decides just when some rule adds the candidate and none behind it takes it away.** -/
theorem exists_decides_iff : (∃ i, Decides fs base rs c i) ↔
    ∃ i, AddsAt fs base rs c i ∧ ∀ j, i < j → ¬ RemovesAt rs c j := by
  constructor
  · rintro ⟨i, h⟩
    exact ⟨i, h.adds, h.last⟩
  · intro h
    classical
    obtain ⟨hadds, hlast⟩ := Nat.find_spec h
    refine ⟨Nat.find h, hadds, hlast, fun k hk hadd => ?_⟩
    have hnot := Nat.find_min h hk
    by_contra hnone
    exact hnot ⟨hadd, fun j hj hremoves => hnone ⟨j, hj, hremoves⟩⟩

theorem lt_of_addsAt (h : AddsAt fs base rs c i) : i < rs.length := by
  obtain ⟨r, hr, -⟩ := h
  exact (List.getElem?_eq_some_iff.mp hr).1

/-! ## 2. One more rule -/

theorem getElem?_concat_iff {r' : Rule} : (rs ++ [r])[i]? = some r' ↔
    rs[i]? = some r' ∨ (i = rs.length ∧ r' = r) := by
  rcases Nat.lt_trichotomy i rs.length with h | rfl | h
  · simp [List.getElem?_append_left h, Nat.ne_of_lt h]
  · simp [eq_comm]
  · have hlen : (rs ++ [r]).length ≤ i := by
      rw [List.length_append, List.length_singleton]
      omega
    simp [List.getElem?_eq_none hlen, List.getElem?_eq_none (Nat.le_of_lt h), Nat.ne_of_gt h]

theorem addsAt_concat : AddsAt fs base (rs ++ [r]) c i ↔
    AddsAt fs base rs c i ∨ (i = rs.length ∧ r.Adds fs base c) := by
  simp only [AddsAt, getElem?_concat_iff]
  constructor
  · rintro ⟨r', hr | ⟨hi, rfl⟩, hadds⟩
    · exact Or.inl ⟨r', hr, hadds⟩
    · exact Or.inr ⟨hi, hadds⟩
  · rintro (⟨r', hr, hadds⟩ | ⟨hi, hadds⟩)
    · exact ⟨r', Or.inl hr, hadds⟩
    · exact ⟨r, Or.inr ⟨hi, rfl⟩, hadds⟩

theorem removesAt_concat : RemovesAt (rs ++ [r]) c i ↔
    RemovesAt rs c i ∨ (i = rs.length ∧ r.Removes c) := by
  simp only [RemovesAt, getElem?_concat_iff]
  constructor
  · rintro ⟨r', hr | ⟨hi, rfl⟩, hremoves⟩
    · exact Or.inl ⟨r', hr, hremoves⟩
    · exact Or.inr ⟨hi, hremoves⟩
  · rintro (⟨r', hr, hremoves⟩ | ⟨hi, hremoves⟩)
    · exact ⟨r', Or.inl hr, hremoves⟩
    · exact ⟨r, Or.inr ⟨hi, rfl⟩, hremoves⟩

/-- A negated rule decides for nothing, and no rule decides for what it takes away. -/
theorem decides_concat_negated (hneg : r.negated = true) :
    Decides fs base (rs ++ [r]) c i ↔ Decides fs base rs c i ∧ r.accepts c = false := by
  have hadds (k : Nat) : AddsAt fs base (rs ++ [r]) c k ↔ AddsAt fs base rs c k := by
    rw [addsAt_concat, or_iff_left]
    rintro ⟨-, h⟩
    rw [h.plain] at hneg
    cases hneg
  constructor
  · rintro ⟨hadd, hlast, hfirst⟩
    have hlt := lt_of_addsAt ((hadds i).mp hadd)
    have hkept : ¬ r.Removes c := fun h => hlast _ hlt (removesAt_concat.mpr (Or.inr ⟨rfl, h⟩))
    refine ⟨⟨(hadds i).mp hadd, ?_, ?_⟩, ?_⟩
    · exact fun j hj h => hlast j hj (removesAt_concat.mpr (Or.inl h))
    · intro k hk hadd'
      obtain ⟨j, hj, hremoves⟩ := hfirst k hk ((hadds k).mpr hadd')
      exact ⟨j, hj, (removesAt_concat.mp hremoves).resolve_right fun h => hkept h.2⟩
    · exact Bool.eq_false_iff.mpr fun h => hkept ⟨hneg, h⟩
  · rintro ⟨⟨hadd, hlast, hfirst⟩, haccepts⟩
    refine ⟨(hadds i).mpr hadd, ?_, ?_⟩
    · intro j hj h
      rcases removesAt_concat.mp h with h | ⟨-, h⟩
      · exact hlast j hj h
      · rw [h.accepted] at haccepts
        cases haccepts
    · intro k hk hadd'
      obtain ⟨j, hj, hremoves⟩ := hfirst k hk ((hadds k).mp hadd')
      exact ⟨j, hj, removesAt_concat.mpr (Or.inl hremoves)⟩

/-- A plain rule decides for what it adds, where no rule decided before. -/
theorem decides_concat_plain (hplain : r.negated = false) : Decides fs base (rs ++ [r]) c i ↔
    Decides fs base rs c i ∨ (i = rs.length ∧ r.Adds fs base c ∧ ¬ ∃ k, Decides fs base rs c k) := by
  have hremoves (j : Nat) : RemovesAt (rs ++ [r]) c j ↔ RemovesAt rs c j := by
    rw [removesAt_concat, or_iff_left]
    rintro ⟨-, h⟩
    rw [h.negated] at hplain
    cases hplain
  constructor
  · rintro ⟨hadd, hlast, hfirst⟩
    simp only [hremoves] at hlast hfirst
    rcases addsAt_concat.mp hadd with hadd | ⟨rfl, hadds⟩
    · exact Or.inl ⟨hadd, hlast, fun k hk h => hfirst k hk (addsAt_concat.mpr (Or.inl h))⟩
    · refine Or.inr ⟨rfl, hadds, ?_⟩
      rintro ⟨k, hk⟩
      obtain ⟨j, hj, h⟩ := hfirst k (lt_of_addsAt hk.adds) (addsAt_concat.mpr (Or.inl hk.adds))
      exact hk.last j hj h
  · rintro (⟨hadd, hlast, hfirst⟩ | ⟨rfl, hadd, hnone⟩)
    · refine ⟨addsAt_concat.mpr (Or.inl hadd), fun j hj => (hremoves j).not.mpr (hlast j hj), ?_⟩
      intro k hk h
      have hlt := Nat.lt_trans hk (lt_of_addsAt hadd)
      obtain ⟨j, hj, h⟩ := hfirst k hk ((addsAt_concat.mp h).resolve_right fun h => Nat.ne_of_lt hlt h.1)
      exact ⟨j, hj, (hremoves j).mpr h⟩
    · refine ⟨addsAt_concat.mpr (Or.inr ⟨rfl, hadd⟩), ?_, ?_⟩
      · intro j hj h
        obtain ⟨r', hr, -⟩ := (hremoves j).mp h
        exact absurd (List.getElem?_eq_some_iff.mp hr).1 (by omega)
      · intro k hk h
        have hadd' := (addsAt_concat.mp h).resolve_right fun h => Nat.ne_of_lt hk h.1
        by_contra hkept
        refine hnone (exists_decides_iff.mpr ⟨k, hadd', fun j hj hr => hkept ⟨j, hj, ?_⟩⟩)
        exact (hremoves j).mpr hr

theorem comesBefore_concat (h : ComesBefore fs base rs c d)
    (hdecides : ∀ e i, e = c ∨ e = d → Decides fs base rs e i → Decides fs base (rs ++ [r]) e i) :
    ComesBefore fs base (rs ++ [r]) c d := by
  obtain ⟨i, j, hi, hj, horder⟩ := h
  refine ⟨i, j, hdecides c i (Or.inl rfl) hi, hdecides d j (Or.inr rfl) hj, horder.imp_right ?_⟩
  rintro ⟨hij, r', hr, hlisted⟩
  exact ⟨hij, r', getElem?_concat_iff.mpr (Or.inl hr), hlisted⟩

end

/-! ## 3. The selected candidates -/

section

variable {l selected new : List String} {p : String → Bool} {c d : String}

/-- Two items that are kept stand in the order in which they stood. -/
theorem idxOf_lt_of_filter (hc : p c = true) (hd : p d = true)
    (h : (l.filter p).idxOf c < (l.filter p).idxOf d) : l.idxOf c < l.idxOf d := by
  induction l with
  | nil => exact h
  | cons x xs ih =>
    by_cases hx : p x = true
    · rw [List.filter_cons_of_pos hx, List.idxOf_cons, List.idxOf_cons] at h
      rw [List.idxOf_cons, List.idxOf_cons]
      cases hxd : x == d with
      | true => simp [hxd] at h
      | false =>
        cases hxc : x == c with
        | true => simp
        | false => simpa using ih (by simpa [hxc, hxd] using h)
    · have hne {e : String} (he : p e = true) : x ≠ e := by
        rintro rfl
        exact hx he
      rw [List.filter_cons_of_neg hx] at h
      rw [List.idxOf_cons_ne _ (hne hc), List.idxOf_cons_ne _ (hne hd)]
      exact Nat.succ_lt_succ (ih h)

/-- **Adding what is not there yet** puts each new item behind the others once, in the order in which they
stand first. -/
theorem exists_addNew_eq (selected new : List String) : ∃ fresh, addNew selected new = selected ++ fresh ∧
    (∀ c, c ∈ fresh ↔ c ∈ new ∧ c ∉ selected) ∧
      fresh.Pairwise fun c d => new.idxOf c < new.idxOf d := by
  induction new generalizing selected with
  | nil => exact ⟨[], by simp [addNew], by simp, List.Pairwise.nil⟩
  | cons x xs ih =>
    have hlater {c d : String} (hc : x ≠ c) (hd : x ≠ d) (h : xs.idxOf c < xs.idxOf d) :
        (x :: xs).idxOf c < (x :: xs).idxOf d := by
      rw [List.idxOf_cons_ne _ hc, List.idxOf_cons_ne _ hd]
      exact Nat.succ_lt_succ h
    by_cases hx : x ∈ selected
    · have hadd : addNew selected (x :: xs) = addNew selected xs := by simp [addNew, hx]
      obtain ⟨fresh, heq, hmem, horder⟩ := ih selected
      have hne {c : String} (hc : c ∈ fresh) : x ≠ c := by
        rintro rfl
        exact ((hmem x).mp hc).2 hx
      refine ⟨fresh, hadd.trans heq, fun c => ?_, ?_⟩
      · rw [hmem, List.mem_cons]
        refine and_congr_left fun hc => (or_iff_right ?_).symm
        rintro rfl
        exact hc hx
      · exact horder.imp_of_mem fun hc hd => hlater (hne hc) (hne hd)
    · have hadd : addNew selected (x :: xs) = addNew (selected ++ [x]) xs := by simp [addNew, hx]
      obtain ⟨fresh, heq, hmem, horder⟩ := ih (selected ++ [x])
      have hne {c : String} (hc : c ∈ fresh) : x ≠ c := by
        rintro rfl
        exact ((hmem x).mp hc).2 (by simp)
      refine ⟨x :: fresh, by rw [hadd, heq, List.append_assoc, List.singleton_append], fun c => ?_, ?_⟩
      · rw [List.mem_cons, hmem, List.mem_cons, List.mem_append, List.mem_singleton]
        by_cases hc : c = x
        · simp [hc, hx]
        · simp [hc]
      · refine List.Pairwise.cons (fun d hd => ?_) (horder.imp_of_mem fun hc hd => hlater (hne hc) (hne hd))
        rw [List.idxOf_cons_self, List.idxOf_cons_ne _ (hne hd)]
        exact Nat.succ_pos _

end

/-- What is selected when rules have been applied: the candidates that some rule decides for, each once, in
the order of these rules. -/
structure Chosen (fs : FileSystem) (base : Path) (rs : List Rule) (selected : List String) : Prop where
  mem : ∀ c, c ∈ selected ↔ ∃ i, Decides fs base rs c i
  nodup : selected.Nodup
  order : selected.Pairwise (ComesBefore fs base rs)

section

variable {fs : FileSystem} {base : Path} {rs : List Rule} {r : Rule} {selected : List String}

theorem Chosen.filter (h : Chosen fs base rs selected) (hneg : r.negated = true) :
    Chosen fs base (rs ++ [r]) (selected.filter fun c => !r.accepts c) where
  mem c := by
    simp only [List.mem_filter, h.mem, decides_concat_negated hneg, Bool.not_eq_true', exists_and_right]
  nodup := h.nodup.filter _
  order := by
    refine (h.order.filter _).imp_of_mem fun hc hd hbefore => comesBefore_concat hbefore ?_
    rintro e i (rfl | rfl) he
    · exact (decides_concat_negated hneg).mpr ⟨he, by simpa using (List.mem_filter.mp hc).2⟩
    · exact (decides_concat_negated hneg).mpr ⟨he, by simpa using (List.mem_filter.mp hd).2⟩

theorem Chosen.addNew (h : Chosen fs base rs selected) (hplain : r.negated = false) :
    Chosen fs base (rs ++ [r])
      (addNew selected ((candidates fs base r.root).filter r.accepts)) := by
  obtain ⟨fresh, heq, hmem, horder⟩ :=
    exists_addNew_eq selected ((candidates fs base r.root).filter r.accepts)
  have hfresh (c : String) : c ∈ fresh ↔ r.Adds fs base c ∧ ¬ ∃ k, Decides fs base rs c k := by
    rw [hmem, h.mem, List.mem_filter]
    exact and_congr_left fun _ =>
      ⟨fun hc => ⟨hplain, hc.1, hc.2⟩, fun hc => ⟨hc.listed, hc.accepted⟩⟩
  have hdecides {c : String} (hc : c ∈ fresh) : Decides fs base (rs ++ [r]) c rs.length :=
    (decides_concat_plain hplain).mpr (Or.inr ⟨rfl, (hfresh c).mp hc⟩)
  rw [heq]
  constructor
  · intro c
    simp only [List.mem_append, h.mem, hfresh, decides_concat_plain hplain, exists_or, exists_eq_left]
  · refine List.nodup_append.mpr ⟨h.nodup, ?_, ?_⟩
    · refine horder.imp fun hlt => ?_
      rintro rfl
      exact Nat.lt_irrefl _ hlt
    · rintro c hc _ hd rfl
      exact ((hmem c).mp hd).2 hc
  · refine List.pairwise_append.mpr ⟨?_, ?_, ?_⟩
    · exact h.order.imp fun hbefore => comesBefore_concat hbefore fun e i _ he =>
        (decides_concat_plain hplain).mpr (Or.inl he)
    · refine horder.imp_of_mem fun hc hd hlt => ?_
      refine ⟨_, _, hdecides hc, hdecides hd, Or.inr ⟨rfl, r, ?_, ?_⟩⟩
      · exact getElem?_concat_iff.mpr (Or.inr ⟨rfl, rfl⟩)
      · exact idxOf_lt_of_filter ((hfresh _).mp hc).1.accepted ((hfresh _).mp hd).1.accepted hlt
    · intro c hc d hd
      obtain ⟨i, hi⟩ := (h.mem c).mp hc
      exact ⟨i, _, (decides_concat_plain hplain).mpr (Or.inl hi), hdecides hd,
        Or.inl (lt_of_addsAt hi.adds)⟩

/-- **One more rule keeps what is selected as the rules decide.** -/
theorem Chosen.apply (h : Chosen fs base rs selected) (r : Rule) :
    Chosen fs base (rs ++ [r]) (Rule.apply fs base selected r) := by
  unfold Rule.apply
  cases hneg : r.negated with
  | true => exact h.filter hneg
  | false => exact h.addNew hneg

end

/-! ## 4. The selected files -/

section

variable {fs : FileSystem} {base : Path} {patterns files : List String} {c d : String}

end

/-- Two files in a directory, and one in a directory below. -/
def nestedTree : FileSystem where
  entries := [
    (["a.ts"], .file (.text "")),
    (["b.ts"], .file (.text "")),
    (["lib"], .directory),
    (["lib", "c.ts"], .file (.text ""))]
  workingDirectory := []
  isPlain := isPlain_nil

end Tsconfig.Glob
