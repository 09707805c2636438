/-
# What a pattern begins with

A pattern is read character by character, and each step adds a token, opens, continues or closes
alternatives, or puts a tree in place of a slash.  What every such step keeps (`Kept`) is kept by the reading
of a whole text (`Kept.read`).

One thing that is kept is how the tokens outside of all alternatives begin, as long as a slash, or a tree in
its place, stands behind the beginning (`kept_beginsWith`).  Leading characters that are no glob characters
are read as themselves (`read_fixed`).  So **what a pattern accepts begins with the characters that the
pattern has in front of a slash, if these are no glob characters** (`exists_of_accepts`).
-/
import Tsconfig.Proofs.Glob.Matching

namespace Tsconfig.Glob

/-! ## 1. What reading keeps -/

/-- A property of states that every step of the reading keeps. -/
structure Kept (P : State → Prop) : Prop where
  push : ∀ {s}, P s → ∀ t, P (s.push t)
  reading : ∀ {s}, P s → ∀ c, P (s.reading c)
  openGroup : ∀ {s}, P s → P s.openGroup
  nextBranch : ∀ {s}, P s → P s.nextBranch
  closeGroup : ∀ {s s'}, P s → s.closeGroup = .ok s' → P s'
  pushTree : ∀ {s}, P s → ∀ t, t = .tree ∨ t = .treeEnd → P (s.pushTree t)

namespace Kept

variable {P : State → Prop} {s s' : State}

theorem pushStars (h : Kept P) (hs : P s) : P s.pushStars := h.push (h.push hs _) _

theorem starsSlash (h : Kept P) (hs : P s) : P s.starsSlash := by
  unfold State.starsSlash
  split
  · exact h.push hs _
  · split
    · exact h.pushTree hs _ (Or.inl rfl)
    · exact h.push (h.pushStars hs) _

theorem stars (h : Kept P) (hs : P s) (next : Option Char) : P (s.stars next) := by
  unfold State.stars
  split
  · cases next with
    | none => exact h.push hs _
    | some c => exact h.pushStars hs
  · split
    · cases next with
      | none => exact h.pushTree hs _ (Or.inr rfl)
      | some c =>
        simp only
        split
        · exact h.pushTree hs _ (Or.inr rfl)
        · exact h.pushStars hs
    · exact h.pushStars hs

/-- **What every step keeps is kept by the reading of a text.** -/
theorem read (h : Kept P) {cs : List Char} (hs : P s) (hread : read s cs = .ok s') : P s' := by
  -- A class adds its token where it is closed; until then the state stays.
  induction s, cs using read.induct
    (motive_2 := fun s c cs => P s → readClass s c cs = .ok s' → P s') with
  | case1 s =>
    rw [Glob.read] at hread
    exact Except.ok.inj hread ▸ hs
  | case2 s rest ih =>
    rw [Glob.read] at hread
    exact ih (h.reading (h.push hs _) _) hread
  | case3 s rest ih | case4 s rest ih =>
    rw [Glob.read] at hread
    exact ih hs hread
  | case5 s rest hbang hcaret ih =>
    rw [Glob.read] at hread
    · exact ih hs hread
    · exact hbang
    · exact hcaret
  | case6 s rest ih =>
    rw [Glob.read] at hread
    exact ih (h.reading (h.openGroup hs) _) hread
  | case7 s rest e hclose =>
    rw [Glob.read, hclose] at hread
    cases hread
  | case8 s rest s₁ hclose ih =>
    rw [Glob.read, hclose] at hread
    exact ih (h.reading (h.closeGroup hs hclose) _) hread
  | case9 s rest ih =>
    rw [Glob.read] at hread
    exact ih (h.reading (h.nextBranch hs) _) hread
  | case10 s =>
    rw [Glob.read] at hread
    cases hread
  | case11 s c rest ih =>
    rw [Glob.read] at hread
    exact ih (h.reading (h.push hs _) _) hread
  | case12 s rest ih =>
    rw [Glob.read] at hread
    exact ih (h.reading (h.starsSlash hs) _) hread
  | case13 s rest hslash ih =>
    rw [Glob.read] at hread
    · exact ih (h.reading (h.stars hs _) _) hread
    · exact hslash
  | case14 s rest hslash hstar ih =>
    rw [Glob.read] at hread
    · exact ih (h.reading (h.push hs _) _) hread
    · exact hslash
    · exact hstar
  | case15 s c rest _ _ _ _ _ _ _ _ _ _ _ _ ih =>
    rw [Glob.read] at hread
    · exact ih (h.reading (h.push hs _) _) hread
    all_goals assumption
  | case16 s c hs hread =>
    rw [readClass] at hread
    cases hread
  | case17 s c x rest hclose ih hs hread =>
    rw [readClass, if_pos hclose] at hread
    exact ih (h.reading (h.push hs _) _) hread
  | case18 s c x rest hclose e htake hs hread =>
    rw [readClass, if_neg hclose, htake] at hread
    cases hread
  | case19 s c x rest hclose c' htake ih hs hread =>
    rw [readClass, if_neg hclose, htake] at hread
    exact ih hs hread

end Kept

/-! ## 2. How the tokens begin -/

/-- The tokens that are read outside of all alternatives. -/
def State.outermost (s : State) : List Token := ((s.groups.getLast?).map Group.before).getD s.tokens

/-- Tokens begin with the characters of a root and a slash, or a tree in its place. -/
def BeginsWith (root : List Char) (ts : List Token) : Prop :=
  ∃ t more, (t = .literal '/' ∨ t = .tree ∨ t = .treeEnd) ∧ ts = root.map .literal ++ t :: more

section

variable {root : List Char} {ts : List Token} {s s' : State}

theorem State.outermost_of_nil (h : s.groups = []) : s.outermost = s.tokens := by
  rw [outermost, h]
  rfl

/-- Inside of alternatives, what is done to the innermost ones shows outside if they are the only ones. -/
theorem State.outermost_of_cons {g : Group} {gs : List Group} (h : s.groups = g :: gs) :
    s.outermost = ((gs.getLast?).map Group.before).getD g.before := by
  rw [outermost, h]
  cases gs with
  | nil => rfl
  | cons g' gs => simp [List.getLast?_cons]

theorem BeginsWith.append (h : BeginsWith root ts) (more : List Token) :
    BeginsWith root (ts ++ more) := by
  obtain ⟨t, more', ht, rfl⟩ := h
  exact ⟨t, more' ++ more, ht, by simp⟩

/-- A tree in place of the last token is behind the root, or where the slash behind it was. -/
theorem BeginsWith.dropLast (h : BeginsWith root ts) {t : Token} (ht : t = .tree ∨ t = .treeEnd) :
    BeginsWith root (ts.dropLast ++ [t]) := by
  obtain ⟨t', more, ht', rfl⟩ := h
  rw [List.dropLast_append_cons]
  cases more with
  | nil => exact ⟨t, [], Or.inr ht, by simp⟩
  | cons t'' more => exact ⟨t', (t'' :: more).dropLast ++ [t], ht', by simp⟩

/-- **Reading keeps how the tokens begin.** -/
theorem kept_beginsWith (root : List Char) : Kept fun s => BeginsWith root s.outermost where
  push {s} hs t := by
    cases hg : s.groups with
    | nil =>
      rw [State.outermost_of_nil hg] at hs
      rw [State.outermost_of_nil (s := s.push t) hg]
      exact hs.append [t]
    | cons g gs =>
      rw [State.outermost_of_cons hg] at hs
      rwa [State.outermost_of_cons (s := s.push t) hg]
  reading hs _ := hs
  openGroup {s} hs := by
    rwa [State.outermost_of_cons (s := s.openGroup) rfl]
  nextBranch {s} hs := by
    unfold State.nextBranch
    split
    · next hg =>
      rw [State.outermost_of_nil hg] at hs
      rw [State.outermost_of_nil (s := s.push _) hg]
      exact hs.append _
    · next g gs hg =>
      rw [State.outermost_of_cons hg] at hs
      rwa [State.outermost_of_cons rfl]
  closeGroup {s s'} hs hclose := by
    unfold State.closeGroup at hclose
    split at hclose
    · cases hclose
    · next g gs hg =>
      obtain rfl := Except.ok.inj hclose
      rw [State.outermost_of_cons hg] at hs
      cases gs with
      | nil => exact hs.append _
      | cons g' gs => simpa [State.outermost, List.getLast?_cons] using hs
  pushTree {s} hs t ht := by
    unfold State.pushTree
    split
    · exact hs
    · exact hs
    · cases hg : s.groups with
      | nil =>
        rw [State.outermost_of_nil hg] at hs
        rw [State.outermost_of_nil rfl]
        exact hs.dropLast ht
      | cons g gs =>
        rw [State.outermost_of_cons hg] at hs
        rwa [State.outermost_of_cons rfl]

end

/-! ## 3. Characters that are read as themselves -/

/-- A character that does not mean anything else outside of alternatives. -/
def isFixed (c : Char) : Bool := c ≠ '*' && c ≠ '?' && c ≠ '[' && c ≠ '\x7b' && c ≠ '\\'

theorem read_cons_of_isFixed {s s' : State} (hg : s.groups = []) {c : Char} (hc : isFixed c = true)
    {rest : List Char} (hread : read s (c :: rest) = .ok s') :
    read ((s.push (.literal c)).reading c) rest = .ok s' := by
  simp only [isFixed, Bool.and_eq_true, decide_eq_true_eq] at hc
  obtain ⟨⟨⟨⟨hstar, hany⟩, hclass⟩, hopen⟩, hescape⟩ := hc
  -- A closing brace is refused where nothing is open, and a comma is itself there.
  by_cases hclose : c = '\x7d'
  · subst hclose
    rw [read, State.closeGroup, hg] at hread
    cases hread
  · by_cases hcomma : c = ','
    · subst hcomma
      rw [read, State.nextBranch, hg] at hread
      exact hread
    · rw [read] at hread
      · exact hread
      all_goals simp [hstar, hany, hclass, hopen, hescape, hclose, hcomma]

/-- **Characters in front are read as themselves.** -/
theorem read_fixed {cs rest : List Char} (hcs : ∀ c ∈ cs, isFixed c = true) {s s' : State}
    (hg : s.groups = []) (hread : read s (cs ++ rest) = .ok s') :
    ∃ s₁, s₁.groups = [] ∧ s₁.tokens = s.tokens ++ cs.map .literal ∧ read s₁ rest = .ok s' := by
  induction cs generalizing s with
  | nil => exact ⟨s, hg, by simp, hread⟩
  | cons c cs ih =>
    have hone := read_cons_of_isFixed hg (hcs c List.mem_cons_self) hread
    obtain ⟨s₁, hg₁, htokens, hrest⟩ :=
      ih (fun d hd => hcs d (List.mem_cons_of_mem c hd)) (s := (s.push (.literal c)).reading c) hg hone
    refine ⟨s₁, hg₁, ?_, hrest⟩
    rw [htokens, State.reading, State.push, List.append_assoc, List.map_cons, List.singleton_append]

/-! ## 4. What a pattern accepts begins as the pattern does -/

section

variable {root : List Char} {p : Pattern} {body text : String}

theorem BeginsWith.exists_of_leaves (h : BeginsWith root p) {s rest : List UInt8}
    (hs : Leaves p s rest) : ∃ v, s = root.flatMap bytesOf ++ slash :: v := by
  obtain ⟨t, more, ht, rfl⟩ := h
  obtain ⟨m, hroot, hmore⟩ := leaves_append.mp hs
  rw [leaves_literals] at hroot
  obtain ⟨m', ht', -⟩ := leaves_cons.mp hmore
  have hslash : ∃ v, m = slash :: v := by
    rcases ht with rfl | rfl | rfl
    · exact ⟨m', mem_afterBytes.mp ht'⟩
    all_goals
      obtain ⟨v, hv, -⟩ := List.mem_flatMap.mp ht'
      exact ⟨v, mem_afterBytes.mp hv⟩
  obtain ⟨v, rfl⟩ := hslash
  exact ⟨v, hroot⟩

theorem BeginsWith.not_isEverything (h : BeginsWith root p) : isEverything p = false := by
  obtain ⟨t, more, ht, rfl⟩ := h
  cases root with
  | nil => rcases ht with rfl | rfl | rfl <;> rfl
  | cons c root => rfl

variable {back : List Char}

/-- **A pattern begins with what it has in front of a slash**, if these are no glob characters. -/
theorem beginsWith_of_parse (hparse : parse body = .ok p) (hbody : body.toList = root ++ '/' :: back)
    (hroot : ∀ c ∈ root, isFixed c = true) : BeginsWith root p := by
  unfold parse at hparse
  cases hread : read {} body.toList with
  | error e => simp [hread] at hparse
  | ok s =>
    have hfront : body.toList = (root ++ ['/']) ++ back := by simp [hbody]
    have hfixed : ∀ c ∈ root ++ ['/'], isFixed c = true := by
      intro c hc
      rcases List.mem_append.mp hc with hc | hc
      · exact hroot c hc
      · exact List.mem_singleton.mp hc ▸ rfl
    rw [hfront] at hread
    obtain ⟨s₁, hg, htokens, hrest⟩ := read_fixed hfixed rfl hread
    have hbegins : BeginsWith root s₁.outermost := by
      rw [State.outermost_of_nil hg, htokens]
      exact ⟨.literal '/', [], Or.inl rfl, by simp⟩
    have hend := (kept_beginsWith root).read hbegins hrest
    simp only [hread, hfront] at hparse
    split at hparse
    · next hgroups =>
      rw [State.outermost_of_nil (List.isEmpty_iff.mp hgroups)] at hend
      exact Except.ok.inj hparse ▸ hend
    · cases hparse

/-- **What a pattern accepts begins as the pattern does**, up to a slash behind characters that are no glob
characters. -/
theorem exists_of_accepts (hparse : parse body = .ok p) (hbody : body.toList = root ++ '/' :: back)
    (hroot : ∀ c ∈ root, isFixed c = true) (haccepts : accepts p text = true) :
    ∃ rest, text.toList = root ++ '/' :: rest := by
  have hbegins := beginsWith_of_parse hparse hbody hroot
  have hleaves : Leaves p (textBytes text) [] :=
    (accepts_iff.mp haccepts).resolve_left (by simp [hbegins.not_isEverything])
  obtain ⟨v, hv⟩ := hbegins.exists_of_leaves hleaves
  obtain ⟨rest, hrest, -⟩ := exists_eq_append_slash hv
  exact ⟨rest, hrest⟩

end

end Tsconfig.Glob
