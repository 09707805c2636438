/-
# Listings of a replaced file system

Which files are below a directory when one entry has been replaced by a file.  A listing looks at
entries (`met`) and keeps those that are files (`listFiles_eq`).  A directory still is one
(`kindOf_directory_replaced`), so the same entries are met (`met_replaced`), and a file still is one
(`kindOf_file_replaced`).  So the list is the same one if no entry that is met has become a file
(`listFiles_replaced`).

A link is looked up by its whole path and not from the directory that it was met in.  What ties the
two together is that every walk along the way to a directory passes that directory (`LeadsThrough`).
-/
import Tsconfig.Glob.Selection
import Tsconfig.Proofs.FileSystem.Replaced

namespace Tsconfig.Glob

open FileSystem

/-! ## 1. The entries that a listing meets -/

/-- The entries that are met below a directory, by their ways and locations. -/
def metFrom (fs : FileSystem) (base : Path) :
    Nat → List Location → Way → Location → List (Way × Location)
  | 0, _, _, _ => []
  | depth + 1, passed, way, dir =>
    (fs.namesIn dir).flatMap fun name =>
      let loc := dir ++ [name]
      let way := way ++ [name]
      (way, loc) ::
        match kindOf fs base way loc with
        | .directory target =>
          if (isLink fs loc && passed.contains target) || (pathBelow base way).route.isTooLong then []
          else metFrom fs base depth (target :: passed) way target
        | _ => []

/-- The entries that the listing of a directory meets. -/
def met (fs : FileSystem) (p : Path) : List (Way × Location) :=
  match fs.resolve? p.route with
  | none => []
  | some loc => if fs.isDirectory p.route then metFrom fs p fs.depthBound [loc] [] loc else []

/-- Whether an entry is a file, links followed. -/
def isFileAt (fs : FileSystem) (base : Path) (e : Way × Location) : Bool :=
  kindOf fs base e.1 e.2 = .file

theorem listFrom_eq (fs : FileSystem) (base : Path) (depth : Nat) :
    ∀ passed way dir, listFrom fs base depth passed way dir =
      ((metFrom fs base depth passed way dir).filter (isFileAt fs base)).map Prod.fst := by
  induction depth with
  | zero => intro _ _ _; rfl
  | succ depth ih =>
    intro passed way dir
    rw [listFrom, metFrom, List.filter_flatMap, List.map_flatMap]
    congr 1
    funext name
    cases hk : kindOf fs base (way ++ [name]) (dir ++ [name]) with
    | file => simp [isFileAt, hk]
    | other => simp [isFileAt, hk]
    | directory target =>
      simp only [hk, List.filter_cons, isFileAt, reduceCtorEq, decide_false, Bool.false_eq_true,
        if_false]
      split
      · rfl
      · exact ih _ _ _

/-- **The listed files are the entries met that are files.** -/
theorem listFiles_eq (fs : FileSystem) (p : Path) :
    listFiles fs p = ((met fs p).filter (isFileAt fs p)).map Prod.fst := by
  unfold listFiles met
  cases fs.resolve? p.route with
  | none => rfl
  | some loc =>
    simp only
    split
    · exact listFrom_eq fs p _ _ _ _
    · rfl

/-! ## 2. What an entry is -/

section

variable {fs fs' : FileSystem} {D : Location} {name : WrittenPath} {c : Contents} {base : Path}
  {way : Way} {loc : Location}

theorem kindOf_eq_directory {t : Location} : kindOf fs base way loc = .directory t ↔
    (fs.get? loc = some .directory ∧ loc = t) ∨
      ((∃ target, fs.get? loc = some (.link target)) ∧
        fs.resolve? (pathBelow base way).route = some t ∧ fs.get? t = some .directory) := by
  unfold kindOf
  cases hx : fs.get? loc with
  | none => simp
  | some x =>
    cases x with
    | file c => simp
    | directory => simp
    | link target =>
      cases hr : fs.resolve? (pathBelow base way).route with
      | none => simp
      | some t' =>
        by_cases htt : t' = t
        · subst htt
          cases hy : fs.get? t' with
          | none => simp [hy]
          | some y => cases y <;> simp [hy]
        · cases hy : fs.get? t' with
          | none => simp [hy, htt]
          | some y => cases y <;> simp [hy, htt]

theorem kindOf_eq_file : kindOf fs base way loc = .file ↔
    fs.HoldsFile loc ∨ ((∃ target, fs.get? loc = some (.link target)) ∧
      ∃ t, fs.resolve? (pathBelow base way).route = some t ∧ fs.HoldsFile t) := by
  unfold kindOf HoldsFile
  cases hx : fs.get? loc with
  | none => simp
  | some x =>
    cases x with
    | file c => simp
    | directory => simp
    | link target =>
      cases hr : fs.resolve? (pathBelow base way).route with
      | none => simp
      | some t =>
        cases hy : fs.get? t with
        | none => simp [hy]
        | some y => cases y <;> simp [hy]

/-- Every walk along the way to a directory, and beyond, passes the directory. -/
def LeadsThrough (fs : FileSystem) (base : Path) (way : Way) (dir : Location) : Prop :=
  ∀ n rest slash e, rest ≠ [] →
    fs.Reaches n (fs.origin base.route) ((pathBelow base way).route.steps ++ rest) slash e →
      ∃ m, fs.Reaches m dir rest slash e

theorem steps_pathBelow_concat (base : Path) (way : Way) (other : WrittenPath) :
    (pathBelow base (way ++ [other])).route.steps =
      (pathBelow base way).route.steps ++ [.into other] := by
  simp [pathBelow, Path.route]

theorem leadsThrough_of_resolve? {dir : Location}
    (h : fs.resolve? (pathBelow base way).route = some dir) : LeadsThrough fs base way dir := by
  intro n rest slash e hne hr
  obtain ⟨m, _, d, _, hfront, hlast⟩ := hr.split hne
  have hdir := (resolve?_eq_some.mp h).2
  obtain rfl : d = dir := (hfront false).unique hdir
  exact ⟨m, hlast⟩

/-- A directory that is entered is passed by the walks beyond it. -/
theorem LeadsThrough.enter {dir target : Location} {other : WrittenPath}
    (h : LeadsThrough fs base way dir)
    (hk : kindOf fs base (way ++ [other]) (dir ++ [other]) = .directory target) :
    LeadsThrough fs base (way ++ [other]) target := by
  rcases kindOf_eq_directory.mp hk with ⟨hd, rfl⟩ | ⟨_, hr, _⟩
  · intro n rest slash e hne hreach
    rw [steps_pathBelow_concat, List.append_assoc] at hreach
    obtain ⟨m, hm⟩ := h n _ slash e (by simp) hreach
    cases hm with
    | into _ _ _ _ hrest => exact ⟨m, hrest⟩
    | link _ _ hx _ _ => simp [hd] at hx
  · exact leadsThrough_of_resolve? hr

variable (h : Replaces fs fs' D name c)
include h

/-- **A directory stays what it is.** -/
theorem kindOf_directory_replaced {t : Location}
    (hway : loc = D ++ [name] → ∀ t, fs.resolve? (pathBelow base way).route = some t →
      fs.HoldsFile t) :
    kindOf fs' base way loc = .directory t ↔ kindOf fs base way loc = .directory t := by
  rw [kindOf_eq_directory, kindOf_eq_directory, h.directory]
  by_cases hl : loc = D ++ [name]
  · subst hl
    have hnot : ¬ (fs.resolve? (pathBelow base way).route = some t ∧
        fs.get? t = some .directory) := fun ⟨hr, ht⟩ => (hway rfl t hr).not_directory ht
    simp [h.replaced.file, h.notDirectory, hnot]
  · rw [h.replaced.elsewhere loc hl]

theorem kindOf_file_replaced (hk : kindOf fs base way loc = .file) :
    kindOf fs' base way loc = .file := by
  rw [kindOf_eq_file] at hk ⊢
  by_cases hl : loc = D ++ [name]
  · exact .inl ⟨c, hl ▸ h.replaced.file⟩
  · rcases hk with hf | ⟨⟨target, hx⟩, t, hr, ht⟩
    · exact .inl (h.holdsFile hf)
    · refine .inr ⟨⟨target, by rw [h.replaced.elsewhere loc hl, hx]⟩, ?_⟩
      rcases h.resolve? hr with hr' | ⟨_, hr'⟩
      · exact ⟨t, hr', h.holdsFile ht⟩
      · exact ⟨_, hr', c, h.replaced.file⟩

/-- A file that is replaced by a file was a file before. -/
theorem kindOf_file_of_holdsFile (hspot : fs.HoldsFile (D ++ [name]))
    (hk : kindOf fs' base way loc = .file) : kindOf fs base way loc = .file := by
  have hold {e : Location} (he : fs'.HoldsFile e) : fs.HoldsFile e := by
    by_cases hl : e = D ++ [name]
    · exact hl ▸ hspot
    · obtain ⟨c', hc'⟩ := he
      exact ⟨c', by rw [← h.replaced.elsewhere e hl, hc']⟩
  rw [kindOf_eq_file] at hk ⊢
  rcases hk with hf | ⟨⟨target, hx⟩, t, hr, ht⟩
  · exact .inl (hold hf)
  · have hl : loc ≠ D ++ [name] := by
      rintro rfl
      simp [h.replaced.file] at hx
    exact .inr ⟨⟨target, by rw [← h.replaced.elsewhere loc hl, hx]⟩, t,
      h.of_resolve? hr fun _ => hspot, hold ht⟩

/-! ## 3. Listings -/

/-- The entries that a listing meets have not become files. -/
def NoNewFile (fs fs' : FileSystem) (p : Path) : Prop :=
  ∀ e ∈ met fs p, isFileAt fs' p e = true → isFileAt fs p e = true

variable (hloc : fs'.entries.map Prod.fst = fs.entries.map Prod.fst)
include hloc

omit h in
theorem namesIn_eq (dir : Location) : fs'.namesIn dir = fs.namesIn dir := by
  have hnames (fs : FileSystem) : fs.namesIn dir =
      sortNames ((fs.entries.map Prod.fst).filterMap (nameIn? dir)) := by
    rw [namesIn, List.filterMap_map]
    rfl
  rw [hnames, hnames, hloc]

omit h in
theorem depthBound_eq : fs'.depthBound = fs.depthBound := by
  have hheight (fs : FileSystem) :
      fs.height = ((fs.entries.map Prod.fst).map List.length).foldl max 0 := by
    rw [height, List.map_map]
    rfl
  rw [depthBound, depthBound, hheight, hheight, hloc]

theorem metFrom_replaced (depth : Nat) : ∀ passed way dir, LeadsThrough fs base way dir →
    metFrom fs' base depth passed way dir = metFrom fs base depth passed way dir := by
  induction depth with
  | zero => intro _ _ _ _; rfl
  | succ depth ih =>
    intro passed way dir hthrough
    rw [metFrom, metFrom, namesIn_eq hloc, List.flatMap_def, List.flatMap_def]
    refine congrArg List.flatten (List.map_congr_left fun other hother => ?_)
    have hway : dir ++ [other] = D ++ [name] → ∀ t,
        fs.resolve? (pathBelow base (way ++ [other])).route = some t → fs.HoldsFile t := by
      intro heq t hr
      obtain ⟨_, hreach⟩ := resolve?_eq_some.mp hr
      rw [steps_pathBelow_concat] at hreach
      obtain ⟨m, hm⟩ := hthrough _ _ _ _ (by simp) hreach
      obtain ⟨rfl, hlast⟩ := List.append_inj' heq rfl
      obtain rfl : other = name := by simpa using hlast
      exact h.leads m _ t hm
    have hkind {t : Location} := @kindOf_directory_replaced _ _ _ _ _ _ _ _ h t hway
    refine congrArg _ ?_
    cases hk : kindOf fs base (way ++ [other]) (dir ++ [other]) with
    | directory target =>
      have hk' := hkind.mpr hk
      have hlink : isLink fs' (dir ++ [other]) = isLink fs (dir ++ [other]) := by
        have hne : dir ++ [other] ≠ D ++ [name] := by
          intro heq
          have hfile : kindOf fs' base (way ++ [other]) (dir ++ [other]) = .file :=
            kindOf_eq_file.mpr (.inl ⟨c, heq ▸ h.replaced.file⟩)
          simp [hk'] at hfile
        rw [isLink, isLink, h.replaced.elsewhere _ hne]
      simp only [hk', hlink, ih _ _ _ (hthrough.enter hk)]
    | file =>
      cases hk' : kindOf fs' base (way ++ [other]) (dir ++ [other]) with
      | directory t => simp [hkind.mp hk'] at hk
      | file => rfl
      | other => rfl
    | other =>
      cases hk' : kindOf fs' base (way ++ [other]) (dir ++ [other]) with
      | directory t => simp [hkind.mp hk'] at hk
      | file => rfl
      | other => rfl

/-- **A listing meets the same entries.** -/
theorem met_replaced (p : Path) : met fs' p = met fs p := by
  unfold met
  rw [h.isDirectory]
  cases hd : fs.isDirectory p.route with
  | false => cases fs.resolve? p.route <;> cases fs'.resolve? p.route <;> simp
  | true =>
    obtain ⟨loc, hr, hdir⟩ := isDirectory_iff.mp hd
    obtain ⟨hr', _⟩ := h.directory.mpr ⟨hr, hdir⟩
    have hpath : pathBelow p [] = p := by simp [pathBelow]
    have hthrough : LeadsThrough fs p [] loc := leadsThrough_of_resolve? (by rw [hpath, hr])
    simp only [hr, hr', if_true, depthBound_eq hloc, metFrom_replaced h hloc _ _ _ _ hthrough]

/-- **A listing stays what it is unless an entry that it meets has become a file.** -/
theorem listFiles_replaced {p : Path} (hmet : NoNewFile fs fs' p) :
    listFiles fs' p = listFiles fs p := by
  rw [listFiles_eq, listFiles_eq, met_replaced h hloc]
  refine congrArg _ (List.filter_congr fun e he => ?_)
  rw [Bool.eq_iff_iff]
  refine ⟨hmet e he, fun hfile => ?_⟩
  have hk : kindOf fs p e.1 e.2 = .file := of_decide_eq_true hfile
  exact decide_eq_true (kindOf_file_replaced h hk)

/-- The roots of the rules that select files. -/
def rootsOf (rs : List Rule) : List String := (rs.filter fun r => !r.negated).map Rule.root

/-- The roots of the patterns that select files. -/
def roots (patterns : List String) : List String :=
  match rules patterns with
  | .error _ => []
  | .ok rs => rootsOf rs

theorem foldl_apply_replaced {dir : Path} (rs : List Rule)
    (hmet : ∀ root ∈ rootsOf rs, NoNewFile fs fs' (dir.resolve root)) (selected : List String) :
    rs.foldl (Rule.apply fs' dir) selected = rs.foldl (Rule.apply fs dir) selected := by
  induction rs generalizing selected with
  | nil => rw [List.foldl_nil, List.foldl_nil]
  | cons r rs ih =>
    have happly : Rule.apply fs' dir selected r = Rule.apply fs dir selected r := by
      unfold Rule.apply
      cases hneg : r.negated with
      | true => simp
      | false =>
        have hroot : NoNewFile fs fs' (dir.resolve r.root) :=
          hmet r.root (by simp [rootsOf, hneg])
        simp only [Bool.false_eq_true, if_false, candidates, listFiles_replaced h hloc hroot]
    rw [List.foldl_cons, List.foldl_cons, happly]
    refine ih (fun root hmem => hmet root ?_) _
    obtain ⟨r', hr', rfl⟩ := List.mem_map.mp hmem
    obtain ⟨hin, hneg⟩ := List.mem_filter.mp hr'
    exact List.mem_map_of_mem (List.mem_filter.mpr ⟨List.mem_cons_of_mem r hin, hneg⟩)

/-- **Patterns select the same files** unless an entry met below a root of theirs has become a
file. -/
theorem expand_replaced {dir : Path} {patterns : List String}
    (hmet : ∀ root ∈ roots patterns, NoNewFile fs fs' (dir.resolve root)) :
    expand fs' dir patterns = expand fs dir patterns := by
  cases hrules : rules patterns with
  | error e => simp only [expand, hrules]
  | ok rs =>
    have hroots : roots patterns = rootsOf rs := by simp only [roots, hrules]
    rw [hroots] at hmet
    simp only [expand, hrules, foldl_apply_replaced h hloc rs hmet]

end

end Tsconfig.Glob
