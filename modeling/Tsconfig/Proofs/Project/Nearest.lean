/-
# The nearest file of a name

A file of a name is looked for in a directory, then in the one above it, and so on to the root
(`Climbs`).  The paths that are looked into are the start and the paths above it (`Path.IsAbove`); where a
check fails, what is left are those above the parent (`Path.isAbove_iff`).  So the search stops at the
**deepest directory with the file** (`Nearest`), or there is none (`Climbs.nearest`, `Climbs.none`), and each
check but the last is paid for by a name of the start (`Climbs.length`).

A directory of the name is no file, and neither is a link that leads to none.
-/
import Mathlib.Data.List.Infix
import Tsconfig.Project.Loader
import Tsconfig.Proofs.FileSystem.Replaced
import Tsconfig.Proofs.Project.Location

namespace Tsconfig

/-! ## 1. The paths above a path -/

namespace Path

/-- A path is the other one or lies above it. -/
structure IsAbove (d p : Path) : Prop where
  rooted : d.rooted = p.rooted
  names : d.names <+: p.names

section

variable {d p : Path}

theorem IsAbove.refl (p : Path) : p.IsAbove p := ⟨rfl, List.prefix_rfl⟩

theorem IsAbove.isPlain (h : d.IsAbove p) (hp : p.IsPlain) : d.IsPlain :=
  ⟨h.rooted.trans hp.rooted, fun name hmem => hp.isName name (h.names.subset hmem)⟩

theorem length_parent (h : p.names ≠ []) : p.parent.names.length + 1 = p.names.length := by
  rw [parent, List.length_dropLast]
  exact Nat.sub_add_cancel (List.length_pos_iff.mpr h)

/-- **What is above a path is the path or above its parent.** -/
theorem isAbove_iff : d.IsAbove p ↔ d = p ∨ (p.names ≠ [] ∧ d.IsAbove p.parent) := by
  constructor
  · rintro ⟨hrooted, hnames⟩
    by_cases hsame : d.names = p.names
    · exact .inl (by cases d; cases p; simp_all)
    · have hne : p.names ≠ [] := by
        intro hnil
        rw [hnil, List.prefix_nil] at hnames
        exact hsame (hnames.trans hnil.symm)
      rw [← List.dropLast_concat_getLast hne, List.prefix_concat_iff,
        List.dropLast_concat_getLast hne] at hnames
      exact .inr ⟨hne, hrooted, hnames.resolve_left hsame⟩
  · rintro (rfl | ⟨_, habove⟩)
    · exact .refl d
    · exact ⟨habove.rooted, habove.names.trans (List.dropLast_prefix p.names)⟩

/-- Putting a name behind what is written is putting it behind the path. -/
theorem join_written (h : p.IsPlain) {name : WrittenPath} (hn : Route.isName name = true) :
    WrittenPath.join p.written name = (p.child name).written := by
  have hhead : name.toList.head? ≠ some (.char '/') := fun hslash =>
    Route.not_mem_of_isName hn (List.mem_of_mem_head? hslash)
  by_cases hnil : p.names = []
  · have htext : p.written = "/" := by
      rw [written_of_rooted h.rooted, hnil]
      rfl
    rw [written_child h.rooted, front, if_pos hnil, WrittenPath.join, if_neg hhead, htext,
      if_pos (by decide)]
  · rw [written_child_of_ne_nil h.rooted hnil, WrittenPath.join, if_neg hhead, if_neg]
    obtain ⟨hempty, _, _, hslash⟩ := Route.isName_iff.mp (h.isName _ (List.getLast_mem hnil))
    have hends := getLast?_written_ne h.rooted hnil hempty hslash
    have hne : p.written ≠ "" := by simp [← WrittenPath.toList_inj, toList_written h.rooted]
    simp [hne, hends]

end

end Path

namespace FileSystem

/-- The paths above a path, one by one. -/
theorem ancestors_eq (p : Path) :
    ancestors p = p :: if p.names = [] then [] else ancestors p.parent := by
  have htake : { p with names := p.names.take (p.names.length - 0) } = p := by
    rw [Nat.sub_zero, List.take_length]
  rw [ancestors, List.range_succ_eq_map, List.map_cons, htake, List.map_map]
  congr 1
  split
  · next hnil => simp [hnil]
  · next hne =>
    rw [ancestors, Path.length_parent hne]
    refine List.map_congr_left fun n _ => ?_
    simp only [Function.comp_apply, Path.parent, List.dropLast_eq_take, List.take_take,
      List.length_take]
    congr 2
    omega

end FileSystem

/-! ## 2. The search -/

namespace Loader

open FileSystem

/-- The name leads to a file in a directory, links followed. -/
def HasFile (fs : FileSystem) (name : WrittenPath) (d : Path) : Prop :=
  ∃ loc, fs.resolve? (d.child name).route = some loc ∧ fs.HoldsFile loc

/-- The search turn by turn: how many directories are checked, and where the file is. -/
inductive Climbs (fs : FileSystem) (name : WrittenPath) : Path → Nat → Option Path → Prop
  | found {p : Path} (h : HasFile fs name p) : Climbs fs name p 1 (some p)
  | top {p : Path} (h : ¬ HasFile fs name p) (hroot : p.names = []) : Climbs fs name p 1 none
  | up {p : Path} {n : Nat} {r : Option Path} (h : ¬ HasFile fs name p) (hroot : p.names ≠ [])
      (hrest : Climbs fs name p.parent n r) : Climbs fs name p (n + 1) r

/-- The deepest directory with the file, of a path and the paths above it. -/
structure Nearest (fs : FileSystem) (name : WrittenPath) (p d : Path) : Prop where
  above : d.IsAbove p
  file : HasFile fs name d
  deepest : ∀ q : Path, q.IsAbove p → HasFile fs name q → q.IsAbove d

section

variable {fs : FileSystem} {name : WrittenPath} {p d : Path} {n : Nat} {r : Option Path}

theorem Climbs.nearest (h : Climbs fs name p n (some d)) : Nearest fs name p d := by
  generalize hr : some d = r at h
  induction h with
  | found hfile =>
    obtain rfl := Option.some.inj hr
    exact ⟨.refl d, hfile, fun q hq _ => hq⟩
  | top => simp at hr
  | up hno hroot _ ih =>
    obtain ⟨habove, hfile, hdeepest⟩ := ih hr
    refine ⟨Path.isAbove_iff.mpr (.inr ⟨hroot, habove⟩), hfile, fun q hq hqfile => ?_⟩
    rcases Path.isAbove_iff.mp hq with rfl | ⟨_, hq⟩
    · exact absurd hqfile hno
    · exact hdeepest q hq hqfile

theorem Climbs.none (h : Climbs fs name p n none) : ∀ d : Path, d.IsAbove p → ¬ HasFile fs name d := by
  generalize hr : (Option.none : Option Path) = r at h
  induction h with
  | found => simp at hr
  | top hno hroot =>
    intro d hd
    rcases Path.isAbove_iff.mp hd with rfl | ⟨hne, _⟩
    · exact hno
    · exact absurd hroot hne
  | up hno hroot _ ih =>
    intro d hd
    rcases Path.isAbove_iff.mp hd with rfl | ⟨_, hd⟩
    · exact hno
    · exact ih hr d hd

/-- **A check for each name that is left behind, and one more.** -/
theorem Climbs.length (h : Climbs fs name p n r) :
    n + (r.elim 0 fun d => d.names.length) = p.names.length + 1 := by
  induction h with
  | found => simp [Nat.add_comm]
  | top _ hroot => simp [hroot]
  | @up p n r _ hroot _ ih =>
    have := Path.length_parent hroot
    omega

/-- The deepest directory is the only one. -/
theorem Nearest.unique {d' : Path} (h : Nearest fs name p d) (h' : Nearest fs name p d') : d = d' := by
  obtain ⟨hrooted, hnames⟩ := h'.deepest d h.above h.file
  have hback := (h.deepest d' h'.above h'.file).names
  have hsame : d.names = d'.names := hnames.eq_of_length (hnames.length_le.antisymm hback.length_le)
  cases d
  cases d'
  simp_all

/-! ## 3. What is found -/

variable (hn : Route.isName name = true)
include hn

variable (fs) in
theorem isFile_append_parse_iff (hp : p.IsPlain) :
    fs.isFile (p.route.append (Route.parse name)) = true ↔ HasFile fs name p := by
  rw [Path.append_parse hp hn, isFile_iff, HasFile]

variable (fs) in
/-- **The nearest directory is what the search finds.** -/
theorem exists_climbs {p : Path} (hp : p.IsPlain) :
    ∃ n, Climbs fs name p n (fs.nearestWith? p (Route.parse name)) := by
  have hiff := isFile_append_parse_iff fs hn hp
  rw [nearestWith?, ancestors_eq, List.find?_cons]
  split
  · next hfile => exact ⟨1, .found (hiff.mp hfile)⟩
  · next hfile =>
    have hno : ¬ HasFile fs name p := fun h => by simp [hiff.mpr h] at hfile
    split
    · next hroot => exact ⟨1, .top hno hroot⟩
    · next hroot =>
      obtain ⟨n, hrest⟩ := exists_climbs hp.parent
      exact ⟨n + 1, .up hno hroot hrest⟩
termination_by p.names.length
decreasing_by
  have := Path.length_parent ‹p.names ≠ []›
  omega

/-- **The nearest file of a name is found**: the one in the deepest directory, of the start made absolute and
the directories above it, in which the name leads to a file.  If there is none, that is the failure.  No
directory is checked twice, so there are at most as many checks as names and one for the root. -/
theorem nearestFile_deepest (fs : FileSystem) (start : WrittenPath) :
    (∀ path, nearestFile fs start name = .ok path ↔
      ∃ d, Nearest fs name (fs.absolute start) d ∧ path = (d.child name).written) ∧
    (∀ e, nearestFile fs start name = .error e ↔
      e = .noDescriptor start ∧ ∀ d : Path, d.IsAbove (fs.absolute start) → ¬ HasFile fs name d) ∧
    ∃ n r, Climbs fs name (fs.absolute start) n r ∧ n ≤ (fs.absolute start).names.length + 1 ∧
      (nearestFile fs start name).toOption = r.map fun d => (d.child name).written := by
  have hplain := isPlain_absolute fs start
  obtain ⟨n, hclimbs⟩ := exists_climbs fs hn hplain
  have hlength := hclimbs.length
  cases hr : fs.nearestWith? (fs.absolute start) (Route.parse name) with
  | none =>
    rw [hr] at hclimbs
    have hfind : nearestFile fs start name = .error (.noDescriptor start) := by
      simp only [nearestFile, hr]
    rw [hfind]
    refine ⟨fun path => ?_, fun e => ?_, n, none, hclimbs, by omega, rfl⟩
    · simp only [reduceCtorEq, false_iff]
      rintro ⟨d, hd, _⟩
      exact hclimbs.none d hd.above hd.file
    · rw [Except.error.injEq, eq_comm]
      exact ⟨fun he => ⟨he, hclimbs.none⟩, And.left⟩
  | some d =>
    rw [hr] at hclimbs
    have hnearest := hclimbs.nearest
    have hfind : nearestFile fs start name = .ok (d.child name).written := by
      simp only [nearestFile, hr, Path.join_written (hnearest.above.isPlain hplain) hn]
    rw [hfind]
    refine ⟨fun path => ?_, fun e => ?_, n, some d, hclimbs, by omega, rfl⟩
    · rw [Except.ok.injEq, eq_comm]
      constructor
      · exact fun hpath => ⟨d, hnearest, hpath⟩
      · rintro ⟨d', hd', rfl⟩
        rw [hnearest.unique hd']
    · simp only [reduceCtorEq, false_iff]
      rintro ⟨_, hno⟩
      exact hno d hnearest.above hnearest.file

end

/-- A tree with a descriptor that is a link, and a directory under that name further down. -/
def shadedTree : FileSystem where
  entries := [
    (["tsconfig.json"], .file (.text "")),
    (["w"], .directory),
    (["w", "base.json"], .file (.text "")),
    (["w", "sub"], .directory),
    (["w", "sub", "tsconfig.json"], .directory),
    (["w", "tsconfig.json"], .link "base.json")]
  workingDirectory := []
  isPlain := isPlain_nil

/-- The directory is passed over, and the link is found before the file above it. -/
theorem nearestFile_deepest_link :
    Route.isName "tsconfig.json" = true ∧
      nearestFile shadedTree "w/.//sub/gone/.." "tsconfig.json" = .ok (.ofText "/w/tsconfig.json") ∧
      (∃ d, Nearest shadedTree "tsconfig.json" (shadedTree.absolute "w/.//sub/gone/..") d ∧
        "/w/tsconfig.json" = (d.child "tsconfig.json").written) ∧
      (∀ d : Path, d.IsAbove (shadedTree.absolute "w") → ¬ HasFile shadedTree "base" d) ∧
      ∃ n r, Climbs shadedTree "tsconfig.json" (shadedTree.absolute "w/.//sub/gone/..") n r ∧ n ≤ 3 ∧
        some (.ofText "/w/tsconfig.json") = r.map fun d => (d.child "tsconfig.json").written := by
  have hrun : nearestFile shadedTree "w/.//sub/gone/.." "tsconfig.json" =
      .ok (.ofText "/w/tsconfig.json") := by
    decide
  have hnone : nearestFile shadedTree "w" "base" = .error (.noDescriptor "w") := by decide
  obtain ⟨hfound, _, n, r, hclimbs, hn, hr⟩ :=
    nearestFile_deepest (by decide : Route.isName "tsconfig.json" = true) shadedTree "w/.//sub/gone/.."
  have hno := (nearestFile_deepest (by decide : Route.isName "base" = true) shadedTree "w").2.1
  rw [hrun] at hr
  exact ⟨by decide, hrun, (hfound _).mp hrun, ((hno _).mp hnone).2, n, r, hclimbs, hn, hr⟩

end Loader

end Tsconfig
