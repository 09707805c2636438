/-
# The files that are found from files

Closing a list of written paths is a search over written paths (`closeWritten_eq_closure`), whose turns
never run out: every path that is found is normal and names a file, and there are only so many of those.
So the result is the given paths and, round by round, the files they depend on, and closing it again
changes nothing (`closes_closeWritten`).

The search reads a file under the first spelling of its path that it meets.  A given path that ends in a
slash or a dot, or that is too long, names no file even if it has the key of one that is depended on, and
then what that file depends on is missed (`closes_closeWritten_slash`).
-/
import Tsconfig.Dependency.Files
import Tsconfig.Proofs.Dependency.BreadthFirst
import Tsconfig.Proofs.FileSystem.Lookup

namespace Tsconfig.Dependency

open FileSystem

/-! ## 1. Written paths -/

/-- What tells two written paths apart. -/
def writtenKey (path : WrittenPath) : Bool × List Step := (Route.parse path).key

/-- The texts of the paths that a file depends on. -/
def directWritten (fs : FileSystem) (extract : Extractor) (file : WrittenPath) : List WrittenPath :=
  (direct fs extract (Route.parse file)).map Path.written

/-- A written path that ends in no slash and no dot and is not too long. -/
def IsOrdinary (path : WrittenPath) : Prop :=
  (Route.parse path).slash = false ∧ .here ∉ (Route.parse path).steps ∧
    (Route.parse path).isTooLong = false

section

variable {fs : FileSystem} {extract : Extractor} {path other : WrittenPath} {p : Path}

theorem writtenKey_written (h : p.HasNames) : writtenKey p.written = (p.rooted, p.names.map .into) := by
  rw [writtenKey, Path.parse_written_of_hasNames h, Path.key_route]

theorem isOrdinary_written (h : p.HasNames) (hf : fs.isFile p.route = true) : IsOrdinary p.written := by
  obtain ⟨e, he, _⟩ := isFile_iff.mp hf
  have hok := refusal?_iff.mp (resolve?_eq_some.mp he).1
  rw [IsOrdinary, Path.parse_written_of_hasNames h]
  exact ⟨rfl, by simp [Path.route], hok.2.1⟩

/-- **Ordinary paths with one key are read alike.** -/
theorem directWritten_congr (ha : (Route.parse path).rooted = true)
    (hb : (Route.parse other).rooted = true) (ht : IsOrdinary path) (ho : IsOrdinary other)
    (hkey : writtenKey path = writtenKey other) :
    directWritten fs extract path = directWritten fs extract other := by
  obtain ⟨hts, hth, htl⟩ := ht
  obtain ⟨hos, hoh, hol⟩ := ho
  rw [directWritten, directWritten]
  rw [writtenKey, writtenKey] at hkey
  generalize Route.parse path = r at *
  generalize Route.parse other = s at *
  have hkeep {r : Route} (h : Step.here ∉ r.steps) : r.steps.filter (· ≠ .here) = r.steps := by
    rw [List.filter_eq_self]
    rintro step hstep
    simp only [decide_eq_true_eq]
    rintro rfl
    exact h hstep
  have hsteps : r.steps = s.steps := by
    rw [Route.key, Route.key, Route.bareSteps, Route.bareSteps, if_pos ha, if_pos hb, hkeep hth,
      hkeep hoh] at hkey
    exact (Prod.mk.inj hkey).2
  have hrefusal : refusal? r = refusal? s := by
    simp only [refusal?, Route.hasNul, Route.names, Route.isEmpty, hsteps, ha, hb, htl, hol]
  have hlocate : fs.locate .find r = fs.locate .find s := by
    simp only [locate, hrefusal, origin, ha, hb, hsteps, hts, hos]
  have hread : fs.readText r = fs.readText s := by
    simp only [readText, hlocate]
  have hfollow : Path.empty.follow r = Path.empty.follow s := by
    simp only [Path.follow, ha, hb, hsteps]
  simp only [direct, hread, hfollow]

end

/-! ## 2. What a file depends on -/

section

variable {fs : FileSystem} {extract : Extractor} {path : WrittenPath} {p dir : Path}

theorem hasNames_withSuffix (h : p.HasNames) {suffix : WrittenPath} (ht : .char 't' ∈ suffix.toList)
    (hs : .char '/' ∉ suffix.toList) : (p.withSuffix suffix).HasNames := by
  have hname {name : WrittenPath} (hn : .char '/' ∉ name.toList) : Route.isName (name ++ suffix) = true := by
    have hmem : .char 't' ∈ (name ++ suffix).toList := by
      rw [WrittenPath.toList_append]
      exact List.mem_append_right _ ht
    have hne (other : WrittenPath) (ho : .char 't' ∉ other.toList) : name ++ suffix ≠ other := by
      rintro rfl
      exact ho hmem
    refine Route.isName_iff.mpr ⟨hne _ (by decide), hne _ (by decide), hne _ (by decide), ?_⟩
    rw [WrittenPath.toList_append, List.mem_append, not_or]
    exact ⟨hn, hs⟩
  unfold Path.withSuffix
  split
  · have hempty := @hname "" (by decide)
    rw [WrittenPath.empty_append] at hempty
    exact h.child hempty
  · next name hlast =>
    have hmem := List.mem_of_getLast? hlast
    exact h.parent.child (hname (Route.not_mem_of_isName (h name hmem)))

theorem rooted_withSuffix (p : Path) (suffix : WrittenPath) :
    (p.withSuffix suffix).rooted = p.rooted := by
  unfold Path.withSuffix
  split <;> rfl

theorem of_firstFile? {paths : List Path} (h : firstFile? fs paths = some p) :
    p ∈ paths ∧ fs.isFile p.route = true := by
  unfold firstFile? at h
  exact ⟨List.mem_of_find?_eq_some h, by simpa using List.find?_some h⟩

/-- The paths at which a name is looked for have names, and are from the root as the directory is. -/
theorem of_mem_candidates (h : dir.HasNames) (name : WrittenPath)
    (hp : p ∈ [dir.resolve name, (dir.resolve name).withSuffix ".ts",
      (dir.resolve name).withSuffix ".d.ts"]) :
    p.HasNames ∧ (dir.rooted = true → p.rooted = true) := by
  have hbase := h.resolve name
  have hrooted : dir.rooted = true → (dir.resolve name).rooted = true :=
    fun hroot => Path.rooted_resolve hroot name
  simp only [List.mem_cons, List.not_mem_nil, or_false] at hp
  rcases hp with rfl | rfl | rfl
  · exact ⟨hbase, hrooted⟩
  · rw [rooted_withSuffix]
    exact ⟨hasNames_withSuffix hbase (by decide) (by decide), hrooted⟩
  · rw [rooted_withSuffix]
    exact ⟨hasNames_withSuffix hbase (by decide) (by decide), hrooted⟩

/-- **What a file depends on are files**, by paths from the root if that of the file is one. -/
theorem of_mem_direct (hp : p ∈ direct fs extract (Route.parse path)) :
    p.HasNames ∧ fs.isFile p.route = true ∧
      (path.toList.head? = some (.char '/') → p.rooted = true) := by
  have hdir : (Path.empty.follow (Route.parse path)).parent.HasNames :=
    (Path.HasNames.resolve (by simp [Path.HasNames, Path.empty]) path).parent
  have hroot (habs : path.toList.head? = some (.char '/')) :
      (Path.empty.follow (Route.parse path)).parent.rooted = true := (Path.isPlain_ofText habs).rooted
  unfold direct at hp
  split at hp
  · simp at hp
  · rcases List.mem_append.mp hp with hp | hp
    · obtain ⟨name, _, hname⟩ := List.mem_filterMap.mp hp
      obtain ⟨hmem, hfile⟩ := of_firstFile? hname
      obtain ⟨hnames, hrooted⟩ := of_mem_candidates hdir name hmem
      exact ⟨hnames, hfile, fun habs => hrooted (hroot habs)⟩
    · obtain ⟨name, _, hname⟩ := List.mem_filterMap.mp hp
      unfold ofImport? at hname
      split at hname
      · obtain ⟨hmem, hfile⟩ := of_firstFile? hname
        obtain ⟨hnames, hrooted⟩ := of_mem_candidates hdir name (List.mem_cons_of_mem _ hmem)
        exact ⟨hnames, hfile, fun habs => hrooted (hroot habs)⟩
      · simp at hname

/-- A path that something depends on. -/
def IsFound (fs : FileSystem) (path : WrittenPath) : Prop :=
  ∃ p : Path, p.HasNames ∧ fs.isFile p.route = true ∧ p.written = path

theorem isFound_of_mem_directWritten {file : WrittenPath} (h : path ∈ directWritten fs extract file) :
    IsFound fs path := by
  obtain ⟨p, hp, rfl⟩ := List.mem_map.mp h
  obtain ⟨hnames, hfile, _⟩ := of_mem_direct hp
  exact ⟨p, hnames, hfile, rfl⟩

theorem head?_of_mem_directWritten {file : WrittenPath} (habs : file.toList.head? = some (.char '/'))
    (h : path ∈ directWritten fs extract file) : path.toList.head? = some (.char '/') := by
  obtain ⟨p, hp, rfl⟩ := List.mem_map.mp h
  rw [Path.toList_written ((of_mem_direct hp).2.2 habs), List.head?_cons]

theorem IsFound.isOrdinary (h : IsFound fs path) : IsOrdinary path := by
  obtain ⟨p, hnames, hfile, rfl⟩ := h
  exact isOrdinary_written hnames hfile

end

/-! ## 3. The search -/

/-- A search among names of items is the search among the items. -/
theorem search_map {α β κ : Type} [DecidableEq κ] {key : α → κ} {deps : α → List α} {f : β → α}
    {deps' : β → List β} (hdeps : ∀ x, (deps' x).map f = deps (f x)) (n : Nat) (seen : List κ)
    (queue : List β) :
    search key deps n seen (queue.map f) =
      (search (fun x => key (f x)) deps' n seen queue).map f := by
  have hunseen (seen : List κ) (xs : List β) :
      unseen key seen (xs.map f) = (unseen (fun x => key (f x)) seen xs).map f := by
    induction xs generalizing seen with
    | nil => rfl
    | cons x xs ih =>
      rw [List.map_cons, unseen, unseen, ih, ih]
      split
      · rfl
      · rw [List.map_cons]
  induction n generalizing seen queue with
  | zero => rfl
  | succ n ih =>
    cases queue with
    | nil => rfl
    | cons x queue =>
      simp only [List.map_cons, search, ← hdeps, hunseen, List.map_append]
      rw [← ih, List.map_append, List.map_map]
      rfl

section

variable {fs : FileSystem} {extract : Extractor} {seeds : List WrittenPath}

/-- **Closing a list is a search over written paths.** -/
theorem closeWritten_eq_closure (fs : FileSystem) (extract : Extractor) (seeds : List WrittenPath) :
    closeWritten fs extract seeds =
      closure writtenKey (directWritten fs extract) (turnLimit fs seeds.length) seeds := by
  have hdeps (t : WrittenPath) :
      (directWritten fs extract t).map Route.parse = directRoutes fs extract (Route.parse t) := by
    rw [directWritten, directRoutes, List.map_map]
    exact List.map_congr_left fun p hp => Path.parse_written_of_hasNames (of_mem_direct hp).1
  have hparse (t : WrittenPath) (ht : IsFound fs t) : (Path.empty.follow (Route.parse t)).written = t := by
    obtain ⟨p, hnames, _, rfl⟩ := ht
    rw [Path.parse_written_of_hasNames hnames, Path.empty_follow_route]
  have hmap := @search_map _ _ _ _ Route.key _ _ _ hdeps (turnLimit fs seeds.length)
    (seeds.map writtenKey) seeds
  have hkeys : (seeds.map Route.parse).map Route.key = seeds.map writtenKey := by
    rw [List.map_map]
    rfl
  rw [closeWritten, discoveredRoutes, discovered, List.length_map, hkeys, hmap, List.map_map, closure,
    discovered]
  refine congrArg _ ?_
  conv => rhs; rw [← List.map_id (search writtenKey _ _ _ _)]
  refine List.map_congr_left fun t ht => ?_
  obtain ⟨file, _, hmem⟩ := exists_of_mem_search (Q := fun _ => True) (fun _ _ _ _ => trivial)
    (fun _ _ => trivial) ht
  exact hparse t (isFound_of_mem_directWritten hmem)

/-! ## 4. What is found -/

theorem head?_of_reachable (habs : ∀ s ∈ seeds, s.toList.head? = some (.char '/')) {t : WrittenPath}
    (h : Reachable (directWritten fs extract) seeds t) : t.toList.head? = some (.char '/') := by
  induction h with
  | seed h => exact habs _ h
  | dependency _ hy ih => exact head?_of_mem_directWritten ih hy

/-- What is reached and is no given path is found. -/
theorem isFound_of_reachable {t : WrittenPath} (h : Reachable (directWritten fs extract) seeds t)
    (hnot : t ∉ seeds) : IsFound fs t := by
  cases h with
  | seed h => exact absurd h hnot
  | dependency _ hy => exact isFound_of_mem_directWritten hy

/-- Texts that are found, each once, are different paths to files. -/
theorem paths_of_found {found : List WrittenPath} (hf : ∀ t ∈ found, IsFound fs t)
    (hnodup : (found.map writtenKey).Nodup) :
    (found.map Path.ofText).Nodup ∧ ∀ p ∈ found.map Path.ofText, fs.isFile p.route = true := by
  have hpath (t : WrittenPath) (ht : t ∈ found) : fs.isFile (Path.ofText t).route = true ∧
      writtenKey t = ((Path.ofText t).rooted, (Path.ofText t).names.map .into) := by
    obtain ⟨p, hnames, hfile, rfl⟩ := hf t ht
    rw [Path.ofText_written_of_hasNames hnames]
    exact ⟨hfile, writtenKey_written hnames⟩
  have hkeys : found.map writtenKey =
      (found.map Path.ofText).map fun p => (p.rooted, p.names.map Step.into) := by
    rw [List.map_map]
    exact List.map_congr_left fun t ht => (hpath t ht).2
  rw [hkeys] at hnodup
  constructor
  · exact List.Pairwise.of_map (fun p : Path => (p.rooted, p.names.map Step.into))
      (fun a b hne heq => hne (by rw [heq])) hnodup
  · intro p hp
    obtain ⟨t, ht, rfl⟩ := List.mem_map.mp hp
    exact (hpath t ht).1

/-- Paths that are found, each once, are no more than the bound says. -/
theorem length_found_le {found : List WrittenPath} (hf : ∀ t ∈ found, IsFound fs t)
    (hnodup : (found.map writtenKey).Nodup) : found.length ≤ fs.pathBound := by
  obtain ⟨hpaths, hfile⟩ := paths_of_found hf hnodup
  rw [← List.length_map Path.ofText]
  exact length_le_pathBound hfile hpaths

/-- The turns suffice for all rounds. -/
theorem length_listed_le (fs : FileSystem) (extract : Extractor) (seeds : List WrittenPath) (n : Nat) :
    (listed writtenKey (directWritten fs extract) seeds n).length ≤ turnLimit fs seeds.length := by
  obtain ⟨found, hlist, hnodup, hnew⟩ := @exists_found _ _ _ writtenKey (directWritten fs extract) seeds n
  have hfound (t : WrittenPath) (ht : t ∈ found) : IsFound fs t := by
    have hmem : t ∈ listed writtenKey (directWritten fs extract) seeds n :=
      hlist ▸ List.mem_append_right _ ht
    exact isFound_of_reachable (reachable_of_mem_listed hmem)
      fun hseed => hnew t ht (List.mem_map_of_mem hseed)
  have := length_found_le hfound hnodup
  rw [hlist, List.length_append, turnLimit]
  omega

/-- Closing a list puts behind it what is reached from it, each once and none that is given. -/
theorem exists_found_closeWritten (fs : FileSystem) (extract : Extractor) (seeds : List WrittenPath) :
    ∃ found, closeWritten fs extract seeds = seeds ++ found ∧
      (∀ t ∈ found, Reachable (directWritten fs extract) seeds t) ∧ (found.map writtenKey).Nodup ∧
      ∀ t ∈ found, writtenKey t ∉ seeds.map writtenKey := by
  obtain ⟨n, hclosure, _⟩ := closure_eq_listed (length_listed_le fs extract seeds)
  obtain ⟨found, hlist, hnodup, hnew⟩ := @exists_found _ _ _ writtenKey (directWritten fs extract) seeds n
  refine ⟨found, by rw [closeWritten_eq_closure, hclosure, hlist], ?_, hnodup, hnew⟩
  intro t ht
  exact reachable_of_mem_listed (hlist ▸ List.mem_append_right seeds ht)

/-- The given paths that have the key of something depended on are ordinary. -/
def OrdinarySeeds (fs : FileSystem) (extract : Extractor) (seeds : List WrittenPath) : Prop :=
  ∀ s ∈ seeds, ∀ file, Reachable (directWritten fs extract) seeds file →
    ∀ t ∈ directWritten fs extract file, writtenKey s = writtenKey t → IsOrdinary s

theorem keysAgree (habs : ∀ s ∈ seeds, s.toList.head? = some (.char '/'))
    (h : OrdinarySeeds fs extract seeds) : KeysAgree writtenKey (directWritten fs extract) seeds := by
  intro file hfile t ht u hu hkey
  have hfound : IsFound fs t := isFound_of_mem_directWritten ht
  have htext := head?_of_mem_directWritten (head?_of_reachable habs hfile) ht
  have hordinary : IsOrdinary u := by
    by_cases hseed : u ∈ seeds
    · exact h u hseed file hfile t ht hkey
    · exact (isFound_of_reachable hu hseed).isOrdinary
  exact directWritten_congr (Route.rooted_parse (head?_of_reachable habs hu))
    (Route.rooted_parse htext) hordinary hfound.isOrdinary hkey

/-- **Closing a list of plain paths** puts plain paths behind them. -/
theorem closePaths_eq {paths : List Path} (h : ∀ p ∈ paths, p.IsPlain) :
    ∃ found, closePaths fs extract paths = paths ++ found ∧ ∀ p ∈ found, p.IsPlain := by
  have hdirect (q p : Path) (hq : q.IsPlain) (hp : p ∈ direct fs extract q.route) : p.IsPlain := by
    rw [← Path.parse_written hq] at hp
    obtain ⟨hnames, _, hrooted⟩ := of_mem_direct hp
    exact ⟨hrooted (by rw [Path.toList_written hq.rooted, List.head?_cons]), hnames⟩
  refine ⟨(discoveredRoutes fs extract (paths.map Path.route)).map Path.empty.follow, ?_, ?_⟩
  · rw [closePaths, closeRoutes_eq, List.map_append, List.map_map]
    refine congrArg (· ++ _) ?_
    conv => rhs; rw [← List.map_id paths]
    exact List.map_congr_left fun p _ => Path.empty_follow_route p
  · have hfollow : ∀ r, (∃ q : Path, q.IsPlain ∧ q.route = r) → ∀ s ∈ directRoutes fs extract r,
        ∃ q : Path, q.IsPlain ∧ q.route = s := by
      rintro _ ⟨q, hq, rfl⟩ _ hmem
      obtain ⟨p, hp, rfl⟩ := List.mem_map.mp hmem
      exact ⟨p, hdirect q p hq hp, rfl⟩
    have hstart : ∀ r ∈ paths.map Path.route, ∃ q : Path, q.IsPlain ∧ q.route = r := by
      rintro _ hmem
      obtain ⟨q, hq, rfl⟩ := List.mem_map.mp hmem
      exact ⟨q, h q hq, rfl⟩
    intro p hp
    obtain ⟨r, hr, rfl⟩ := List.mem_map.mp hp
    obtain ⟨_, ⟨q, hq, rfl⟩, hmem⟩ := exists_of_mem_search
      (Q := fun r => ∃ q : Path, q.IsPlain ∧ q.route = r) hfollow hstart hr
    obtain ⟨other, hother, rfl⟩ := List.mem_map.mp hmem
    rw [Path.empty_follow_route]
    exact hdirect q other hq hother

/-- What closing a list of paths gives besides them. -/
structure Closes (fs : FileSystem) (extract : Extractor) (seeds found : List WrittenPath) : Prop where
  /-- Every path that is listed is reached. -/
  reachable : ∀ t ∈ seeds ++ found, Reachable (directWritten fs extract) seeds t
  /-- Every path that is reached is listed. -/
  complete : OrdinarySeeds fs extract seeds → ∀ t, Reachable (directWritten fs extract) seeds t →
    ∃ u ∈ seeds ++ found, writtenKey u = writtenKey t
  /-- No path is found twice. -/
  nodup : (found.map writtenKey).Nodup
  /-- No given path is found. -/
  fresh : ∀ t ∈ found, ∀ s ∈ seeds, writtenKey t ≠ writtenKey s
  /-- The paths come in rounds, up to the first one that finds nothing. -/
  rounds : ∃ n, seeds ++ found = listed writtenKey (directWritten fs extract) seeds n ∧
    round writtenKey (directWritten fs extract) seeds (n + 1) = []
  /-- The paths of a round are reached in as many steps, and in no fewer. -/
  distance : ∀ n, ∀ t ∈ round writtenKey (directWritten fs extract) seeds n,
    ReachedIn (directWritten fs extract) seeds n t ∧ (OrdinarySeeds fs extract seeds →
      ∀ m u, ReachedIn (directWritten fs extract) seeds m u → writtenKey u = writtenKey t → n ≤ m)
  /-- Closing the list again changes nothing. -/
  stable : closeWritten fs extract (seeds ++ found) = seeds ++ found

/-- **Closing a list of absolute paths** puts behind them what is reached from them. -/
theorem closes_closeWritten (habs : ∀ s ∈ seeds, s.toList.head? = some (.char '/')) :
    ∃ found, closeWritten fs extract seeds = seeds ++ found ∧ Closes fs extract seeds found := by
  obtain ⟨n, hclosure, hlast⟩ := closure_eq_listed (length_listed_le fs extract seeds)
  obtain ⟨found, hlist, hnodup, hnew⟩ := @exists_found _ _ _ writtenKey (directWritten fs extract) seeds n
  have hreach : ∀ t ∈ seeds ++ found, Reachable (directWritten fs extract) seeds t :=
    fun t ht => reachable_of_mem_listed (hlist ▸ ht)
  have hclosed : IsClosed writtenKey (directWritten fs extract) (seeds ++ found) :=
    hlist ▸ isClosed_listed hlast
  refine ⟨found, by rw [closeWritten_eq_closure, hclosure, hlist], hreach, ?_, hnodup, ?_,
    ⟨n, hlist.symm, hlast⟩, ?_, ?_⟩
  · intro hordinary t ht
    exact hlist ▸ exists_listed_of_reachable (keysAgree habs hordinary) hlast ht
  · intro t ht s hs hkey
    exact hnew t ht (hkey ▸ List.mem_map_of_mem hs)
  · intro n t ht
    refine ⟨reachedIn_of_mem_round ht, fun hordinary m u hu hkey => ?_⟩
    exact le_of_mem_round (keysAgree habs hordinary) ht hu hkey
  · rw [closeWritten_eq_closure, closure_of_isClosed hclosed]

end

/-- Three files, of which each one but the last imports the next one. -/
def chainTree : FileSystem where
  entries := [
    (["b.ts"], .file (.text "import a from \"./a\";\n")),
    (["a.ts"], .file (.text "import c from \"./c\";\n")),
    (["c.ts"], .file (.text ""))]
  workingDirectory := []
  isPlain := isPlain_nil

theorem closes_closeWritten_chain :
    closeWritten chainTree Source.references ["/b.ts"] =
        (["/b.ts", "/a.ts", "/c.ts"] : List WrittenPath) ∧
      Closes chainTree Source.references ["/b.ts"] ["/a.ts", "/c.ts"] ∧
      ∀ t, Reachable (directWritten chainTree Source.references) ["/b.ts"] t →
        ∃ u ∈ (["/b.ts", "/a.ts", "/c.ts"] : List WrittenPath), writtenKey u = writtenKey t := by
  have hlist : closeWritten chainTree Source.references ["/b.ts"] =
        (["/b.ts", "/a.ts", "/c.ts"] : List WrittenPath) := by
    decide +kernel
  obtain ⟨found, heq, hcloses⟩ :=
    @closes_closeWritten chainTree Source.references ["/b.ts"] (by decide)
  obtain rfl : found = (["/a.ts", "/c.ts"] : List WrittenPath) := (List.cons.inj (heq.symm.trans hlist)).2
  refine ⟨hlist, hcloses, hcloses.complete ?_⟩
  intro s hs _ _ _ _ _
  obtain rfl : s = "/b.ts" := List.mem_singleton.mp hs
  unfold IsOrdinary
  decide +kernel

/-- With a slash behind its path a file is not read, and what it imports is missed. -/
theorem closes_closeWritten_slash :
    Reachable (directWritten chainTree Source.references) ["/b.ts", "/a.ts/"] "/c.ts" ∧
      ∀ u ∈ closeWritten chainTree Source.references ["/b.ts", "/a.ts/"],
        writtenKey u ≠ writtenKey "/c.ts" := by
  constructor
  · have hfirst : .ofText "/a.ts" ∈ directWritten chainTree Source.references "/b.ts" := by decide +kernel
    have hsecond : .ofText "/c.ts" ∈ directWritten chainTree Source.references "/a.ts" := by decide +kernel
    exact .dependency (.dependency (.seed List.mem_cons_self) hfirst) hsecond
  · decide +kernel

end Tsconfig.Dependency
