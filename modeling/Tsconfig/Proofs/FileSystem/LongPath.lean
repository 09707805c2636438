/-
# A path near the greatest length

Where a link leads back to the directory that it lies in, a path may take it again and again.  Twenty
times a long name make a path that the system just takes and that leads nowhere else
(`resolve?_longPath_of_link`); what is put behind it is soon too long (`size_longPath_child`).  This is
where statements about all paths meet the limit.
-/
import Tsconfig.Proofs.FileSystem.Lookup

namespace Tsconfig.Loader

open FileSystem

/-- A name of 203 bytes. -/
def longName : WrittenPath := .ofList (List.replicate 203 (.char 'n'))

/-- Twenty times the name, 4080 bytes. -/
def longPath : Path := ⟨true, List.replicate 20 longName⟩

/-- Nothing but one letter is in the names of the path. -/
theorem not_mem_longPath {l : Letter} (hl : l ≠ .char 'n') {name : WrittenPath}
    (hname : name ∈ longPath.names) : l ∉ name.toList := by
  obtain rfl := List.eq_of_mem_replicate hname
  intro hmem
  exact hl (List.eq_of_mem_replicate hmem)

theorem size_longName : longName.size = 203 := by
  have hone : (Letter.char 'n').bytes.length = 1 := by decide
  rw [WrittenPath.size, WrittenPath.bytes, List.length_flatMap, longName, WrittenPath.toList_ofList,
    List.map_replicate, List.sum_replicate_nat, hone]

theorem isPlain_longPath : longPath.IsPlain := by
  refine ⟨rfl, ?_⟩
  intro name hname
  have hslash := not_mem_longPath (show Letter.char '/' ≠ .char 'n' by decide) hname
  obtain rfl := List.eq_of_mem_replicate hname
  have hlength (other : WrittenPath) (ho : other.size ≠ 203) : longName ≠ other := by
    rintro rfl
    exact ho size_longName
  exact Route.isName_iff.mpr
    ⟨hlength _ (by decide), hlength _ (by decide), hlength _ (by decide), hslash⟩

theorem size_longPath : longPath.written.size = 4080 := by
  have hslash : (WrittenPath.ofText "/").size = 1 := by decide
  have hjoin (k : Nat) : (WrittenPath.joined (List.replicate (k + 1) longName)).size =
      k * 204 + 203 := by
    induction k with
    | zero =>
      have hone : WrittenPath.joined (List.replicate (0 + 1) longName) = longName := rfl
      rw [hone, size_longName]
    | succ k ih =>
      rw [List.replicate_succ, List.replicate_succ, WrittenPath.joined_cons_cons,
        ← List.replicate_succ, WrittenPath.size_append, WrittenPath.size_append, ih, size_longName,
        hslash]
      omega
  rw [Path.written_of_rooted rfl, WrittenPath.size_append, longPath, hjoin 19, hslash]

/-- Where the link lies in the root, the path leads back to the root. -/
theorem resolve?_longPath_of_link {fs : FileSystem} (h : fs.get? [longName] = some (.link ".")) :
    fs.resolve? longPath.route = some [] := by
  have hlink : fs.get? ([] ++ [longName]) = some (.link ".") := h
  have hdot : Route.parse "." = ⟨false, [.here], false, 1⟩ := by decide
  have hreach (k : Nat) : ∀ n, k ≤ n →
      fs.Reaches n [] (List.replicate k (.into longName)) false [] := by
    induction k with
    | zero => exact fun n _ => .done n [] false (by simp)
    | succ k ih =>
      intro n hn
      obtain ⟨n, rfl⟩ : ∃ m, n = m + 1 := ⟨n - 1, by omega⟩
      refine .link rfl (by rw [size_longName]; decide) hlink (by rw [hdot]; rfl) ?_
      rw [hdot]
      have hrest := ih n (by omega)
      simpa [linkOrigin] using Reaches.here rfl hrest
  have hok : refusal? longPath.route = none := by
    refine (refusal?_eq_none rfl).mpr ⟨fun _ hname => not_mem_longPath (by decide) hname, ?_⟩
    rw [Route.isTooLong, Path.route, size_longPath]
    decide
  have hsteps : longPath.route.steps = List.replicate 20 (.into longName) := by
    rw [Path.route, longPath, List.map_replicate]
  have horigin : fs.origin longPath.route = [] := rfl
  refine resolve?_eq_some.mpr ⟨hok, ?_⟩
  rw [hsteps, horigin]
  exact hreach 20 linkLimit (by decide)

/-- A name behind the path makes it longer by the name and a slash. -/
theorem size_longPath_child (name : WrittenPath) :
    (longPath.child name).route.size = 4081 + name.size := by
  have hfront : longPath.front = longPath.written ++ "/" := if_neg (by simp [longPath])
  have hslash : (WrittenPath.ofText "/").size = 1 := by decide
  rw [Path.route, Path.written_child isPlain_longPath.rooted, hfront, WrittenPath.size_append,
    WrittenPath.size_append, size_longPath, hslash]

end Tsconfig.Loader
