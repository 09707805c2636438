/-
# Resolving is an action

A written path may be put behind another one and resolved with it, or resolved after it: the outcome is
the same (`Path.resolve_join`), however far double dots climb, and whether the first path is absolute,
relative or empty.  Only a second path that is absolute leaves nothing of the first.

A resolved path has no dots, so it is read as itself where it is written (`Path.ofText_written_of_hasNames`),
and the law holds of written paths as well (`Path.resolved_join`).
-/
import Tsconfig.Proofs.Path.Pieces

namespace Tsconfig

/-! ## 1. Paths -/

namespace Path

section

variable {p : Path}

/-- What is behind a slash is resolved after what ends in the slash. -/
theorem resolve_behind_slash (p : Path) (front path : WrittenPath) :
    p.resolve (front ++ "/" ++ path) = (p.resolve (front ++ "/")).enterAll path.pieces := by
  have hhead : (front ++ "/" ++ path).toList.head? = (front ++ "/").toList.head? := by
    cases hfront : front.toList <;> simp [hfront]
  have hslash : (front ++ "/").pieces = front.pieces ++ [.ofText ""] := by
    have hempty : (WrittenPath.ofText "").pieces = [.ofText ""] := rfl
    rw [← hempty, ← WrittenPath.pieces_append_slash, WrittenPath.append_empty]
  rw [resolve_eq, resolve_eq, hhead, WrittenPath.pieces_append_slash, hslash, enterAll_append,
    enterAll_append]
  rfl

/-- **Two written paths are resolved together or one after the other.** -/
theorem resolve_join (p : Path) (a b : WrittenPath) :
    p.resolve (a.join b) = (p.resolve a).resolve b := by
  unfold WrittenPath.join
  split
  · next hb => rw [resolve_eq p, resolve_eq (p.resolve a), if_pos hb, if_pos hb]
  · next hb =>
    rw [resolve_of_relative hb (p.resolve a)]
    by_cases ha : a = ""
    · rw [if_pos (by simp [ha]), ha, resolve_empty, WrittenPath.empty_append, resolve_of_relative hb]
    · split
      · next hend =>
        obtain ⟨front, rfl⟩ : ∃ front, a = front ++ "/" := by
          have hlast : a.toList.getLast? = some (.char '/') := by simpa [ha] using hend
          obtain ⟨letters, hletters⟩ := List.getLast?_eq_some_iff.mp hlast
          refine ⟨.ofList letters, ?_⟩
          rw [← WrittenPath.toList_inj, hletters]
          rfl
        exact resolve_behind_slash p front b
      · exact resolve_append p ha b

/-! ## 2. Written paths -/

/-- A written path resolved against another one, as it is written. -/
def resolved (base path : WrittenPath) : WrittenPath := ((ofText base).resolve path).written

theorem hasNames_ofText (path : WrittenPath) : (ofText path).HasNames :=
  HasNames.resolve (by simp [HasNames, empty]) path

theorem hasNames_resolve (base path : WrittenPath) : ((ofText base).resolve path).HasNames :=
  (hasNames_ofText base).resolve path

theorem ofText_resolved (base path : WrittenPath) :
    ofText (resolved base path) = (ofText base).resolve path :=
  ofText_written_of_hasNames (hasNames_resolve base path)

/-- The steps of a resolved path from the root: names, and nothing else. -/
theorem steps_resolved {base : WrittenPath} (h : base.toList.head? = some (.char '/'))
    (path : WrittenPath) :
    (Route.parse (resolved base path)).rooted = true ∧
      ∀ step ∈ (Route.parse (resolved base path)).steps,
        ∃ name, step = .into name ∧ Route.isName name = true := by
  have hplain : ((ofText base).resolve path).IsPlain := (isPlain_ofText h).resolve path
  rw [resolved, parse_written hplain]
  refine ⟨hplain.rooted, fun step hstep => ?_⟩
  obtain ⟨name, hname, rfl⟩ := List.mem_map.mp hstep
  exact ⟨name, rfl, hplain.isName name hname⟩

/-- **Resolving is a normalizing action.**  Two written paths are resolved one after the other or joined, and
an absolute one replaces what is in front of it.  From an absolute base comes an absolute path of names
only, and what has been resolved stays as it is. -/
theorem resolved_join (base a b : WrittenPath) :
    resolved (resolved base a) b = resolved base (a.join b) ∧
      (b.toList.head? = some (.char '/') → a.join b = b) ∧
      (base.toList.head? = some (.char '/') →
        (Route.parse (resolved base a)).rooted = true ∧
          ∀ step ∈ (Route.parse (resolved base a)).steps,
            ∃ name, step = .into name ∧ Route.isName name = true) ∧
      resolved (resolved base a) "" = resolved base a := by
  refine ⟨?_, fun hb => ?_, fun h => steps_resolved h a, ?_⟩
  · rw [resolved, ofText_resolved, resolved, resolve_join]
  · rw [WrittenPath.join, if_pos hb]
  · rw [resolved, ofText_resolved, resolve_empty, resolved]

/-- Double dots that climb above the root and behind the join. -/
theorem resolved_join_climbing :
    (WrittenPath.ofText "/w/a").toList.head? = some (.char '/') ∧
      resolved (resolved "/w/a" "../..//../b/.") "../.././c" =
        resolved "/w/a" (.join "../..//../b/." "../.././c") ∧
      ((Route.parse (resolved "/w/a" "../..//../b/.")).rooted = true ∧
        ∀ step ∈ (Route.parse (resolved "/w/a" "../..//../b/.")).steps,
          ∃ name, step = .into name ∧ Route.isName name = true) ∧
      (WrittenPath.ofText "/c").toList.head? = some (.char '/') ∧
      WrittenPath.join "../..//../b/." "/c" = "/c" := by
  obtain ⟨hjoin, _, hsteps, _⟩ := resolved_join "/w/a" "../..//../b/." "../.././c"
  have habsolute := (resolved_join "/w/a" "../..//../b/." "/c").2.1
  exact ⟨by decide, hjoin, hsteps (by decide), by decide, habsolute (by decide)⟩

-- A relative base has no root to stop at, and double dots leave nothing behind.
example : resolved (resolved "a" "../..") "b" = "b" ∧ resolved "a" (.join "../.." "b") = "b" := by
  decide

end

end Path

end Tsconfig
