/-
# The types of a project's options

The options of a project are those of the schema, each once and of its type: the check sees to the
entries of the descriptor, and the names that decoding gives are in the schema because the check looks
them up under the same spelling.  The target and the module system are codes, the defaults are always
there, and `out` never is, since a run refuses it (`typed_decode`).  An entry that is put over typed
options leaves typed options (`Typed.layered`), and so does making a path absolute (`Typed.resolved`).
-/
import Tsconfig.Proofs.Options

namespace Tsconfig.Options

/-- The type of an option in a project: a code for the target and for the module system, and what the
schema says for any other name but `out`. -/
inductive HasType : String → Json → Prop
  | target (code : Int) (h : code = 0 ∨ code = 1 ∨ code = 2) : HasType "target" (.int code)
  | module (code : Int) (h : code = 1 ∨ code = 2) : HasType "module" (.int code)
  | other (name : String) (value : Json) (spec : Spec) (ht : name ≠ "target") (hm : name ≠ "module")
      (ho : name ≠ "out") (hs : spec? name = some spec) (hk : spec.kind.accepts value = true) :
      HasType name value

/-- Options of which each has its type, with all defaults among them. -/
structure Typed (m : Fields Json) : Prop where
  nodup : m.keys.Nodup
  defaults : ∀ name ∈ defaults.keys, name ∈ m.keys
  types : ∀ e ∈ m, HasType e.1 e.2

theorem typed_defaults : Typed Options.defaults := by
  refine ⟨by decide, fun _ hname => hname, ?_⟩
  have hflag (name : String) (b : Bool) (hs : spec? name = some ⟨.boolean, none⟩)
      (ht : name ≠ "target") (hm : name ≠ "module") (ho : name ≠ "out") : HasType name (.bool b) :=
    .other name (.bool b) _ ht hm ho hs rfl
  intro e he
  simp only [Options.defaults, List.mem_cons, List.not_mem_nil, or_false] at he
  rcases he with rfl | rfl | rfl | rfl | rfl | rfl
  · exact .target 1 (by decide)
  · exact .module 1 (by decide)
  · exact hflag "declaration" false (by decide) (by decide) (by decide) (by decide)
  · exact hflag "noImplicitAny" false (by decide) (by decide) (by decide) (by decide)
  · exact hflag "removeComments" true (by decide) (by decide) (by decide) (by decide)
  · exact hflag "noLib" false (by decide) (by decide) (by decide) (by decide)

section

variable {m raw : Fields Json} {name : String} {value : Json}

theorem Typed.insert (h : Typed m) (hv : HasType name value) : Typed (m.insert name value) := by
  refine ⟨Fields.nodup_insert h.nodup name value, ?_, ?_⟩
  · intro key hkey
    have hold := h.defaults key hkey
    rw [Fields.keys_insert]
    split
    · exact hold
    · exact List.mem_append_left _ hold
  · intro e he
    rcases Fields.mem_insert he with rfl | he
    · exact hv
    · exact h.types e he

/-- What passes the check has its type once it is coded. -/
theorem Coded.hasType {v : Json} (h : Coded name value v) (ho : name ≠ "out") : HasType name v := by
  cases h with
  | target s code hc => exact .target code hc
  | module s code hc => exact .module code hc
  | plain _ _ kind hc hs hk =>
    refine .other name value _ ?_ ?_ ho hs hk
    · rintro rfl
      exact absurd hc (by decide)
    · rintro rfl
      exact absurd hc (by decide)

/-- **An entry that passes the check leaves typed options.** -/
theorem Typed.layered (h : Typed m) (hcheck : offence? name value = none) (ho : name ≠ "out") :
    Typed (layer m name value) := by
  obtain ⟨v, hlayer, hcoded⟩ := layer_eq hcheck m
  rw [hlayer]
  exact h.insert (hcoded.hasType fun heq => ho (eq_out_of_currentName heq))

/-- Where an option may be a text it may be any text. -/
theorem HasType.string {s : String} (h : HasType name (.string s)) (s' : String) :
    HasType name (.string s') := by
  cases h with
  | other _ _ spec ht hm ho hs hk =>
    refine .other name _ spec ht hm ho hs ?_
    cases hkind : spec.kind <;> simp_all [Kind.accepts]

theorem Typed.resolved (h : Typed m) (dir : Path) (name : String) :
    Typed (resolvePath dir m name) := by
  unfold resolvePath
  split
  · next s hs => exact h.insert ((h.types _ (Fields.mem_of_get? hs)).string _)
  · exact h

/-- **Options that pass the check are decoded into typed ones.** -/
theorem typed_decode (hcheck : check raw = none) (hout : "out" ∉ raw.keys) (dir : Path) :
    Typed (decode raw dir) := by
  refine List.foldlRecOn pathNames (resolvePath dir) ?_ fun m hm name _ => hm.resolved dir name
  refine List.foldlRecOn raw (fun m e => layer m e.1 e.2) typed_defaults fun m hm e he => ?_
  have hnone : offence? e.1 e.2 = none := List.findSome?_eq_none_iff.mp hcheck e he
  exact hm.layered hnone fun heq => hout (heq ▸ Fields.mem_keys_of_mem he)

end

end Tsconfig.Options
