/-
# The canonical text of a descriptor

The keys that were read come first, in the order of their first mention, then the others in the order
of the fields.  The text is laid out with four blanks a level and has no line break at its end.
-/
import Tsconfig.Descriptor.Basic
import Tsconfig.Json.Printer

namespace Tsconfig.Descriptor

/-- The entries of the keys in `order` that are there, each once. -/
def picked (fields : Fields Json) (order : List String) : Fields Json :=
  order.foldl (fun m key =>
    match fields.get? key with
    | some v => m.insert key v
    | none => m) []

/-- The entries with the keys of `order` in front. -/
def ordered (fields : Fields Json) (order : List String) : Fields Json :=
  picked fields order ++ fields.filter fun e => !order.contains e.1

/-- The blanks of a level. -/
def indent : Nat := 4

/-- The text that a descriptor is written as. -/
def canonical (d : Descriptor) : String :=
  (Json.object (ordered d.fields d.keyOrder)).pretty indent

end Tsconfig.Descriptor
