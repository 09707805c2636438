/-
# The size of a text

A character takes one to four bytes, and a text what its characters take.  The columns of a text are
counted in bytes.
-/

namespace Tsconfig.Text

/-- The number of bytes of a text. -/
def byteLength : List Char → Nat
  | [] => 0
  | c :: cs => c.utf8Size + byteLength cs

end Tsconfig.Text
