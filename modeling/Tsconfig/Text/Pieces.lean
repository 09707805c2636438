/-
# Texts cut and joined

A text is cut at every occurrence of a character, so that `n` of them leave `n + 1` pieces, empty ones
included; texts are joined with a separator between them.
-/

namespace Tsconfig.Text

/-- The pieces of a list between the occurrences of a separator. -/
def pieces {α : Type} [DecidableEq α] (sep : α) : List α → List (List α)
  | [] => [[]]
  | c :: cs =>
    if c = sep then [] :: pieces sep cs
    else
      match pieces sep cs with
      | [] => [[c]]
      | p :: ps => (c :: p) :: ps

/-- The pieces of a text as texts. -/
def splitAt (sep : Char) (text : String) : List String :=
  (pieces sep text.toList).map String.ofList

/-- Texts one after the other with `sep` in between. -/
def joinWith (sep : String) : List String → String
  | [] => ""
  | [x] => x
  | x :: xs => x ++ sep ++ joinWith sep xs

end Tsconfig.Text
