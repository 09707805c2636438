/-
# Closing a list under its dependencies

Items wait in a queue.  The first one is taken off, its dependencies that have not been seen are put
at the end of the queue and of the result, and so on until nothing waits.  Two items with the same key
count as one, so an item is seen when one with its key has been put into the queue.  Nothing waits
twice but a start item that is given twice, and the loop takes as many turns as the result has items.
The number of turns is bounded by `limit`.
-/

namespace Tsconfig.Dependency

variable {α κ : Type} [DecidableEq κ]

/-- The items whose keys have not been seen, each once, in their order. -/
def unseen (key : α → κ) (seen : List κ) : List α → List α
  | [] => []
  | x :: xs =>
    if key x ∈ seen then unseen key seen xs else x :: unseen key (key x :: seen) xs

/-- What is found from a queue, in the order of discovery. -/
def search (key : α → κ) (deps : α → List α) : Nat → List κ → List α → List α
  | 0, _, _ => []
  | _, _, [] => []
  | limit + 1, seen, x :: queue =>
    let new := unseen key seen (deps x)
    new ++ search key deps limit (new.map key ++ seen) (queue ++ new)

/-- What is found from start items that is none of them. -/
def discovered (key : α → κ) (deps : α → List α) (limit : Nat) (seeds : List α) : List α :=
  search key deps limit (seeds.map key) seeds

/-- The start items and all that is found from them. -/
def closure (key : α → κ) (deps : α → List α) (limit : Nat) (seeds : List α) : List α :=
  seeds ++ discovered key deps limit seeds

end Tsconfig.Dependency
