/-
# The program

    tsproj ARGUMENTS < tree

The program runs a command on a tree that it is given: one line of JSON on the standard input, which
describes the files by their paths (`FileSystem.describeAll`).  Paths are relative to `/work`, which
is the working directory.  The command prints to the standard output and the standard error, and a
last line on the standard error describes the entries that it has changed, if there are any.
-/
import Tsconfig.Command.Guidance
import Tsconfig.Command.Run
import Tsconfig.FileSystem.Described

namespace Tsconfig.Command

/-- The directory that the tree lies in. -/
def treeRoot : Location := ["work"]

/-- The file system of a described tree. -/
def treeOf (line : String) : FileSystem :=
  (FileSystem.fresh treeRoot).describeAll ((Json.parseObject? line).getD [])

/-- The line for the entries that have changed; none if nothing has. -/
def changesLine (before after : FileSystem) : String :=
  match FileSystem.changesJson before after treeRoot with
  | .object [] => ""
  | changes => changes.compact ++ "\n"

/-- The exit code and the two texts of a run. -/
def texts (args : List String) : Reply → Nat × String × String
  | .printed exit out err => (exit, out, err)
  | .guidance exit =>
    if exit = 0 then (exit, guidance args, "") else (exit, "", guidance args)

end Tsconfig.Command

open Tsconfig Tsconfig.Command

/-- Run the command line on the tree of the standard input. -/
def main (args : List String) : IO UInt32 := do
  let tree := treeOf (← (← IO.getStdin).getLine)
  let (reply, after) := run tree args
  let (exit, out, err) := texts args reply
  IO.print out
  IO.eprint (err ++ changesLine tree after)
  return UInt32.ofNat exit
