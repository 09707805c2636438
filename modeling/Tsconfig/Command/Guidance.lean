/-
# Guidance on the use of the program

The text that is printed where a command line asks for help or cannot be read, and the words that a
shell may complete.
-/
import Tsconfig.Command.Arguments
import Tsconfig.Text.Pieces

namespace Tsconfig.Command

/-- How the program is used. -/
def usage : String := Text.joinWith "\n" [
  "Resolve tsconfig.json projects",
  "",
  "Usage: tsproj [--cwd DIR] [--debug] [-q|--quiet] COMMAND",
  "",
  "Commands:",
  "  resolve [PATH] [--json]      the project that owns a file or directory",
  "  init [PATH] [--target es3|es5|es6] [--module commonjs|amd]",
  "       [--declaration] [--no-implicit-any]",
  "                               create a tsconfig.json",
  "  default FILE [--json]        a single file without any tsconfig.json",
  "  validate [PATH]              check that a project resolves",
  "  completion SHELL             words for bash, zsh, fish or power-shell",
  ""]

/-- The words that a shell may complete: the subcommands and the settings of the program. -/
def completionWords : String :=
  Text.joinWith "\n" (requestNames ++ commonParams.map (fun p => "--" ++ p.name) ++ [""])

/-- The text for guidance with an exit code: usage for a misuse or for help, words for a completion. -/
def guidance (args : List String) : String :=
  match parse args with
  | .ok (_, .completion _) => completionWords
  | _ => usage

end Tsconfig.Command
