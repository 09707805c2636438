/-
# The arguments of the program

    tsproj [--cwd DIR] [--debug] [-q|--quiet] COMMAND

    resolve [PATH] [--json]
    init [PATH] [--target T] [--module M] [--declaration] [--no-implicit-any]
    default FILE [--json]
    validate [PATH]
    completion SHELL

The three settings of the program may stand behind the subcommand as well, where they win.
-/
import Tsconfig.Command.Grammar

namespace Tsconfig.Command

/-- The settings of every command. -/
structure Settings where
  /-- The directory to work in, in place of the current one. -/
  cwd : Option String
  debug : Bool
  quiet : Bool
  deriving DecidableEq

/-- What the program is asked to do. -/
inductive Request
  | resolve (path : Option String) (json : Bool)
  | init (path target module : Option String) (declaration noImplicitAny : Bool)
  | default (file : String) (json : Bool)
  | validate (path : Option String)
  | completion (shell : String)
  deriving DecidableEq

/-! ## 1. Levels -/

/-- A path may not be empty. -/
def isPath (s : String) : Bool := s ≠ ""

/-- The parameters of every level. -/
def commonParams : List Param := [
  ⟨"cwd", none, .value isPath⟩,
  ⟨"debug", none, .flag⟩,
  ⟨"quiet", some 'q', .flag⟩,
  ⟨"help", some 'h', .stop .help⟩]

/-- The flag for output as JSON. -/
def jsonFlag : Param := ⟨"json", none, .flag⟩

/-- A positional path. -/
def pathArgument : Param := ⟨"path", none, .value isPath⟩

/-- The subcommands. -/
def requestNames : List String := ["resolve", "init", "default", "validate", "completion", "help"]

/-- The level of the program. -/
def programLevel : Level where
  params := commonParams ++ [⟨"version", some 'V', .stop .version⟩]
  positionals := []
  subcommands := requestNames

/-- The level of a subcommand. -/
def requestLevel (name : String) : Level :=
  match name with
  | "resolve" => ⟨commonParams ++ [jsonFlag], [pathArgument], []⟩
  | "init" =>
    ⟨commonParams ++ [
      ⟨"target", none, .value ["es3", "es5", "es6"].contains⟩,
      ⟨"module", none, .value ["commonjs", "amd"].contains⟩,
      ⟨"declaration", none, .flag⟩,
      ⟨"no-implicit-any", none, .flag⟩], [pathArgument], []⟩
  | "default" => ⟨commonParams ++ [jsonFlag], [pathArgument], []⟩
  | "completion" =>
    ⟨commonParams, [⟨"shell", none, .value ["bash", "zsh", "fish", "power-shell"].contains⟩], []⟩
  | _ => ⟨commonParams, [pathArgument], []⟩

/-! ## 2. Reading -/

/-- The request of a subcommand, if it has what it needs. -/
def requestOf (name : String) (m : Matches) : Except Stop Request :=
  match name with
  | "resolve" => .ok (.resolve (m.given.get? "path") (m.has "json"))
  | "init" =>
    .ok (.init (m.given.get? "path") (m.given.get? "target") (m.given.get? "module")
      (m.has "declaration") (m.has "no-implicit-any"))
  | "default" =>
    match m.given.get? "path" with
    | some file => .ok (.default file (m.has "json"))
    | none => .error .misuse
  | "completion" =>
    match m.given.get? "shell" with
    | some shell => .ok (.completion shell)
    | none => .error .misuse
  | _ => .ok (.validate (m.given.get? "path"))

/-- The subcommand `help`: it takes the name of a subcommand or nothing. -/
def helpStop : List String → Stop
  | [] => .help
  | [name] => if requestNames.contains name then .help else .misuse
  | _ => .misuse

/-- Read a level to its end. -/
def readAll (level : Level) (args : List String) : Except Stop Matches :=
  match level.read {} args with
  | .error s => .error s
  | .ok (m, _) => m.settle

/-- The settings of the program's level and the subcommand's. -/
def settingsOf (outer inner : Matches) : Settings where
  cwd := (inner.given.get? "cwd").or (outer.given.get? "cwd")
  debug := inner.has "debug" || outer.has "debug"
  quiet := inner.has "quiet" || outer.has "quiet"

/-- What a command line asks for. -/
def parse (args : List String) : Except Stop (Settings × Request) :=
  match programLevel.read {} args with
  | .error s => .error s
  | .ok (_, none) => .error .misuse
  | .ok (outer, some (name, rest)) =>
    if name = "help" then .error (helpStop rest)
    else
      match readAll (requestLevel name) rest with
      | .error s => .error s
      | .ok inner =>
        match requestOf name inner with
        | .error s => .error s
        | .ok request =>
          match outer.settle with
          | .error s => .error s
          | .ok outer => .ok (settingsOf outer inner, request)

end Tsconfig.Command
