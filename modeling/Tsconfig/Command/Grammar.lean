/-
# The shape of a command line

A command line is read in levels: the level of the program ends at the name of a subcommand, and the
level of the subcommand takes the rest.  A level has flags, parameters that take a value, and
positional arguments.  Reading goes from left to right and stops at the first mistake or at a request
for help.  A value behind an equals sign is checked at once; any other value is checked when the next
flag, parameter or argument of its level comes, or at the level's end, so the program's last value is
checked after the subcommand has been read.
-/
import Tsconfig.Fields

namespace Tsconfig.Command

/-- Why a command line is not run. -/
inductive Stop
  | help
  | version
  | misuse
  deriving DecidableEq

/-- What happens when a parameter is met. -/
inductive Action
  /-- The parameter is set. -/
  | flag
  /-- The parameter takes a value that passes a test. -/
  | value (accepts : String → Bool)
  /-- Reading stops. -/
  | stop (s : Stop)

/-- A parameter of a level. -/
structure Param where
  name : String
  short : Option Char
  action : Action

/-- What a level takes. -/
structure Level where
  params : List Param
  positionals : List Param
  subcommands : List String

/-- What has been read of a level: parameters with their values, and the one whose value is not
checked yet. -/
structure Matches where
  given : Fields String := []
  pending : Option (Param × Option String) := none
  /-- The number of positional arguments. -/
  count : Nat := 0
  /-- Whether everything that follows is positional. -/
  literal : Bool := false

namespace Matches

/-- Whether a parameter was given. -/
def has (m : Matches) (name : String) : Bool := m.given.contains name

/-- Set a parameter, which may be given once. -/
def set (m : Matches) (name value : String) : Except Stop Matches :=
  if m.has name then .error .misuse
  else .ok { m with given := Fields.insert m.given name value, pending := none }

/-- Check the value that waits. -/
def settle (m : Matches) : Except Stop Matches :=
  match m.pending with
  | none => .ok m
  | some (_, none) => .error .misuse
  | some (p, some v) =>
    match p.action with
    | .value accepts => if accepts v then m.set p.name v else .error .misuse
    | _ => .error .misuse

/-- Let a parameter wait for its value, or its value for the check. -/
def await (m : Matches) (p : Param) (value : Option String) : Except Stop Matches :=
  match m.settle with
  | .error s => .error s
  | .ok m => .ok { m with pending := some (p, value) }

/-- Let a parameter with its value wait, and check it at once. -/
def attach (m : Matches) (p : Param) (value : String) : Except Stop Matches :=
  match m.await p (some value) with
  | .error s => .error s
  | .ok m => m.settle

/-- Meet a parameter, with the value attached to it. -/
def meet (m : Matches) (p : Param) (attached : Option String) : Except Stop Matches :=
  match p.action, attached with
  | .value _, some v => m.attach p v
  | .value _, none => m.await p none
  | _, some _ => .error .misuse
  | .flag, none =>
    match m.settle with
    | .error s => .error s
    | .ok m => m.set p.name ""
  | .stop s, none =>
    match m.settle with
    | .error s => .error s
    | .ok _ => .error s

/-- Meet the parameters of a cluster of letters. -/
def meetAll (m : Matches) (level : Level) : List Char → Except Stop Matches
  | [] => .ok m
  | c :: cs =>
    match level.params.find? fun p => p.short = some c with
    | none => .error .misuse
    | some p =>
      match m.meet p none with
      | .error s => .error s
      | .ok m => m.meetAll level cs

/-- Take a positional argument. -/
def position (m : Matches) (level : Level) (arg : String) : Except Stop Matches :=
  match level.positionals[m.count]? with
  | none => .error .misuse
  | some p =>
    match m.await p (some arg) with
    | .error s => .error s
    | .ok m => .ok { m with count := m.count + 1 }

/-- Whether a parameter waits for its value. -/
def wantsValue (m : Matches) : Bool :=
  match m.pending with
  | some (_, none) => true
  | _ => false

end Matches

/-- The name and the attached value of a long parameter, after its dashes. -/
def splitLong (cs : List Char) : String × Option String :=
  match cs.dropWhile (· ≠ '=') with
  | [] => (String.ofList cs, none)
  | _ :: value => (String.ofList (cs.takeWhile (· ≠ '=')), some (String.ofList value))

/-- Take an argument that is no subcommand. -/
def Matches.take (m : Matches) (level : Level) (arg : String) : Except Stop Matches :=
  if m.literal then m.position level arg
  else
    match arg.toList with
    | ['-', '-'] => .ok { m with literal := true }
    | '-' :: '-' :: long =>
      let (name, attached) := splitLong long
      match level.params.find? fun p => p.name = name with
      | none => .error .misuse
      | some p => m.meet p attached
    | '-' :: c :: short => m.meetAll level (c :: short)
    | _ =>
      match m.pending with
      | some (p, none) => .ok { m with pending := some (p, some arg) }
      | _ => m.position level arg

/-- Read a level: what it was given, and the subcommand with the arguments behind it. -/
def Level.read (level : Level) (m : Matches) :
    List String → Except Stop (Matches × Option (String × List String))
  | [] => .ok (m, none)
  | arg :: rest =>
    if !m.literal && !m.wantsValue && level.subcommands.contains arg then .ok (m, some (arg, rest))
    else
      match m.take level arg with
      | .error s => .error s
      | .ok m => level.read m rest

end Tsconfig.Command
