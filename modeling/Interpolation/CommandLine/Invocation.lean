import Interpolation.CommandLine.Arguments
import Interpolation.Template.Substitution

/-!
# Invocations

An invocation is what a list of arguments asks for: a command with its input, and the directories
to change to first. The directories are those given at the deepest level that gives any; others
are not used.

A setting that has one value may be given once. A path must not be empty, and the escapes and the
form of the output each know a few words only. Arguments that break one of these rules ask for
nothing. So do, here, arguments that ask for a help text or for the version: what the program shows
then is left out.

## Main definitions

* `Input` — the files, directories and assignments of a command.
* `Command` — one of the four things the program does.
* `Invocation` — a command and the directories to change to.
* `Invocation.parse?` — what a list of arguments asks for.
-/

namespace Interpolation.CommandLine

/-- The form of an output. -/
inductive OutputFormat where
  | yaml
  | json
  | dotenv
  deriving DecidableEq, Repr

/-- The form with a name. -/
def OutputFormat.ofName? : String → Option OutputFormat
  | "yaml" => some .yaml
  | "json" => some .json
  | "dotenv" => some .dotenv
  | _ => none

/-- The escape mode with a name. -/
def escapeModeOfName? : String → Option EscapeMode
  | "preserve" => some .preserve
  | "collapse" => some .collapse
  | _ => none

/-- Where the variables of a command come from. -/
structure Input where
  /-- The files to load. -/
  files : List String
  /-- The directories to load. -/
  directories : List String
  /-- Whether all variables are layered over the environment. -/
  withEnvironment : Bool
  /-- The assignments, which come last. -/
  assignments : List String
  deriving DecidableEq, Repr

/-- Standard input is read when nothing else gives variables; the environment does not count. -/
def Input.readsStandardInput (input : Input) : Bool :=
  input.files.isEmpty && input.directories.isEmpty && input.assignments.isEmpty

/-- What the program is to show: final values, all entries with their origins, the graph, or the
names in the order of their expansion. -/
inductive Command where
  | expand (input : Input) (escapes : EscapeMode) (format : OutputFormat)
  | sources (input : Input)
  | graph (input : Input) (format : OutputFormat)
  | order (input : Input)
  deriving DecidableEq, Repr

/-- Where the variables of a command come from. -/
def Command.input : Command → Input
  | .expand input _ _ | .sources input | .graph input _ | .order input => input

/-- What a list of arguments asks for. -/
structure Invocation where
  /-- The directories to change to, one after the other, before anything else. -/
  directories : List String
  /-- What to do there. -/
  command : Command
  deriving DecidableEq, Repr

/-! ### Values of settings -/

/-- The values that a setting is given, in order. -/
def valuesOf (setting : Setting) (items : List Item) : List String :=
  items.filterMap fun
    | .set _ given value => if given = setting then some value else none
    | .assignment _ => none

/-- The assignments in order. -/
def assignmentsOf (items : List Item) : List String :=
  items.filterMap fun
    | .set _ _ _ => none
    | .assignment text => some text

/-- The paths that a setting is given, none of which may be empty. -/
def pathsOf? (setting : Setting) (items : List Item) : Option (List String) :=
  let paths := valuesOf setting items
  if paths.contains "" then none else some paths

/-- The value of a setting that may be given once, read by name, or what holds if it is not. -/
def valueOf? {α : Type} (setting : Setting) (read : String → Option α) (default : α)
    (items : List Item) : Option α :=
  match valuesOf setting items with
  | [] => some default
  | [value] => read value
  | _ => none

/-- The items of a level. -/
def itemsAt (level : Nat) (items : List Item) : List Item :=
  items.filter fun
    | .set given _ _ => given.depth == level
    | .assignment _ => false

/-- The directories to change to: those given at the deepest level that gives any. -/
def changesOf (items : List Item) : List String :=
  let given (level : Nat) : List String := valuesOf .changeDirectory (itemsAt level items)
  if !(given 2).isEmpty then given 2
  else if !(given 1).isEmpty then given 1
  else given 0

/-- Where the items of a command say that its variables come from. -/
def inputOf? (items : List Item) : Option Input := do
  let files ← pathsOf? .inputFile items
  let directories ← pathsOf? .inputDirectory items
  let withEnvironment ← valueOf? .withEnvironment (fun _ => some true) false items
  return ⟨files, directories, withEnvironment, assignmentsOf items⟩

/-- The form of the output that items ask for. -/
def formatOf? (items : List Item) : Option OutputFormat :=
  valueOf? .outputFormat OutputFormat.ofName? .yaml items

/-- The command of a level with its items; some levels are no command yet. -/
def commandOf? (level : Level) (items : List Item) : Option Command := do
  let input ← inputOf? items
  match level with
  | .program | .dev => none
  | .expand =>
    return .expand input (← valueOf? .escapes escapeModeOfName? .preserve items)
      (← formatOf? items)
  | .sources => return .sources input
  | .graph => return .graph input (← formatOf? items)
  | .order => return .order input

/-- What a list of arguments asks for, if it is one of the commands. Help and version are none. -/
def Invocation.parse? (arguments : List String) : Option Invocation := do
  let (items, level) ← readItems .program none arguments
  let _ ← pathsOf? .changeDirectory items
  return ⟨changesOf items, ← commandOf? level items⟩

end Interpolation.CommandLine
