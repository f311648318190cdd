import Interpolation.CommandLine.Invocation
import Interpolation.Environment
import Interpolation.Expansion.Outcome
import Interpolation.Output.Json
import Interpolation.Output.Yaml
import Interpolation.Sources.Load

/-!
# Runs

A run carries out an invocation in a world: a file tree with a directory to start from, a standard
input and an environment. It first changes directories, then loads the sources of its command, and
then writes what the command shows, some commands line by line. It may fail at any step. What is
written by then stays written, and the errors say why the run failed.

## Main definitions

* `World` — what a run finds around it.
* `RunFault` — why a run fails; `RunFault.lines` says it in words.
* `Task` — steps that write and may fail; `Task.write` — one text.
* `enter` — the world after changing directories.
* `load` — the sources of an input.
* `Command.run` — the task of a command.
* `run` — the report of a list of arguments.
-/

namespace Interpolation.CommandLine

/-- What a run finds around it. -/
structure World where
  /-- The files. -/
  tree : FileTree
  /-- The directory that paths start from. -/
  directory : Location
  /-- The bytes of the standard input. -/
  standardInput : ByteArray
  /-- The environment. -/
  environment : Environment

/-- Why a run fails: a directory to change to is not found or is none, the standard input is not
UTF-8, a source cannot be loaded, an assignment has no equals sign, or the expansion fails. -/
inductive RunFault where
  | unresolvedDirectory (path : String) (fault : FileFault)
  | noDirectory (location : Location)
  | inputNotText
  | load (fault : LoadFault)
  | invalidAssignment (text : String)
  | expansion (cause : Cause)
  deriving DecidableEq

/-- The fault in words, one line for itself and one for each of its causes. -/
def RunFault.lines : RunFault → List String
  | .unresolvedDirectory path fault =>
    ["Failed to resolve path for -C/--directory " ++ path, fault.message]
  | .noDirectory location =>
    ["Failed to set work directory to " ++ location.path, FileFault.notDirectory.message]
  | .inputNotText => [FileFault.notText.message]
  | .load fault => fault.message :: fault.causes
  | .invalidAssignment text => ["Invalid assignment '" ++ text ++ "', expected KEY=VALUE"]
  | .expansion cause => [cause.message]

/-! ### Tasks -/

/-- Steps that write texts one behind the other and may fail on the way. -/
abbrev Task := ExceptT RunFault (StateM String)

/-- Write a text behind what is written. -/
def Task.write (text : String) : Task Unit := modify (· ++ text)

/-- Write lines one by one, each after its number in brackets. The first has the given number. -/
def Task.writeNumbered (number : Nat) : List String → Task Unit
  | [] => pure ()
  | line :: rest => do
    write ("[" ++ toString number ++ "] " ++ line ++ "\n")
    writeNumbered (number + 1) rest

/-! ### Directories -/

/-- The location of the directory that a path leads to. -/
def changeDirectory (tree : FileTree) (start : Location) (path : String) :
    Except RunFault Location :=
  match tree.locate start path with
  | .error fault => .error (.unresolvedDirectory path fault)
  | .ok location =>
    match tree.list location with
    | .ok _ => .ok location
    | .error _ => .error (.noDirectory location)

/-- The world after changing to directories one after the other. -/
def enter (world : World) (paths : List String) : Except RunFault World :=
  (paths.foldlM (changeDirectory world.tree) world.directory).map fun location =>
    { world with directory := location }

/-! ### Sources -/

/-- The name and the value of an assignment, which its first equals sign separates. -/
def splitAssignment? (text : String) : Option (String × String) :=
  match text.toList.dropWhile (· != '=') with
  | [] => none
  | _ :: value => some (String.ofList (text.toList.takeWhile (· != '=')), String.ofList value)

/-- One assignment as an entry of a document. -/
def readAssignment (text : String) : Except RunFault (String × String) :=
  match splitAssignment? text with
  | some entry => .ok entry
  | none => .error (.invalidAssignment text)

/-- Sources with the document of some assignments added, if there are any. -/
def addAssignments (s : Sources) (assignments : List String) : Except RunFault Sources :=
  if assignments.isEmpty then .ok s
  else (assignments.mapM readAssignment).map fun entries => s.add ⟨none, .ofList entries⟩

/-- The sources of a load, if it did not fail. -/
def loaded : Sources × Option LoadFault → Except RunFault Sources
  | (s, none) => .ok s
  | (_, some fault) => .error (.load fault)

/-- The document of assignment lines in the standard input. -/
def loadStandardInput (world : World) : Except RunFault Sources :=
  match String.fromUTF8? world.standardInput with
  | none => .error .inputNotText
  | some text =>
    match Dotenv.read text with
    | .ok vars => .ok (.ofVariables vars)
    | .error fault => .error (.load (.document fault))

/-- The sources of an input: the standard input alone, or files, directories and assignments in
that order. -/
def load (world : World) (input : Input) : Except RunFault Sources := do
  if input.readsStandardInput then loadStandardInput world
  else
    let s ← loaded (Sources.loadEach (Sources.loadFile world.tree world.directory) ∅ input.files)
    let s ← loaded (Sources.loadEach (Sources.loadDirectory world.tree world.directory) s
      input.directories)
    addAssignments s input.assignments

/-- The plan of an input: its variables, over the environment if the input asks for it. -/
def plan (world : World) (input : Input) (escapes : EscapeMode) : Except RunFault Plan := do
  let s ← load world input
  return if input.withEnvironment then
      .withEnvironment world.environment.toVariables s.toVariables escapes
    else ⟨s.toVariables, escapes⟩

/-! ### Commands -/

/-- The final values as text. -/
def showValues (values : Variables) : OutputFormat → String
  | .yaml => Yaml.write (.ofVariables values)
  | .json => Json.pretty (.ofVariables values)
  | .dotenv => Dotenv.render values

/-- A graph as text. -/
def showGraph (g : Graph) : OutputFormat → String
  | .yaml => Yaml.write (.ofGraph g)
  | .json => Json.pretty (.ofGraph g)
  | .dotenv => g.edgeLines

/-- An entry as a line: where it came from, its name and its value. -/
def showEntry (entry : Sources.Entry) : String :=
  entry.origin.getD "<args>" ++ ": " ++ entry.key ++ "=" ++ entry.value

/-- Write what a command shows. -/
def Command.run (world : World) : Command → Task Unit
  | .expand input escapes format => do
    match (← plan world input escapes).expand with
    | .ok values => Task.write (showValues values format)
    | .error failure => throw (.expansion failure.cause)
  | .sources input => do Task.writeNumbered 0 ((← load world input).entries.map showEntry)
  | .graph input format => do
    Task.write (showGraph (← plan world input .preserve).graph format)
  | .order input => do
    match (← plan world input .preserve).order with
    | .ok names => Task.writeNumbered 0 names
    | .error stall => throw (.expansion (.stalled stall))

/-- Write what an invocation shows. -/
def Invocation.run (world : World) (invocation : Invocation) : Task Unit := do
  invocation.command.run (← enter world invocation.directories)

/-! ### Reports -/

/-- What a run leaves behind. -/
structure Report where
  /-- Zero on success, one for a failed run, two for arguments that ask for nothing. -/
  exitCode : Nat
  /-- What the run shows. -/
  output : String
  /-- What it says about its failure. -/
  errors : String
  deriving DecidableEq, Repr

/-- All lines that a fault is told in. -/
def RunFault.text (fault : RunFault) : String := String.join (fault.lines.map (· ++ "\n"))

/-- The report of a task that starts with nothing written. -/
def Report.of (task : Task Unit) : Report :=
  match task.run.run "" with
  | (.ok (), written) => ⟨0, written, ""⟩
  | (.error fault, written) => ⟨1, written, fault.text⟩

/-- The report of arguments that ask for no command. The exit code is that of arguments that
cannot be understood; their message, which says what is wrong with them, is left out, and so are
the texts of help and version. -/
def Report.usage : Report := ⟨2, "", "The arguments cannot be understood.\n"⟩

/-- The report of a list of arguments. -/
def run (world : World) (arguments : List String) : Report :=
  match Invocation.parse? arguments with
  | some invocation => .of (invocation.run world)
  | none => .usage

end Interpolation.CommandLine
