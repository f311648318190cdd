import Interpolation.Document.Dotenv
import Interpolation.Document.Hcl
import Interpolation.FileTree
import Interpolation.Sources.Basic

/-!
# Loading sources

Documents are loaded from the files of a tree. The name of a file decides its form: HCL if it ends
in `.hcl` and is longer than that, assignment lines otherwise. Of a directory, the files whose
names end in `.env` or `vars.hcl` are loaded in the order of their names; what its subdirectories
hold does not count. A load that fails keeps what was loaded before.

## Main definitions

* `LoadFault` — why a load fails; `LoadFault.message` says it in words.
* `Source.read` — the document in the file at a location.
* `Sources.loadFile`, `Sources.loadDirectory` — sources with one file or one directory added.
* `Sources.variableFiles` — the names of a directory that are loaded, in order.
-/

namespace Interpolation

open Document

/-- Why a load fails: no file of a directory is a document of variables, a file operation fails, or
the text of a document has a fault. -/
inductive LoadFault where
  | noFilesFound
  | file (fault : FileFault)
  | document (fault : Fault)
  deriving DecidableEq, Repr

/-- The fault in words. -/
def LoadFault.message : LoadFault → String
  | .noFilesFound => "No files found in directory"
  | .file _ => "IO error"
  | .document fault => fault.message

/-- What lies behind the fault, in words. Where the text of an HCL document cannot be read, the
place and the rule that its reader names are left out. -/
def LoadFault.causes : LoadFault → List String
  | .file fault => [fault.message]
  | _ => []

/-! ### Files -/

/-- Whether a text ends in another. -/
def endsIn (ending text : String) : Bool := ending.toList.isSuffixOf text.toList

/-- Whether the name of a file says that it is in the HCL form. -/
def isHclName (name : String) : Bool := endsIn ".hcl" name && name != ".hcl"

/-- The variables of a document in the form that the name of its file says. -/
def readDocument (name text : String) : Except Fault Variables :=
  if isHclName name then Hcl.read text else Dotenv.read text

/-- The document in the file at a location. -/
def Source.read (tree : FileTree) (location : Location) : Except LoadFault Source :=
  match tree.readText location with
  | .error fault => .error (.file fault)
  | .ok text =>
    match readDocument (location.getLast?.getD "") text with
    | .error fault => .error (.document fault)
    | .ok content => .ok ⟨some location.path, content⟩

namespace Sources

/-- Add the document in the file at a location. Where that fails, the sources stay as they are. -/
def loadAt (tree : FileTree) (s : Sources) (location : Location) : Sources × Option LoadFault :=
  match Source.read tree location with
  | .ok document => (s.add document, none)
  | .error fault => (s, some fault)

/-- Add the document in the file that a path leads to. -/
def loadFile (tree : FileTree) (start : Location) (s : Sources) (path : String) :
    Sources × Option LoadFault :=
  match tree.locate start path with
  | .error fault => (s, some (.file fault))
  | .ok location => s.loadAt tree location

/-- Apply a load to one item after the other, up to the first that fails. -/
def loadEach {α : Type} (load : Sources → α → Sources × Option LoadFault) (s : Sources) :
    List α → Sources × Option LoadFault
  | [] => (s, none)
  | item :: rest =>
    match load s item with
    | (s, none) => loadEach load s rest
    | (s, some fault) => (s, some fault)

/-! ### Directories -/

/-- Whether the name of a file says that it is loaded with its directory. -/
def isVariablesName (name : String) : Bool := endsIn ".env" name || endsIn "vars.hcl" name

/-- Whether an entry of a directory is loaded with it: a file with a name that says so. -/
def isVariablesFile : String × FileTree → Bool
  | (name, .file _) => isVariablesName name
  | (_, .directory _) => false

/-- The names of the entries that are loaded with a directory, in order. -/
def variableFiles (entries : List (String × FileTree)) : List String :=
  ((entries.filter isVariablesFile).map Prod.fst).mergeSort fun a b => decide (a ≤ b)

/-- Add the documents in the files of the directory that a path leads to. -/
def loadDirectory (tree : FileTree) (start : Location) (s : Sources) (path : String) :
    Sources × Option LoadFault :=
  match tree.locate start path with
  | .error fault => (s, some (.file fault))
  | .ok location =>
    match tree.list location with
    | .error fault => (s, some (.file fault))
    | .ok entries =>
      match variableFiles entries with
      | [] => (s, some .noFilesFound)
      | names => s.loadEach (fun s name => s.loadAt tree (location ++ [name])) names

end Sources

end Interpolation
