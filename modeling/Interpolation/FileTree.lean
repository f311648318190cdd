/-!
# File trees

A file tree is a file with its bytes, or a directory with named entries in the order in which it
lists them. A location is the row of names that leads from the root of a tree to a part of it. A
path is a text from which a location is found, starting from some directory: its components are
taken one by one, and each but a leading slash needs a directory to start from, also an empty one,
a dot or two dots. So a path that goes on behind a file leads nowhere, and so does one that leaves
a directory that is not there.

## Main definitions

* `FileTree`, `FileTree.at?`, `FileTree.put` — trees, their parts, and trees with a part replaced.
* `FileFault` — why a file operation fails; `FileFault.message` says it in words.
* `FileTree.locate` — the location that a path leads to.
* `FileTree.readText`, `FileTree.list` — the text of a file, and the entries of a directory.

## Main results

* `FileTree.at?_append` — a location in a part of a tree is a location in the tree.
-/

namespace Interpolation

/-- A file with its bytes, or a directory with named entries in the order of its listing. -/
inductive FileTree where
  | file (content : ByteArray)
  | directory (entries : List (String × FileTree))

instance : Inhabited FileTree := ⟨.directory []⟩

/-- The names that lead from the root of a tree to a part of it. -/
abbrev Location := List String

/-- A location as an absolute path. -/
def Location.path (location : Location) : String := "/" ++ "/".intercalate location

/-- Why a file operation fails: nothing has the name, a file stands where a directory is needed or
the other way round, or the bytes of a file are not UTF-8. -/
inductive FileFault where
  | notFound
  | notDirectory
  | isDirectory
  | notText
  deriving DecidableEq, Repr

/-- The fault in words, with the number that the system gives it. -/
def FileFault.message : FileFault → String
  | .notFound => "No such file or directory (os error 2)"
  | .notDirectory => "Not a directory (os error 20)"
  | .isDirectory => "Is a directory (os error 21)"
  | .notText => "stream did not contain valid UTF-8"

namespace FileTree

/-! ### Parts of a tree -/

/-- The entry of a directory with a name. -/
def child? (name : String) : FileTree → Option FileTree
  | file _ => none
  | directory entries => entries.lookup name

/-- The part of a tree at a location. -/
def at? (tree : FileTree) : Location → Option FileTree
  | [] => some tree
  | name :: rest => (tree.child? name).bind fun part => part.at? rest

/-- Replace the entry of a name, or add it at the end. -/
def putEntry (name : String) (part : FileTree) :
    List (String × FileTree) → List (String × FileTree)
  | [] => [(name, part)]
  | entry :: rest =>
    if entry.1 = name then (name, part) :: rest else entry :: putEntry name part rest

/-- The entries of a directory; a file has none. -/
def entries : FileTree → List (String × FileTree)
  | file _ => []
  | directory entries => entries

/-- A tree with the part at a location replaced. Directories on the way are made where there are
none. -/
def put : FileTree → Location → FileTree → FileTree
  | _, [], part => part
  | tree, name :: rest, part =>
    directory (putEntry name (((tree.child? name).getD default).put rest part) tree.entries)

theorem at?_cons (tree : FileTree) (name : String) (rest : Location) :
    tree.at? (name :: rest) = (tree.child? name).bind fun part => part.at? rest := rfl

/-- A location in a part of a tree is a location in the tree. -/
theorem at?_append (tree : FileTree) (first second : Location) :
    tree.at? (first ++ second) = (tree.at? first).bind fun part => part.at? second := by
  induction first generalizing tree with
  | nil => rfl
  | cons name rest ih =>
    rw [List.cons_append, at?_cons, at?_cons]
    cases tree.child? name with
    | none => rfl
    | some part => exact ih part

/-! ### Paths -/

/-- The location that one component of a path leads to, starting from a location. -/
def step (tree : FileTree) (start : Location) (component : String) : Except FileFault Location :=
  match tree.at? start with
  | none => .error .notFound
  | some (file _) => .error .notDirectory
  | some (directory entries) =>
    if component = "" ∨ component = "." then .ok start
    else if component = ".." then .ok start.dropLast
    else if (entries.lookup component).isSome then .ok (start ++ [component])
    else .error .notFound

/-- The components of a path. -/
def components (path : String) : List String := (path.toList.splitOn '/').map String.ofList

/-- The location that a path leads to. A path with a leading slash starts from the root of the
tree, any other from the given directory; the empty path leads nowhere. -/
def locate (tree : FileTree) (start : Location) (path : String) : Except FileFault Location :=
  if path = "" then .error .notFound
  else (components path).foldlM tree.step (if path.toList.head? = some '/' then [] else start)

/-! ### Reading -/

/-- The text of the file at a location. -/
def readText (tree : FileTree) (location : Location) : Except FileFault String :=
  match tree.at? location with
  | none => .error .notFound
  | some (directory _) => .error .isDirectory
  | some (file content) =>
    match String.fromUTF8? content with
    | some text => .ok text
    | none => .error .notText

/-- The entries of the directory at a location. -/
def list (tree : FileTree) (location : Location) : Except FileFault (List (String × FileTree)) :=
  match tree.at? location with
  | none => .error .notFound
  | some (file _) => .error .notDirectory
  | some (directory entries) => .ok entries

end FileTree

end Interpolation
