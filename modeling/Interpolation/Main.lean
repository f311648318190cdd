import Interpolation.CommandLine.Run

/-!
# The program

The program finds out what its arguments ask for, takes from its surroundings what a run of that
can see, lets the run decide, and passes on the report. Of the file system it takes the parts that
lie on the way of the paths in question; links appear as what they lead to. Standard input and
environment are read only if the input of the command asks for them.

## Main definitions

* `captureWay`, `captureListing` — the parts of the file system on the way of a path, and the
  documents of a directory.
* `main` — the program.
-/

namespace Interpolation.CommandLine

/-- What the file system has at a location, if anything. -/
def found? (location : Location) : IO (Option FileTree) := do
  try
    let path ← IO.FS.realPath location.path
    if ← path.isDir then return some (.directory [])
    else return some (.file (← IO.FS.readBinFile path))
  catch _ => return none

/-- A tree with what the file system has at a location, unless the tree has something there. -/
def captureAt (tree : FileTree) (location : Location) : IO FileTree := do
  if (tree.at? location).isSome then return tree
  match ← found? location with
  | some part => return tree.put location part
  | none => return tree

/-- A tree with everything that lies on the way of a path. -/
def captureWay (start : Location) (tree : FileTree) (path : String) : IO FileTree := do
  let mut tree := tree
  let mut place := if path.startsWith "/" then [] else start
  for component in FileTree.components path do
    if component == ".." then place := place.dropLast
    else unless component == "" || component == "." do place := place ++ [component]
    tree ← captureAt tree place
  return tree

/-- A tree with the documents of the directory that a path leads to. -/
def captureListing (start : Location) (tree : FileTree) (path : String) : IO FileTree := do
  let mut tree ← captureWay start tree path
  match tree.locate start path with
  | .error _ => return tree
  | .ok location =>
    match tree.list location with
    | .error _ => return tree
    | .ok _ =>
      for entry in ← (← IO.FS.realPath location.path).readDir do
        if Sources.isVariablesName entry.fileName then
          let part : FileTree ←
            match (← entry.path.symlinkMetadata).type with
            | .file => pure (.file (← IO.FS.readBinFile entry.path))
            | _ => pure (.directory [])
          tree := tree.put (location ++ [entry.fileName]) part
      return tree

/-- The location of the directory that the program was started in. -/
def startLocation : IO Location := do
  return (FileTree.components (← IO.currentDir).toString).filter (· != "")

/-- The tree of all that an invocation can see when it is started in a directory. -/
def capture (start : Location) (invocation : Invocation) : IO FileTree := do
  let mut tree := FileTree.put default start default
  let mut place := start
  for path in invocation.directories do
    tree ← captureWay place tree path
    match changeDirectory tree place path with
    | .ok location => place := location
    | .error _ => return tree
  let input := invocation.command.input
  for path in input.files do tree ← captureWay place tree path
  for path in input.directories do tree ← captureListing place tree path
  return tree

/-- All bytes of a stream, after those read already. -/
partial def readToEnd (stream : IO.FS.Stream) (read : ByteArray) : IO ByteArray := do
  let next ← stream.read 65536
  if next.isEmpty then return read else readToEnd stream (read ++ next)

/-- The world of an invocation. -/
def surroundings (invocation : Invocation) : IO World := do
  let start ← startLocation
  let input := invocation.command.input
  let standardInput ←
    if input.readsStandardInput then readToEnd (← IO.getStdin) .empty else pure .empty
  let environment ←
    if input.withEnvironment then
      pure (Environment.ofBlock (← IO.FS.readBinFile "/proc/self/environ"))
    else pure []
  return ⟨← capture start invocation, start, standardInput, environment⟩

/-- Pass on a report. -/
def Report.emit (report : Report) : IO UInt32 := do
  IO.print report.output
  IO.eprint report.errors
  return report.exitCode.toUInt32

end Interpolation.CommandLine

open Interpolation.CommandLine in
/-- Carry out what the arguments ask for. -/
def main (arguments : List String) : IO UInt32 := do
  match Invocation.parse? arguments with
  | none => Report.usage.emit
  | some invocation => (Report.of (invocation.run (← surroundings invocation))).emit
