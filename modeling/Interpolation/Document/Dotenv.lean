import Interpolation.Document.Fault
import Interpolation.OrderedMap
import Interpolation.Text.Blank
import Interpolation.Text.Word

/-!
# Documents of assignment lines

A document in the dotenv form has one assignment on a line, `KEY=VALUE`. Blank lines and lines
that begin with a number sign say nothing. White space around a line, a key or a value does not
count; the word `export` and one space may stand before the key. A value in matching quotes loses
one pair of them, and nothing inside a value is an escape. A key that is assigned again keeps its
place and takes the last value.

## Main definitions

* `Dotenv.Line`, `Dotenv.Line.read` — what one line says.
* `Dotenv.readLines`, `Dotenv.read` — the variables of a document, or its first malformed line.
* `Dotenv.render` — the document that assigns some values, one on a line.

## Main results

* `Dotenv.readLines_cons_assignment` and its companions — one equation for each kind of line.
-/

namespace Interpolation.Dotenv

open Document Text

/-! ### Quotes -/

/-- The text between a pair of one quote character that encloses all of it. -/
def between? (quote : Char) : List Char → Option (List Char)
  | [] => none
  | c :: rest => if c = quote ∧ rest.getLast? = some quote then some rest.dropLast else none

/-- A text without the pair of double or single quotes that encloses it, if there is one. -/
def unquote (cs : List Char) : List Char :=
  ((between? '"' cs).or (between? '\'' cs)).getD cs

/-! ### Lines -/

/-- What one line of a document says. An empty line and a comment are silent. -/
inductive Line where
  | silent
  | assignment (key value : String)
  | malformed
  deriving DecidableEq, Repr

/-- A line without the word `export` and the space after it. -/
def afterExport (cs : List Char) : List Char :=
  if "export ".toList.isPrefixOf cs then cs.drop "export ".length else cs

/-- A key is a word that is not empty. -/
def isKey (cs : List Char) : Bool := !cs.isEmpty && cs.all isWordChar

/-- What a line says that holds more than a comment: the key ends at the first equals sign. -/
def Line.readAssignment (cs : List Char) : Line :=
  match cs.dropWhile (· != '=') with
  | [] => .malformed
  | _ :: value =>
    let key := trim (cs.takeWhile (· != '='))
    if isKey key then .assignment (String.ofList key) (String.ofList (unquote (trim value)))
    else .malformed

/-- What a line says. -/
def Line.read (cs : List Char) : Line :=
  match trim cs with
  | [] => .silent
  | '#' :: _ => .silent
  | line => .readAssignment (afterExport line)

/-! ### Documents -/

/-- Read lines in order into some variables; the first line has the given number. -/
def readLines (number : Nat) (vars : Variables) :
    List (List Char) → Except Fault Variables
  | [] => .ok vars
  | line :: rest =>
    match Line.read line with
    | .silent => readLines (number + 1) vars rest
    | .assignment key value => readLines (number + 1) (vars.insert key value) rest
    | .malformed => .error (.malformedLine number)

/-- The variables of a document, or the number of its first malformed line. -/
def read (text : String) : Except Fault Variables :=
  readLines 1 ∅ (text.toList.splitOn '\n')

theorem readLines_cons_silent {line : List Char} (h : Line.read line = .silent) (number : Nat)
    (vars : Variables) (rest : List (List Char)) :
    readLines number vars (line :: rest) = readLines (number + 1) vars rest := by
  simp [readLines, h]

theorem readLines_cons_assignment {line : List Char} {key value : String}
    (h : Line.read line = .assignment key value) (number : Nat) (vars : Variables)
    (rest : List (List Char)) :
    readLines number vars (line :: rest) =
      readLines (number + 1) (vars.insert key value) rest := by
  simp [readLines, h]

theorem readLines_cons_malformed {line : List Char} (h : Line.read line = .malformed)
    (number : Nat) (vars : Variables) (rest : List (List Char)) :
    readLines number vars (line :: rest) = .error (.malformedLine number) := by
  simp [readLines, h]

/-! ### Rendering -/

/-- The line that assigns a value. -/
def renderEntry (entry : String × String) : String := entry.1 ++ "=" ++ entry.2 ++ "\n"

/-- One line for each value, written as it is. -/
def render (values : Variables) : String := String.join (values.entries.map renderEntry)

end Interpolation.Dotenv
