import Interpolation.Text.Blank

/-!
# Margins

The margin of a text on lines is made of the blanks that all its lines but the empty ones begin
with. It can be taken away, and put back as spaces. Either way every line then ends with a line
feed alone.

## Main definitions

* `linesOf` — the lines of a text.
* `marginOf` — the width of the margin.
* `withoutMargin`, `withMargin` — a text with the margin taken away, or put before it.
-/

namespace Interpolation.Hcl

/-- A line without the carriage return at its end, if it has one. -/
def withoutReturn (line : List Char) : List Char :=
  if line.getLast? = some '\r' then line.dropLast else line

/-- The lines of a text, each of which ends with a line feed, without their ends. -/
def linesOf (text : List Char) : List (List Char) := (text.splitOn '\n').dropLast.map withoutReturn

/-- The number of blanks that all lines but the empty ones begin with. -/
def marginOf (lines : List (List Char)) : Nat :=
  let margins := (lines.filter fun line => !line.isEmpty).map fun line =>
    (line.takeWhile Text.isBlank).length
  margins.min?.getD 0

/-- A text without so many blanks before each of its lines. Without any, it stays as it is. -/
def withoutMargin (margin : Nat) (text : List Char) : List Char :=
  if margin = 0 then text
  else (linesOf text).flatMap fun line => line.drop margin ++ ['\n']

/-- A line with so many spaces before it, unless it is empty. -/
def indented (margin : Nat) (line : List Char) : List Char :=
  if line.isEmpty then [] else List.replicate margin ' ' ++ line

/-- A text with so many spaces before each of its lines but the empty ones. -/
def withMargin (margin : Nat) (text : List Char) : List Char :=
  (linesOf text).flatMap fun line => indented margin line ++ ['\n']

end Interpolation.Hcl
