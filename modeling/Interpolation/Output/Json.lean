import Interpolation.Output.Listing
import Interpolation.Text.Hex

/-!
# Listings as JSON

A listing is written as one object whose members are in the order of the listing. Texts stand in
double quotes; only the double quote, the backslash and the control characters below the space are
escaped, and every other character stands for itself.

## Main definitions

* `Json.quoted` — a text as a JSON string.
* `Json.compact` — a listing on one line, without any space.
* `Json.pretty` — a listing with one member or item on a line, indented by two spaces a level.
-/

namespace Interpolation.Json

open Text

/-- How a character stands between the quotes. -/
def escaped (c : Char) : List Char :=
  match c with
  | '"' => ['\\', '"']
  | '\\' => ['\\', '\\']
  | '\x08' => ['\\', 'b']
  | '\t' => ['\\', 't']
  | '\n' => ['\\', 'n']
  | '\x0c' => ['\\', 'f']
  | '\r' => ['\\', 'r']
  | _ =>
    if c.toNat < 0x20 then '\\' :: 'u' :: hexDigits lowerHexDigit 4 c.toNat else [c]

/-- A text as a JSON string. -/
def quoted (text : String) : String :=
  "\"" ++ String.ofList (text.toList.flatMap escaped) ++ "\""

/-! ### On one line -/

/-- A content without any space. -/
def compactContent : Listing.Content → String
  | .text text => quoted text
  | .items items => "[" ++ ",".intercalate (items.map quoted) ++ "]"

/-- A listing as one object, without any space. -/
def compact (listing : Listing) : String :=
  "\x7b" ++ ",".intercalate (listing.map fun entry =>
    quoted entry.1 ++ ":" ++ compactContent entry.2) ++ "\x7d"

/-! ### On many lines -/

/-- Parts between brackets, each on a line of its own; nothing between them if there are none. -/
def block (opening closing : String) (level : Nat) (parts : List String) : String :=
  let margin (n : Nat) : String := "\n" ++ String.ofList (List.replicate (2 * n) ' ')
  if parts.isEmpty then opening ++ closing
  else
    opening ++ ",".intercalate (parts.map (margin (level + 1) ++ ·)) ++ margin level ++ closing

/-- A content, the lines of which are indented one level more than its own. -/
def prettyContent (level : Nat) : Listing.Content → String
  | .text text => quoted text
  | .items items => block "[" "]" level (items.map quoted)

/-- A listing as one object, with one member or item on a line. -/
def pretty (listing : Listing) : String :=
  block "\x7b" "\x7d" 0 (listing.map fun entry => quoted entry.1 ++ ": " ++ prettyContent 1 entry.2)

end Interpolation.Json
