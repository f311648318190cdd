import Interpolation.Output.Yaml.Untyped
import Interpolation.Text.Hex

/-!
# Scalars

A text is written in one of four styles. It stands plain where a reader takes the characters as
they are for that text, and in single quotes where they would be read as something else or as
structure. A text with a line feed is written as a block of lines. Where none of these can hold the
text it stands in double quotes, with escapes: if it has a character that cannot be printed, or
blanks that a line break would swallow.

A line break within a scalar is followed by blanks, as many as the scalar is moved in by, unless the
next line is empty.

## Main definitions

* `Yaml.isPrintable`, `Yaml.isBreak` — the characters that are written as themselves, and those
  that end a line.
* `Yaml.Style`, `Yaml.style` — the four styles, and the style of a text.
* `Yaml.scalar`, `Yaml.scalarLine` — a text as it is written, without and with its line end.
-/

namespace Interpolation.Yaml

open Text

/-! ### Characters -/

/-- The characters that end a line. -/
def isBreak (c : Char) : Bool := ['\n', '\r', '\x85', '\u2028', '\u2029'].contains c

/-- The characters that are written as themselves. -/
def isPrintable (c : Char) : Bool :=
  c == '\n' || (' ' ≤ c && c ≤ '~') ||
    ('\xa0' ≤ c && !(['\ufeff', '\ufffe', '\uffff'].contains c))

/-- Whether somewhere a character of the first kind is followed by one of the second. -/
def holdsPair (first second : Char → Bool) (cs : List Char) : Bool :=
  (cs.zip cs.tail).any fun pair => first pair.1 && second pair.2

/-! ### Structure -/

/-- Whether a blank or the end follows. -/
def atBlankOrEnd : List Char → Bool
  | [] => true
  | c :: _ => c == ' '

/-- Whether a text begins like a structure. -/
def beginsLikeStructure (cs : List Char) : Bool :=
  match cs with
  | [] => false
  | c :: rest =>
    ['#', ',', '[', ']', '\x7b', '\x7d', '&', '*', '!', '|', '>', '\'', '"', '%', '@',
        '\x60'].contains c ||
      ((c == '-' || c == '?' || c == ':') && atBlankOrEnd rest) ||
      "---".toList.isPrefixOf cs || "...".toList.isPrefixOf cs

/-- Whether a mark of structure stands inside a text: a colon before a blank or the end, or a
number sign after a blank. -/
def holdsMark : List Char → Bool
  | [] => false
  | c :: rest =>
    (c == ':' && atBlankOrEnd rest) || (c == ' ' && rest.head? = some '#') || holdsMark rest

/-- Whether a text would be read as structure, or not to its end, if it stood as it is. -/
def readsAsStructure (cs : List Char) : Bool :=
  beginsLikeStructure cs || cs.head? = some ' ' || cs.getLast? = some ' ' || holdsMark cs ||
    cs.any isBreak

/-! ### Styles -/

/-- The styles in which a text is written. -/
inductive Style where
  | plain
  | single
  | double
  | block
  deriving DecidableEq, Repr

/-- The style in which a text is written. -/
def style (cs : List Char) : Style :=
  if !cs.all isPrintable || holdsPair (· == ' ') isBreak cs then .double
  else if cs.contains '\n' then
    if cs.getLast? = some ' ' then .double else .block
  else if holdsPair isBreak (· == ' ') cs then .double
  else if denotesOther cs || readsAsStructure cs then .single
  else .plain

/-! ### Lines -/

/-- A text with blanks before each of its lines that holds something. The first character begins a
line if it is said to be fresh. -/
def indented (indent : Nat) : Bool → List Char → List Char
  | _, [] => []
  | fresh, c :: rest =>
    if isBreak c then c :: indented indent true rest
    else (if fresh then List.replicate indent ' ' else []) ++ c :: indented indent false rest

/-- The sign for the line breaks at the end of a block: a hyphen if there are none, a plus sign if
there is nothing but them or more than one, and no sign otherwise. -/
def chomping (cs : List Char) : List Char :=
  if !cs.getLast?.any isBreak then ['-']
  else if cs.dropLast.getLast?.all isBreak then ['+']
  else []

/-- What stands behind the sign of a block. The blanks before its lines are counted if they cannot
be told from those of the text. -/
def header (cs : List Char) : List Char :=
  (if cs.head?.any fun c => c == ' ' || isBreak c then ['2'] else []) ++ chomping cs

/-! ### Quotes -/

/-- A text with every single quote in it doubled. -/
def doubled (cs : List Char) : List Char :=
  cs.flatMap fun c => if c == '\'' then ['\'', '\''] else [c]

/-- The characters that are escaped with a letter, each with its letter. -/
def escapeLetters : List (Char × Char) :=
  [('\x00', '0'), ('\x07', 'a'), ('\x08', 'b'), ('\t', 't'), ('\n', 'n'), ('\x0b', 'v'),
    ('\x0c', 'f'), ('\r', 'r'), ('\x1b', 'e'), ('"', '"'), ('\\', '\\'), ('\x85', 'N'),
    ('\u2028', 'L'), ('\u2029', 'P')]

/-- How a character is written within double quotes. No character with more than sixteen bits is
escaped. -/
def escaped (c : Char) : List Char :=
  match escapeLetters.lookup c with
  | some letter => ['\\', letter]
  | none =>
    if isPrintable c then [c]
    else if c.toNat < 0x100 then '\\' :: 'x' :: hexDigits upperHexDigit 2 c.toNat
    else '\\' :: 'u' :: hexDigits upperHexDigit 4 c.toNat

/-! ### Scalars -/

/-- A text as it is written. -/
def scalar (indent : Nat) (cs : List Char) : List Char :=
  match style cs with
  | .plain => cs
  | .single => '\'' :: indented indent false (doubled cs ++ ['\''])
  | .double => '"' :: cs.flatMap escaped ++ ['"']
  | .block => '|' :: header cs ++ '\n' :: indented indent true cs

/-- A text as it is written, to the end of its last line. A block may have a line end of its own. -/
def scalarLine (indent : Nat) (cs : List Char) : List Char :=
  scalar indent cs ++ if style cs = .block ∧ cs.getLast?.any isBreak then [] else ['\n']

end Interpolation.Yaml
