import Mathlib
import Interpolation.Output.Listing
import Interpolation.Text.Hex

/-!
# A reader of YAML

Names with texts are read from YAML by a reader that knows nothing of how they were written. It
takes a mapping at the margin whose names and values are scalars: plain, in single or double quotes,
or as blocks of lines. A name stands before its colon, or behind a question mark with the colon on a
line of its own. Comments, tags, anchors, brackets and folded lines are unknown to the reader.

Three line breaks are kept as they are: the line feed and the separators of lines and of
paragraphs. Tabs, carriage returns and next lines would be read as something else, so the reader
takes them in double quotes and as escapes only.

## Main definitions

* `Yaml.readPlain`, `Yaml.readSingle?`, `Yaml.readDouble?`, `Yaml.readLines?` — a text in each of
  the styles, and what follows it.
* `Yaml.readValue?` — a scalar with its line end.
* `Yaml.readEntries?` — the names and texts of a mapping, in order.
-/

namespace Interpolation.Yaml

open Text

/-! ### Characters -/

/-- The line breaks that are kept. -/
def IsKept (c : Char) : Prop := c = '\n' ∨ c = '\u2028' ∨ c = '\u2029'

/-- The characters that are not taken as they are. -/
def IsChanged (c : Char) : Prop := c = '\t' ∨ c = '\r' ∨ c = '\x85'

instance : DecidablePred IsKept := fun _ => inferInstanceAs (Decidable (_ ∨ _))

instance : DecidablePred IsChanged := fun _ => inferInstanceAs (Decidable (_ ∨ _))

/-! ### Plain texts -/

/-- Whether a blank, a line break or the end follows. -/
def atGap (cs : List Char) : Bool := cs.head?.all fun c => c == ' ' || decide (IsKept c)

/-- The characters that no plain text begins with. -/
def indicators : List Char :=
  ['#', ',', '[', ']', '\x7b', '\x7d', '&', '*', '!', '|', '>', '\'', '"', '%', '@', '\x60']

/-- Whether a plain text can begin here. -/
def startsPlain : List Char → Bool
  | [] => false
  | c :: rest =>
    c != ' ' && !decide (IsKept c) && !indicators.contains c &&
      !(['-', '?', ':'].contains c && atGap rest)

/-- Whether a plain text ends before a character, with what follows the character. -/
def endsPlain (c : Char) (rest : List Char) : Bool :=
  decide (IsKept c) || decide (IsChanged c) || (c == ':' && atGap rest) ||
    (c == ' ' && rest.head? == some '#')

/-- The characters up to the end of a plain text, and what follows them. -/
def readPlain : List Char → List Char × List Char
  | [] => ([], [])
  | c :: rest => if endsPlain c rest then ([], c :: rest) else Prod.map (c :: ·) id (readPlain rest)

/-! ### Texts in quotes -/

/-- The text before the closing single quote, and what follows the quote. At the start of a line
blanks say nothing. -/
def readSingle? : Bool → List Char → Option (List Char × List Char)
  | _, [] => none
  | _, '\'' :: '\'' :: rest => (readSingle? false rest).map (Prod.map ('\'' :: ·) id)
  | _, '\'' :: rest => some ([], rest)
  | fresh, c :: rest =>
    if c = '\n' ∨ IsChanged c then none
    else if fresh ∧ c = ' ' then readSingle? true rest
    else (readSingle? (decide (IsKept c)) rest).map (Prod.map (c :: ·) id)

/-- The character that a letter behind a backslash stands for. -/
def letterValue? : Char → Option Char
  | '0' => some '\x00'
  | 'a' => some '\x07'
  | 'b' => some '\x08'
  | 't' => some '\t'
  | 'n' => some '\n'
  | 'v' => some '\x0b'
  | 'f' => some '\x0c'
  | 'r' => some '\r'
  | 'e' => some '\x1b'
  | ' ' => some ' '
  | '"' => some '"'
  | '/' => some '/'
  | '\\' => some '\\'
  | 'N' => some '\x85'
  | '_' => some '\xa0'
  | 'L' => some '\u2028'
  | 'P' => some '\u2029'
  | _ => none

/-- The text before the closing double quote, and what follows the quote. -/
def readDouble? : List Char → Option (List Char × List Char)
  | [] => none
  | '"' :: rest => some ([], rest)
  | '\\' :: 'x' :: a :: b :: rest =>
    match ofCodePoint? [a, b] with
    | some c => (readDouble? rest).map (Prod.map (c :: ·) id)
    | none => none
  | '\\' :: 'u' :: a :: b :: c :: d :: rest =>
    match ofCodePoint? [a, b, c, d] with
    | some c => (readDouble? rest).map (Prod.map (c :: ·) id)
    | none => none
  | '\\' :: letter :: rest =>
    match letterValue? letter with
    | some c => (readDouble? rest).map (Prod.map (c :: ·) id)
    | none => none
  | c :: rest =>
    if IsKept c ∨ IsChanged c then none else (readDouble? rest).map (Prod.map (c :: ·) id)

/-! ### Blocks -/

/-- The lines of a block, without the blanks that they are moved in by, and what follows the block.
Of the first line, some blanks are still to be left out. An empty line belongs to the block, any
other that is not moved in ends it. -/
def readLines? (indent : Nat) : Nat → List Char → Option (List Char × List Char)
  | _, [] => some ([], [])
  | left, c :: rest =>
    if IsChanged c then none
    else if IsKept c then (readLines? indent indent rest).map (Prod.map (c :: ·) id)
    else
      match left with
      | 0 => (readLines? indent 0 rest).map (Prod.map (c :: ·) id)
      | n + 1 =>
        if c = ' ' then readLines? indent n rest
        else if n + 1 = indent then some ([], c :: rest)
        else none

/-- A text without the line breaks at its end. -/
def stripped (cs : List Char) : List Char := cs.rdropWhile fun c => decide (IsKept c)

/-- A text with one of the line breaks at its end, if there are any. -/
def clipped (cs : List Char) : List Char :=
  stripped cs ++ (cs.drop (stripped cs).length).take 1

/-- How far the lines of a block are moved in, if a digit says so, and what follows the digit. -/
def readIndent : List Char → Option Nat × List Char
  | [] => (none, [])
  | c :: rest =>
    if '1' ≤ c ∧ c ≤ '9' then (some (c.toNat - '0'.toNat), rest) else (none, c :: rest)

/-- What becomes of the line breaks at the end of a block, and what follows the sign for it. -/
def readChomping : List Char → (List Char → List Char) × List Char
  | '-' :: rest => (stripped, rest)
  | '+' :: rest => (id, rest)
  | cs => (clipped, cs)

/-- The text of a block behind its sign, and what follows the block. If no digit says how far the
lines are moved in, the first one shows it. -/
def readBlock? (cs : List Char) : Option (List Char × List Char) :=
  let counted := readIndent cs
  let chomped := readChomping counted.2
  match chomped.2 with
  | '\n' :: body =>
    let indent := counted.1.getD (body.takeWhile (· == ' ')).length
    (readLines? indent indent body).map (Prod.map chomped.1 id)
  | _ => none

/-! ### Mappings -/

/-- A text on one line, and what follows it. -/
def readInline? : List Char → Option (List Char × List Char)
  | '\'' :: rest => readSingle? false rest
  | '"' :: rest => readDouble? rest
  | cs =>
    let taken := readPlain cs
    if startsPlain cs ∧ taken.1.getLast? ≠ some ' ' then some taken else none

/-- A scalar, and what follows its line end. -/
def readValue? : List Char → Option (List Char × List Char)
  | '|' :: rest => readBlock? rest
  | cs =>
    match readInline? cs with
    | some (text, '\n' :: rest) => some (text, rest)
    | _ => none

/-- A name, and what follows it: the name stands before its colon, or behind a question mark. -/
def readName? : List Char → Option (List Char × List Char)
  | '?' :: ' ' :: rest => readValue? rest
  | cs => readInline? cs

/-- A name, a colon and a scalar, and what follows their line end. -/
def readPair? (cs : List Char) : Option ((String × String) × List Char) :=
  match readName? cs with
  | some (name, ':' :: ' ' :: rest) =>
    (readValue? rest).map fun taken => ((String.ofList name, String.ofList taken.1), taken.2)
  | _ => none

/-- The pairs of a mapping, to the end of the text. -/
def readPairs? (cs : List Char) : Option (List (String × String)) :=
  match readPair? cs with
  | none => none
  | some (pair, []) => some [pair]
  | some (pair, c :: rest) =>
    if (c :: rest).length < cs.length then (readPairs? (c :: rest)).map (pair :: ·) else none
termination_by cs.length

/-- The names and texts of a mapping; an empty one stands in braces. -/
def readEntries? (text : String) : Option (List (String × String)) :=
  if text = "\x7b\x7d\n" then some [] else readPairs? text.toList

end Interpolation.Yaml
