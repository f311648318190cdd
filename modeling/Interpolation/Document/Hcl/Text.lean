import Interpolation.Document.Hcl.Blank
import Interpolation.Document.Hcl.Name
import Interpolation.Document.Hcl.Value

/-!
# Texts

A text is a sequence of parts: literal characters, interpolations and directives. A dollar sign and
a brace begin an interpolation, which holds an expression. A percent sign and a brace begin a
directive: a choice between two texts, or the repetition of one. Doubling the sign makes it literal.

A text in quotes ends with its quote, and knows escapes. Within a directive neither quotes nor
backslashes have a meaning. In its written form a text in quotes has its literal characters escaped
only where they must be.

Interpolations and directives hold expressions, which may hold texts in turn; the readers here
take the reader of expressions as an argument. Directives hold texts with further directives, and
each begins with a character, so directives do not nest deeper than the text is long.

## Main definitions

* `Reader.escape` — the character of an escape.
* `Reader.choice`, `Reader.repetition` — the two directives.
* `Reader.computedPart` — an interpolation or a directive.
* `Reader.literalPart` — one literal character.
* `Reader.quotedText` — a text in quotes.
-/

namespace Interpolation.Hcl.Reader

/-! ### Escapes -/

/-- Take the character whose code point is written with so many hexadecimal digits. -/
def codePoint (width : Nat) : Reader Char := do
  let digits ← take width
  require (digits.length == width)
  match Text.ofCodePoint? digits with
  | none => refuse
  | some c => return c

/-- Take what a letter after a backslash stands for, together with the digits of a code point. -/
def escapedBy (letter : Char) : Reader Char := do
  if letter == 'u' then codePoint 4
  else if letter == 'U' then codePoint 8
  else
    match letterValue? letter with
    | some c => return c
    | none => refuse

/-- Take an escape. -/
def escape : Reader Char := do
  expect "\\"
  let letter ← char
  must (escapedBy letter)

/-! ### Interpolations and directives -/

/-- Take the opening of an interpolation or a tag: its marker, perhaps a tilde, and blanks. -/
def opening (marker : String) : Reader Unit := do
  expect marker
  let _ ← accept "~"
  skipBlank

/-- Take the closing brace of an interpolation or a tag, before which blanks and a tilde may
stand. -/
def closing : Reader Unit := do
  skipBlank
  let _ ← accept "~"
  must (expect "\x7d")

/-- Take an interpolation or a tag of a directive with its content. -/
def braced (marker : String) (content : Reader Unit) : Reader Unit := do
  opening marker
  content
  closing

/-- The marker of a tag. -/
def tagMarker : String := "%\x7b"

/-- Take the tag that ends a directive. A tag must be this one. -/
def endTag (word : String) : Reader Unit := braced tagMarker (must (expect word))

/-- Whether a tag of a directive follows that begins with a given word. -/
def atTag (word : String) : Reader Bool := do
  if ← startsWith tagMarker then
    peek do
      opening tagMarker
      startsWith word
  else return false

/-- Take an expression with the blanks around it. -/
def spaced (expression : Reader Value) : Reader Unit := do
  skipBlank
  let _ ← expression
  skipBlank

/-- Take a name, which must be there, with the blanks around it. -/
def spacedName : Reader Unit := do
  skipBlank
  let _ ← must name
  skipBlank

/-- Take the head of a repetition: one name or two, and what the repetition runs over. -/
def repetitionHead (expression : Reader Value) : Reader Unit := do
  expect "for"
  spacedName
  if ← accept "," then spacedName
  must (expect "in")
  spaced expression

/-- Take a choice: a condition, a text, perhaps another text, and the end. -/
def choice (expression : Reader Value) (inner : Reader Unit) : Reader Unit := do
  braced tagMarker do
    expect "if"
    spaced expression
  inner
  if ← atTag "else" then
    braced tagMarker (expect "else")
    inner
  endTag "endif"

/-- Take a repetition of a text. -/
def repetition (expression : Reader Value) (inner : Reader Unit) : Reader Unit := do
  braced tagMarker (repetitionHead expression)
  inner
  endTag "endfor"

/-- Take an interpolation, a choice or a repetition, if one follows. -/
def computed (expression : Reader Value) (inner : Reader Unit) : Reader (Option Unit) := do
  if ← startsWith "$\x7b" then some <$> braced "$\x7b" (spaced expression)
  else if ← atTag "if" then some <$> choice expression inner
  else if ← atTag "for" then some <$> repetition expression inner
  else return none

/-! ### Parts -/

/-- Take a literal character or a doubled marker, which stands for the marker, if one follows. A
marker with a single sign is not literal. -/
def literalPart : Reader (Option Part) := do
  match ← ahead with
  | [] => return none
  | c :: rest =>
    if atDoubledMarker (c :: rest) then
      skip 3
      return some (.literal [c, '\x7b'])
    else if atMarker (c :: rest) then return none
    else
      skip 1
      return some (.literal [c])

/-- Take the text between two tags of a directive, if directives nest at most so deep. The text ends
where no part of it follows. -/
def innerTextAtMost (expression : Reader Value) : Nat → Reader Unit
  | 0 => refuse
  | depth + 1 => do
    let _ ← collect do
      match ← literalPart with
      | some _ => return some ()
      | none => return (← attempt (computed expression (innerTextAtMost expression depth))).join

/-- Take a part that must be computed, if one follows, and keep it as it is written. -/
def computedPart (expression : Reader Value) : Reader (Option Part) := do
  let depth := (← ahead).length
  let (found, form) ← captured (computed expression (innerTextAtMost expression depth))
  return found.map fun _ => .computed form

/-! ### Texts in quotes -/

/-- Take a part of a text in quotes, unless its closing quote follows. -/
def quotedPart (expression : Reader Value) : Reader (Option Part) := do
  match ← ahead with
  | '"' :: _ => return none
  | '\\' :: _ => return some (.literal [← escape])
  | _ =>
    match ← literalPart with
    | some part => return some part
    | none => computedPart expression

/-- Take the parts of a text in quotes, with its quotes. -/
def partsInQuotes (expression : Reader Value) : Reader (List Part) := do
  expect "\""
  let parts ← collect (quotedPart expression)
  expect "\""
  return Part.join parts

/-- Take a text in double quotes. -/
def quotedText (expression : Reader Value) : Reader Value := do
  let parts ← unwritten (partsInQuotes expression)
  match Part.literalText? parts with
  | some chars =>
    write (.text chars)
    return .text chars
  | none =>
    writeAll (Part.quoted parts)
    return .ofParts parts

end Interpolation.Hcl.Reader
