import Interpolation.Document.Hcl.Text

/-!
# Texts on lines

A text may stand on lines of its own: after two less-than signs, a mark and a line end, up to the
next line that begins, after spaces and tabs, with the mark. There are no quotes and no escapes in
it, and its last line end belongs to it. Only a line that another line precedes can end the text;
but if nothing else does, the first line may, and then the text is empty.

The mark may be preceded by a hyphen: then the text loses its margin, for which spaces stand in the
written form.

## Main definitions

* `Reader.beforeMark` — where a text ends.
* `LineText` — a text on lines; `LineText.form` is how it is written.
* `Reader.textOnLines` — a text between two marks.
-/

namespace Interpolation.Hcl

/-- The number of blanks that all lines begin with. Only a text that is literal throughout has them
removed, since any other has no value. -/
def Part.marginOf : List Part → Nat
  | [.literal text] => Hcl.marginOf (linesOf text)
  | _ => 0

/-! ### Texts -/

/-- A text on lines. -/
structure LineText where
  /-- What the line that ends the text begins with. -/
  mark : List Char
  /-- The number of blanks that were removed from each line. -/
  margin : Nat
  /-- The parts of the text, without the margin. -/
  parts : List Part
  /-- The blanks before the mark that ends the text. -/
  closing : List Char

namespace LineText

/-- How the parts of a text on lines are written. -/
def content (text : LineText) : Form :=
  let forms := Part.forms text.parts
  if text.margin = 0 then forms else [.lines text.margin forms]

/-- How a text on lines is written: with a hyphen only if it has a margin. -/
def form (text : LineText) : Form :=
  .plain ("<<".toList ++ (if text.margin = 0 then [] else ['-']) ++ text.mark ++ ['\n']) ::
    text.content ++
    (if text.closing.isEmpty then [] else [.closing text.closing]) ++ [.plain text.mark]

end LineText

namespace Reader

/-! ### Marks -/

/-- Whether a line begins, after spaces and tabs, with a mark. -/
def atMark (mark : List Char) (line : List Char) : Bool :=
  mark.isPrefixOf (line.dropWhile fun c => c == ' ' || c == '\t')

/-- Whether a line ends here and the next begins, after spaces and tabs, with a mark. -/
def beforeMark (mark : List Char) : List Char → Bool
  | '\n' :: rest => atMark mark rest
  | '\r' :: '\n' :: rest => atMark mark rest
  | _ => false

/-- Take a part of a text on lines, unless its last line ends here. -/
def linePart (expression : Reader Value) (mark : List Char) : Reader (Option Part) := do
  if beforeMark mark (← ahead) then return none
  else
    match ← literalPart with
    | some part => return some part
    | none => computedPart expression

/-- Take the parts of a text on lines, with its last line end. -/
def someLineParts (expression : Reader Value) (mark : List Char) : Reader (List Part) := do
  let parts ← collect (linePart expression mark)
  let (_, lineEnd) ← captured newline
  return Part.join (parts ++ [.literal lineEnd.written])

/-- Take the parts of a text on lines, or nothing if there is no line that ends the text. -/
def lineParts (expression : Reader Value) (mark : List Char) : Reader (List Part) :=
  return (← attempt (someLineParts expression mark)).getD []

/-- Take a text on lines with its marks. -/
def lineText (expression : Reader Value) : Reader LineText := do
  expect "<<"
  let trimmed ← accept "-"
  let mark := (← must name).toList
  must newline
  let parts ← lineParts expression mark
  let closing ← takeWhile fun c => c == ' ' || c == '\t'
  must (expect (String.ofList mark))
  let margin := if trimmed then Part.marginOf parts else 0
  return ⟨mark, margin, parts.map (Part.mapLiteral (withoutMargin margin)), closing⟩

/-- Take a text on lines and say what it stands for. -/
def textOnLines (expression : Reader Value) : Reader Value := do
  let text ← unwritten (lineText expression)
  writeAll text.form
  return .ofParts text.parts

end Reader

end Interpolation.Hcl
