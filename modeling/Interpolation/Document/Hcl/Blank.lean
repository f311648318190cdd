import Interpolation.Document.Hcl.Reader

/-!
# Blanks and comments

Between the parts of a document may stand blanks and comments. Within a line these are spaces,
tabs and comments between `/*` and `*/`, which do not nest. Between lines there are also line ends
and comments from a number sign or two slashes to the end of the line.

A line ends with a line feed, before which a carriage return may stand. A carriage return alone is
a blank between structures, but neither ends a line nor may stand in a comment that does. What only
begins like a comment is not taken.

## Main definitions

* `inlineBlank`, `lineComment`, `anyBlank` — the blank that a text begins with.
* `Reader.skipInline` — blanks within a line.
* `Reader.skipBlank`, `Reader.skipClosing` — blanks across lines, and those at the end of brackets.
* `Reader.newline`, `Reader.lineEnd` — the end of a line, or of the text.
-/

namespace Interpolation.Hcl

/-! ### The blank at the start of a text -/

/-- A text up to the end of the comment that it is inside of, if that comment ends. -/
def commentRest? : List Char → Option (List Char)
  | [] => none
  | '*' :: '/' :: _ => some ['*', '/']
  | c :: rest => (commentRest? rest).map (c :: ·)

/-- The comment that a text begins with and that ends with `*/`, or nothing. -/
def enclosedComment : List Char → List Char
  | '/' :: '*' :: rest => ((commentRest? rest).map ('/' :: '*' :: ·)).getD []
  | _ => []

/-- The blank of a line that a text begins with, or nothing. -/
def inlineBlank : List Char → List Char
  | ' ' :: _ => [' ']
  | '\t' :: _ => ['\t']
  | cs => enclosedComment cs

/-- Whether a line ends here and another one follows. -/
def atNewline : List Char → Bool
  | '\n' :: _ => true
  | '\r' :: '\n' :: _ => true
  | _ => false

/-- Whether the end of a line follows, or the end of the text. -/
def atLineEnd (cs : List Char) : Bool := cs.isEmpty || atNewline cs

/-- Whether two slashes or a number sign follow. -/
def atLineComment : List Char → Bool
  | '#' :: _ => true
  | '/' :: '/' :: _ => true
  | _ => false

/-- The comment that a text begins with and that reaches to the end of its line, or nothing. The
end of the line does not belong to it. -/
def lineComment (cs : List Char) : List Char :=
  let comment := cs.takeWhile fun c => c != '\n' && c != '\r'
  if atLineComment cs && atLineEnd (cs.drop comment.length) then comment else []

/-- The blank that a text begins with, be it a line end or any comment, or nothing. -/
def anyBlank : List Char → List Char
  | '\n' :: _ => ['\n']
  | '\r' :: _ => ['\r']
  | cs => if atLineComment cs then lineComment cs else inlineBlank cs

namespace Reader

/-! ### Taking blanks -/

/-- Take the blank that follows, if one does, and say whether one did. -/
def acceptBlank (blank : List Char → List Char) : Reader Bool := do
  match blank (← ahead) with
  | [] => return false
  | found =>
    let _ ← takeAs .blank found.length
    return true

/-- Take all blanks of a kind. -/
def skipBlanks (blank : List Char → List Char) : Reader Unit := do
  let _ ← collect do
    if ← acceptBlank blank then return some () else return none

/-- Take the blanks of a line. -/
def skipInline : Reader Unit := skipBlanks inlineBlank

/-- Take the blanks, line ends and comments that follow. -/
def skipBlank : Reader Unit := skipBlanks anyBlank

/-- Take the blanks that may stand here: those across lines if the place allows line ends. -/
def skipGap (acrossLines : Bool) : Reader Unit := if acrossLines then skipBlank else skipInline

/-- Take the blanks at the end of brackets. -/
def skipClosing : Reader Unit := do
  let (_, blanks) ← captured skipBlank
  unless blanks.isEmpty do write (.closing blanks.written)

/-- Whether some text follows, perhaps after blanks across lines. -/
def startsAfterBlank (text : String) : Reader Bool := peek do
  skipBlank
  startsWith text

/-- Take the end of a line. -/
def newline : Reader Unit := do
  match ← ahead with
  | '\n' :: _ => skip 1
  | '\r' :: '\n' :: _ => skip 2
  | _ => refuse

/-- Take the end of a line, or nothing at the end of the text. -/
def lineEnd : Reader Unit := do
  unless (← ahead).isEmpty do newline

end Reader

end Interpolation.Hcl
