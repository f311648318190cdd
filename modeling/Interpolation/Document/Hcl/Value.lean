import Interpolation.Document.Hcl.Token

/-!
# Values

What an attribute may be set to, as far as a document of variables can tell: a text, a number, a
truth value, or something that would have to be computed. A text is a sequence of parts, which are
literal or would have to be computed; a text in quotes that is literal throughout is simply its
characters, and any other text is kept in its written form.

## Main definitions

* `Part` — a literal part of a text, or one that must be computed.
* `Part.join` — parts with the literal ones that stand side by side put together.
* `Part.literalText?` — the characters of parts that are literal throughout.
* `Part.forms`, `Part.quoted` — how parts are written, and as a text in quotes.
* `Value` — what an attribute is set to; `Value.text?` is its text, if it has one.
-/

namespace Interpolation.Hcl

/-- A part of a text: characters that stand for themselves, or what must be computed, as it is
written. -/
inductive Part where
  | literal (chars : List Char)
  | computed (form : Form)

namespace Part

/-- The characters of a literal part. -/
def literal? : Part → Option (List Char)
  | .literal chars => some chars
  | .computed _ => none

/-- The characters of parts that are literal throughout. -/
def literalText? (parts : List Part) : Option (List Char) :=
  (parts.mapM literal?).map List.flatten

/-- Put a part before others. Two literal parts side by side become one. -/
def cons : Part → List Part → List Part
  | .literal chars, .literal more :: rest => .literal (chars ++ more) :: rest
  | part, rest => part :: rest

/-- Parts with the literal ones that stand side by side put together. -/
def join (parts : List Part) : List Part := parts.foldr cons []

/-- The part with its literal characters changed. -/
def mapLiteral (f : List Char → List Char) : Part → Part
  | .literal chars => .literal (f chars)
  | .computed form => .computed form

/-- How a part is written. -/
def form : Part → Form
  | .literal chars => [.literal chars]
  | .computed form => form

/-- How parts are written one after another. -/
def forms (parts : List Part) : Form := parts.flatMap form

/-- How parts are written as a text in quotes. -/
def quoted (parts : List Part) : Form := .openQuote :: forms parts ++ [.closeQuote]

end Part

/-- What an attribute is set to. A `text` stands in quotes and is literal throughout. A `template`
stands on lines, or in quotes with parts to compute, and is kept in its written form. -/
inductive Value where
  | text (chars : List Char)
  | template (written : List Char)
  | number (n : Number)
  | truth (value : Bool)
  | computed
  deriving DecidableEq, Repr

/-- The text with these parts, in its written form. -/
def Value.ofParts (parts : List Part) : Value := .template (Form.written (Part.forms parts))

/-- The text of a value that needs no computing. -/
def Value.text? : Value → Option String
  | .text chars => some (String.ofList chars)
  | .template written => (readLiteral? written).map String.ofList
  | .number n => some n.text
  | .truth value => some (if value then "true" else "false")
  | .computed => none

end Interpolation.Hcl
