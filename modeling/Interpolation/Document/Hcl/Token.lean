import Interpolation.Document.Hcl.Escape
import Interpolation.Document.Hcl.Margin
import Interpolation.Document.Hcl.Marker
import Interpolation.Document.Hcl.Number

/-!
# Written forms

The written form of an expression is the row of tokens that it is written with. How a token is
written does not depend on its neighbours, with one exception: the literal characters of a text with
parts to compute are escaped if they follow an opening quote more closely than a closing one. The
lines of a text with a margin are written by themselves.

Two forms are alike if they say the same. Blanks say nothing and numbers may be spelled in several
ways. The entries of an object may stand in any order. Blanks at the end of brackets, however, are
taken for something that stands in its place only, so forms with such blanks are never alike.

## Main definitions

* `Token`, `Entry` — a piece of a written form, and an entry of an object.
* `Form`, `Form.written` — a written form, and its text.
* `Form.alike` — whether two forms say the same.
-/

namespace Interpolation.Hcl

mutual

/-- A piece of a written form. A `blank` says nothing, nor does what is `closing`, which stands at
the end of brackets. What is `plain` is spelled in one way only, and a number as it was spelled. A
`text` is literal throughout; the other quotes belong to texts with parts to compute, and what is
`literal` stands between such parts, or on lines. -/
inductive Token where
  | blank (chars : List Char)
  | closing (chars : List Char)
  | plain (chars : List Char)
  | number (value : Number) (chars : List Char)
  | text (chars : List Char)
  | openQuote
  | closeQuote
  | literal (chars : List Char)
  | lines (margin : Nat) (content : List Token)
  | object (entries : List Entry)

/-- An entry of an object: its key with the blanks before it, and what follows the key. -/
inductive Entry where
  | of (key rest : List Token)

end

/-- The key of an entry, with the blanks before it. -/
def Entry.key : Entry → List Token
  | .of key _ => key

/-- What follows the key of an entry. -/
def Entry.rest : Entry → List Token
  | .of _ rest => rest

/-- A written form is a row of tokens. -/
abbrev Form := List Token

/-! ### Writing -/

/-- A text, and whether a text that follows it is escaped. -/
abbrev Written := List Char × Bool

mutual

/-- Write a token. -/
def Token.write (escaping : Bool) : Token → Written
  | .blank chars => (chars, escaping)
  | .closing chars => (chars, escaping)
  | .plain chars => (chars, escaping)
  | .number _ chars => (chars, escaping)
  | .openQuote => (['"'], true)
  | .closeQuote => (['"'], false)
  | .text chars => ('"' :: (writeLiteral chars).flatMap escaped ++ ['"'], escaping)
  | .literal chars =>
    let written := writeLiteral chars
    (if escaping then written.flatMap escaped else written, escaping)
  | .lines margin content => (withMargin margin (Form.write false content).1, escaping)
  | .object entries => Entry.writeAll escaping entries

/-- Write the tokens of a form one after another. -/
def Form.write (escaping : Bool) : List Token → Written
  | [] => ([], escaping)
  | token :: form =>
    let (chars, after) := token.write escaping
    let (more, after) := Form.write after form
    (chars ++ more, after)

/-- Write an entry. -/
def Entry.write (escaping : Bool) : Entry → Written
  | .of key rest =>
    let (chars, after) := Form.write escaping key
    let (more, after) := Form.write after rest
    (chars ++ more, after)

/-- Write entries one after another. -/
def Entry.writeAll (escaping : Bool) : List Entry → Written
  | [] => ([], escaping)
  | entry :: entries =>
    let (chars, after) := entry.write escaping
    let (more, after) := Entry.writeAll after entries
    (chars ++ more, after)

end

/-- The text of a form. -/
def Form.written (form : Form) : List Char := (Form.write false form).1

/-! ### Likeness -/

/-- Whether a token says nothing. -/
def Token.isBlank : Token → Bool
  | .blank _ => true
  | _ => false

mutual

/-- Whether two tokens say the same. -/
def Token.alike : Token → Token → Bool
  | .plain chars, .plain others => chars == others
  | .number value _, .number other _ => value.alike other
  | .openQuote, .openQuote => true
  | .closeQuote, .closeQuote => true
  | .text chars, .text others => chars == others
  | .literal chars, .literal others => chars == others
  | .lines margin content, .lines other others => margin == other && Form.alike content others
  | .object entries, .object others =>
    entries.length == others.length && Entry.allAmong others entries
  | _, _ => false

/-- Whether two forms say the same. -/
def Form.alike : List Token → List Token → Bool
  | [], others => others.all Token.isBlank
  | token :: form, others =>
    if token.isBlank then Form.alike form others
    else
      match others.dropWhile Token.isBlank with
      | [] => false
      | other :: others => token.alike other && Form.alike form others

/-- Whether the first of some entries with a key like that of this one says the same. -/
def Entry.among (others : List Entry) : Entry → Bool
  | .of key rest =>
    match others.find? fun other => Form.alike key other.key with
    | some other => Form.alike rest other.rest
    | none => false

/-- Whether entries are all found among others. -/
def Entry.allAmong (others : List Entry) : List Entry → Bool
  | [] => true
  | entry :: entries => entry.among others && Entry.allAmong others entries

end

end Interpolation.Hcl
