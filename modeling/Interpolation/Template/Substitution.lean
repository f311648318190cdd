import Interpolation.OrderedMap
import Interpolation.Template.Piece

/-!
# Substitution

Substitution writes every piece of a template once, from left to right: a literal as itself, a
reference as the value of its name, an escape as the escape mode says. A name without a value is
written as nothing. What a reference puts in is not read again, so a value that holds dollar signs
brings no new references.

## Main definitions

* `EscapeMode` — whether an escape stays two dollar signs or becomes one.
* `Template.Piece.write` — the text of one piece.
* `Template.substitute` — the text of a whole template.
-/

namespace Interpolation

/-- What becomes of an escape in a final value: two dollar signs stay two, or become one. -/
inductive EscapeMode where
  | preserve
  | collapse
  deriving DecidableEq, Repr, Inhabited

/-- The text that an escape is written as. -/
def EscapeMode.escape : EscapeMode → List Char
  | .preserve => ['$', '$']
  | .collapse => ['$']

namespace Template

/-- The text of one piece: a reference without a value is written as nothing. -/
def Piece.write (values : Variables) (mode : EscapeMode) : Piece → List Char
  | .literal c => [c]
  | .escape => mode.escape
  | .reference name => ((values.get? name).getD "").toList

@[simp] theorem Piece.write_literal (values : Variables) (mode : EscapeMode) (c : Char) :
    (Piece.literal c).write values mode = [c] := rfl

@[simp] theorem Piece.write_escape (values : Variables) (mode : EscapeMode) :
    Piece.escape.write values mode = mode.escape := rfl

@[simp] theorem Piece.write_reference (values : Variables) (mode : EscapeMode) (name : String) :
    (Piece.reference name).write values mode = ((values.get? name).getD "").toList := rfl

/-- The text of a template with every reference replaced by the value of its name. -/
def substitute (text : String) (values : Variables) (mode : EscapeMode) : String :=
  String.ofList ((pieces text.toList).flatMap (Piece.write values mode))

@[simp] theorem toList_substitute (text : String) (values : Variables) (mode : EscapeMode) :
    (substitute text values mode).toList =
      (pieces text.toList).flatMap (Piece.write values mode) :=
  String.toList_ofList

end Template

end Interpolation
