import Interpolation.Text.Word

/-!
# The pieces of a template

A template is a text in which the dollar sign is a marker. Read from left to right it falls into
pieces: two dollar signs in a row are an escape, which stands for no reference; one dollar sign
begins a reference to the longest word that follows it, which may be empty; every other character
stands for itself. An escape is looked for before a reference, so `$$$x` is an escape followed by
a reference to `x`. There is no form with braces.

## Main definitions

* `Template.Piece` — a literal character, an escape or a reference.
* `Template.pieces` — the pieces of a text.
* `Template.references` — the referenced names in order, repeats kept.
* `Template.dependencies` — the referenced names in order of first appearance, without repeats.
* `Template.isExpanded` — no reference is left.

## Main results

* `Template.pieces_escape`, `Template.pieces_reference`, `Template.pieces_literal` — one equation
  for each kind of piece.
* `Template.dependencies_eq_nil_iff` — a text without dependencies is expanded, and conversely.
-/

namespace Interpolation

/-- One piece of a template: a character that stands for itself, two dollar signs, or a dollar sign
and the name after it, which may be empty. -/
inductive Template.Piece where
  | literal (c : Char)
  | escape
  | reference (name : String)
  deriving DecidableEq, Repr

namespace Template

open Text

/-! ### Reading the pieces -/

/-- The pieces of a text, from left to right. -/
def pieces : List Char → List Piece
  | [] => []
  | '$' :: '$' :: rest => .escape :: pieces rest
  | '$' :: rest => .reference (String.ofList (leadingWord rest)) :: pieces (afterWord rest)
  | c :: rest => .literal c :: pieces rest
termination_by cs => cs.length
decreasing_by
  all_goals simp only [List.length_cons]
  · omega
  · have := length_afterWord_le rest
    omega
  · omega

@[simp] theorem pieces_nil : pieces [] = [] := by rw [pieces]

/-- Two dollar signs are an escape. -/
theorem pieces_escape (rest : List Char) :
    pieces ('$' :: '$' :: rest) = .escape :: pieces rest := by rw [pieces]

/-- A dollar sign before anything but a dollar sign refers to the word after it. -/
theorem pieces_reference {rest : List Char} (h : rest.head? ≠ some '$') :
    pieces ('$' :: rest) =
      .reference (String.ofList (leadingWord rest)) :: pieces (afterWord rest) := by
  rw [pieces]
  rintro tail rfl
  exact h rfl

/-- A character other than the dollar sign stands for itself. -/
theorem pieces_literal {c : Char} (h : c ≠ '$') (rest : List Char) :
    pieces (c :: rest) = .literal c :: pieces rest := by
  rw [pieces]
  · exact fun tail hc _ => h hc
  · exact h

/-! ### The names of a template -/

/-- The name that a piece refers to. -/
def Piece.name? : Piece → Option String
  | .reference name => some name
  | _ => none

/-- The names that a text refers to, in order and with repeats. -/
def references (text : String) : List String := (pieces text.toList).filterMap Piece.name?

/-- The names that a text refers to, each at its first appearance. -/
def dependencies (text : String) : List String := (references text).eraseDups

/-- A text is expanded when it refers to no name; escapes do not count. -/
def isExpanded (text : String) : Bool := (references text).isEmpty

/-- A name is a dependency exactly when a piece refers to it. -/
theorem mem_dependencies {text name : String} :
    name ∈ dependencies text ↔ name ∈ references text := by
  simp [dependencies]

/-- A text has no dependencies exactly when it is expanded. -/
theorem dependencies_eq_nil_iff {text : String} : dependencies text = [] ↔ isExpanded text := by
  unfold dependencies isExpanded
  cases references text <;> simp [List.eraseDups_cons]

end Template

end Interpolation
