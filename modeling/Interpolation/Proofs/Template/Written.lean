import Interpolation.Proofs.Template.Expanded

/-!
# What a template is written as

Substitution looks at the values of the referenced names and at nothing else. With escapes
preserved it leaves an expanded text as it is, and it makes an expanded text whenever the values
that it puts in are expanded: no boundary between a literal, an escape and a value makes a new
reference.

## Main definitions

* `Template.written` — the characters that the pieces of a text are written as.

## Main results

* `Template.substitute_congr` — values that agree on the referenced names give the same text.
* `Template.substitute_preserve_of_isExpanded` — an expanded text stays as it is.
* `Template.isExpanded_substitute` — expanded values give an expanded text.
* `Template.Expanded.written_append` — writing behind an expanded text starts afresh.
-/

namespace Interpolation.Template

open Text

variable {values other : Variables} {mode : EscapeMode}

/-- The characters that the pieces of a text are written as. -/
def written (values : Variables) (mode : EscapeMode) (cs : List Char) : List Char :=
  (pieces cs).flatMap (Piece.write values mode)

theorem toList_substitute_eq_written (text : String) (values : Variables) (mode : EscapeMode) :
    (substitute text values mode).toList = written values mode text.toList :=
  toList_substitute text values mode

@[simp] theorem written_nil : written values mode [] = [] := by
  rw [written, pieces_nil, List.flatMap_nil]

theorem written_escape (rest : List Char) :
    written values mode ('$' :: '$' :: rest) = mode.escape ++ written values mode rest := by
  rw [written, pieces_escape, List.flatMap_cons, Piece.write_escape]
  rfl

theorem written_literal {c : Char} (hc : c ≠ '$') (rest : List Char) :
    written values mode (c :: rest) = c :: written values mode rest := by
  rw [written, pieces_literal hc, List.flatMap_cons, Piece.write_literal]
  rfl

/-- What is written behind an expanded text does not depend on it. -/
theorem Expanded.written_append {cs : List Char} (h : Expanded cs) (rest : List Char) :
    written values mode (cs ++ rest) = written values mode cs ++ written values mode rest := by
  rw [written, h.pieces_append, List.flatMap_append, ← written, ← written]

/-- Texts that are expanded and stand one behind the other are written one by one. -/
theorem written_flatMap {α : Type} {f : α → List Char} {items : List α}
    (h : ∀ item ∈ items, Expanded (f item)) :
    written values mode (items.flatMap f) =
      items.flatMap fun item => written values mode (f item) := by
  induction items with
  | nil => simp
  | cons item rest ih =>
    rw [List.flatMap_cons, List.flatMap_cons, (h item List.mem_cons_self).written_append,
      ih fun other hmem => h other (List.mem_cons_of_mem _ hmem)]

/-! ### The names that matter -/

theorem written_congr {cs : List Char}
    (h : ∀ name, Piece.reference name ∈ pieces cs → values.get? name = other.get? name) :
    written values mode cs = written other mode cs := by
  rw [written, written, List.flatMap_def, List.flatMap_def]
  congr 1
  refine List.map_congr_left fun piece hmem => ?_
  cases piece with
  | literal c => rfl
  | escape => rfl
  | reference name => rw [Piece.write_reference, Piece.write_reference, h name hmem]

/-- Values that agree on the names that a text refers to give the same text. -/
theorem substitute_congr {text : String}
    (h : ∀ name ∈ references text, values.get? name = other.get? name) :
    substitute text values mode = substitute text other mode := by
  rw [← String.toList_inj, toList_substitute_eq_written, toList_substitute_eq_written]
  exact written_congr fun name hmem => h name (mem_references.mpr hmem)

/-- An expanded text is written the same with any values. -/
theorem substitute_of_isExpanded {text : String} (h : isExpanded text = true) :
    substitute text values mode = substitute text other mode :=
  substitute_congr fun name hmem => absurd hmem (isExpanded_iff_references.mp h name)

/-! ### Preserved escapes -/

theorem Expanded.written_preserve {cs : List Char} (h : Expanded cs) :
    written values .preserve cs = cs := by
  induction h with
  | nil => exact written_nil
  | escape h ih =>
    rw [written_escape, ih]
    rfl
  | literal hc h ih => rw [written_literal hc, ih]

/-- With escapes preserved, an expanded text stays as it is. -/
theorem substitute_preserve_of_isExpanded {text : String} (h : isExpanded text = true) :
    substitute text values .preserve = text := by
  rw [← String.toList_inj, toList_substitute_eq_written]
  exact (isExpanded_iff.mp h).written_preserve

/-- With escapes preserved, a piece is written as an expanded text if it is not a reference, and
as the value of its name otherwise. -/
theorem expanded_write {cs : List Char} {piece : Piece} (hmem : piece ∈ pieces cs)
    (h : ∀ name value, Piece.reference name ∈ pieces cs → values.get? name = some value →
      isExpanded value = true) : Expanded (piece.write values .preserve) := by
  cases piece with
  | literal c => exact .literal (ne_of_literal_mem hmem) .nil
  | escape => exact .escape .nil
  | reference name =>
    rw [Piece.write_reference]
    cases hget : values.get? name with
    | none => exact .nil
    | some value => exact isExpanded_iff.mp (h name value hmem hget)

/-- With escapes preserved, a text whose references have expanded values becomes expanded. -/
theorem isExpanded_substitute {text : String}
    (h : ∀ name ∈ references text, ∀ value, values.get? name = some value →
      isExpanded value = true) : isExpanded (substitute text values .preserve) = true := by
  rw [isExpanded_iff, toList_substitute_eq_written]
  refine Expanded.flatMap fun piece hmem => expanded_write hmem fun name value href hget => ?_
  exact h name (mem_references.mpr href) value hget

end Interpolation.Template
