import Interpolation.Template.Substitution

/-!
# Texts without references

A text is expanded when its dollar signs pair up from the left: it is made of escapes and of
characters that stand for themselves. Expanded texts are put together without surprises. Where one
ends, the reading of its pieces ends as well, so no dollar sign of it can pair with one of the text
behind it, and what is written behind it is read as if it stood alone.

## Main definitions

* `Template.Expanded` — the expanded texts, by the way they are made.

## Main results

* `Template.expanded_iff` — a text is expanded exactly when none of its pieces is a reference.
* `Template.Expanded.append`, `Template.Expanded.flatMap` — expanded texts one behind the other.
* `Template.Expanded.pieces_append` — reading behind an expanded text starts afresh.
-/

namespace Interpolation.Template

open Text

/-! ### Induction along the pieces -/

/-- What holds of the empty text and passes from the rest of a text to the text, whichever kind of
piece the text begins with, holds of every text. -/
@[elab_as_elim]
theorem pieces_induction {motive : List Char → Prop} (nil : motive [])
    (escape : ∀ rest, motive rest → motive ('$' :: '$' :: rest))
    (reference : ∀ rest : List Char, rest.head? ≠ some '$' → motive (afterWord rest) →
      motive ('$' :: rest))
    (literal : ∀ c rest, c ≠ '$' → motive rest → motive (c :: rest)) (cs : List Char) :
    motive cs := by
  induction cs using pieces.induct with
  | case1 => exact nil
  | case2 rest ih => exact escape rest ih
  | case3 rest hrest ih =>
    refine reference rest (fun hhead => ?_) ih
    obtain ⟨tail, rfl⟩ := List.head?_eq_some_iff.mp hhead
    exact hrest tail rfl
  | case4 c rest _ hc ih => exact literal c rest hc ih

/-- A character that stands for itself is not a dollar sign. -/
theorem ne_of_literal_mem {cs : List Char} {c : Char} (h : Piece.literal c ∈ pieces cs) :
    c ≠ '$' := by
  induction cs using pieces_induction with
  | nil => simp at h
  | escape rest ih =>
    rw [pieces_escape] at h
    exact ih (by simpa using h)
  | reference rest hhead ih =>
    rw [pieces_reference hhead] at h
    exact ih (by simpa using h)
  | literal d rest hd ih =>
    rw [pieces_literal hd] at h
    rcases List.mem_cons.mp h with heq | hmem
    · rwa [Piece.literal.inj heq]
    · exact ih hmem

/-! ### The pieces of an expanded text -/

/-- A text of escapes and of characters other than the dollar sign. -/
inductive Expanded : List Char → Prop
  | nil : Expanded []
  | escape {rest : List Char} (h : Expanded rest) : Expanded ('$' :: '$' :: rest)
  | literal {c : Char} {rest : List Char} (hc : c ≠ '$') (h : Expanded rest) : Expanded (c :: rest)

/-- Behind an expanded text the reading of pieces starts afresh. -/
theorem Expanded.pieces_append {cs : List Char} (h : Expanded cs) (other : List Char) :
    pieces (cs ++ other) = pieces cs ++ pieces other := by
  induction h with
  | nil => simp
  | escape h ih =>
    rw [pieces_escape, List.cons_append, List.cons_append, pieces_escape, ih, List.cons_append]
  | literal hc h ih =>
    rw [pieces_literal hc, List.cons_append, pieces_literal hc, ih, List.cons_append]

theorem Expanded.reference_notMem {cs : List Char} (h : Expanded cs) (name : String) :
    Piece.reference name ∉ pieces cs := by
  induction h with
  | nil => simp
  | escape h ih =>
    rw [pieces_escape]
    simpa using ih
  | literal hc h ih =>
    rw [pieces_literal hc]
    simpa using ih

/-- A text is expanded exactly when none of its pieces is a reference. -/
theorem expanded_iff {cs : List Char} :
    Expanded cs ↔ ∀ name, Piece.reference name ∉ pieces cs := by
  refine ⟨Expanded.reference_notMem, fun h => ?_⟩
  induction cs using pieces_induction with
  | nil => exact .nil
  | escape rest ih =>
    refine .escape (ih fun name hmem => h name ?_)
    rw [pieces_escape]
    exact List.mem_cons_of_mem _ hmem
  | reference rest hhead ih =>
    refine absurd ?_ (h (String.ofList (leadingWord rest)))
    rw [pieces_reference hhead]
    exact List.mem_cons_self
  | literal c rest hc ih =>
    refine .literal hc (ih fun name hmem => h name ?_)
    rw [pieces_literal hc]
    exact List.mem_cons_of_mem _ hmem

/-- The names that a text refers to are those of its reference pieces. -/
theorem mem_references {text name : String} :
    name ∈ references text ↔ Piece.reference name ∈ pieces text.toList := by
  rw [references, List.mem_filterMap]
  constructor
  · rintro ⟨piece, hmem, hname⟩
    cases piece with
    | reference other =>
      have heq : other = name := Option.some.inj hname
      rwa [heq] at hmem
    | literal c => cases hname
    | escape => cases hname
  · intro hmem
    exact ⟨_, hmem, rfl⟩

/-- The test for references agrees with the way in which expanded texts are made. -/
theorem isExpanded_iff {text : String} : isExpanded text = true ↔ Expanded text.toList := by
  rw [expanded_iff, isExpanded, List.isEmpty_iff, List.eq_nil_iff_forall_not_mem]
  exact forall_congr' fun name => not_congr mem_references

theorem isExpanded_iff_references {text : String} :
    isExpanded text = true ↔ ∀ name, name ∉ references text := by
  rw [isExpanded, List.isEmpty_iff, List.eq_nil_iff_forall_not_mem]

/-! ### Expanded texts one behind the other -/

/-- Two expanded texts make one. -/
theorem Expanded.append {cs other : List Char} (h : Expanded cs) (h' : Expanded other) :
    Expanded (cs ++ other) := by
  induction h with
  | nil => exact h'
  | escape h ih => exact .escape ih
  | literal hc h ih => exact .literal hc ih

/-- Expanded texts, put one behind the other for the members of a list, make an expanded text. -/
theorem Expanded.flatMap {α : Type} {f : α → List Char} {items : List α}
    (h : ∀ item ∈ items, Expanded (f item)) : Expanded (items.flatMap f) := by
  induction items with
  | nil => exact .nil
  | cons item rest ih =>
    rw [List.flatMap_cons]
    exact (h item List.mem_cons_self).append
      (ih fun other hmem => h other (List.mem_cons_of_mem _ hmem))

end Interpolation.Template
