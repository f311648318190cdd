import Interpolation.Proofs.Template.Parity

/-!
# Texts put together

A reference takes all word characters that follow it, and a dollar sign pairs with the next one. So
a text put behind another may be drawn into its last piece. Nothing else can happen at the boundary:
if the last piece is no reference, or the second text begins with a character that cannot belong to
it, the pieces of the whole are those of both parts.

The reason is that the pieces of a text are the only row of pieces that is read from the text and in
which no piece goes on in the next.

## Main definitions

* `Template.Piece.goesOn` — a piece takes a character that comes behind it.
* `Template.IsReading` — a row of pieces none of which goes on in the next.
* `Template.EndsBefore` — the last piece of a text does not go on in another text.

## Main results

* `Template.pieces_eq_iff` — the pieces of a text are its only reading.
* `Template.pieces_append_iff` — where a text may be cut.
* `Template.substitute_append_of_boundary` — what two texts are written as, and what they refer to.
-/

namespace Interpolation.Template

open Text

variable {cs other : List Char} {row : List Piece}

/-! ### Readings -/

/-- Whether a piece takes a character that comes behind it: a reference takes word characters, and a
dollar sign without a word takes another one. -/
def Piece.goesOn : Piece → Char → Bool
  | .literal _, _ => false
  | .escape, _ => false
  | .reference name, c => isWordChar c || name == "" && c == '$'

/-- What a piece may hold: a literal is no dollar sign, and a name is a word. -/
def Piece.IsSound : Piece → Prop
  | .literal c => c ≠ '$'
  | .escape => True
  | .reference name => ∀ c ∈ name.toList, isWordChar c = true

/-- A row of pieces that can be told apart: none of them goes on in the next. -/
structure IsReading (row : List Piece) : Prop where
  /-- Each piece holds what it may. -/
  sound : ∀ piece ∈ row, piece.IsSound
  /-- No piece takes the first character of the next. -/
  apart : row.IsChain fun piece next => ∀ c, next.source.head? = some c → piece.goesOn c = false

theorem goesOn_reference_eq_false_iff {name : String} {c : Char} :
    (Piece.reference name).goesOn c = false ↔ isWordChar c = false ∧ (name = "" → c ≠ '$') := by
  simp [Piece.goesOn]

theorem Piece.source_ne_nil (piece : Piece) : piece.source ≠ [] := by
  cases piece <;> simp [Piece.source]

/-- What a row of pieces is read from begins as its first piece does. -/
theorem head?_flatMap_source_cons (piece : Piece) (row : List Piece) :
    ((piece :: row).flatMap Piece.source).head? = piece.source.head? := by
  rw [List.flatMap_cons, List.head?_append_of_ne_nil _ piece.source_ne_nil]

theorem head?_source_of_pieces {piece : Piece} (h : (pieces cs).head? = some piece) :
    piece.source.head? = cs.head? := by
  obtain ⟨rest, hrow⟩ := List.head?_eq_some_iff.mp h
  rw [← flatMap_source_pieces cs, hrow, head?_flatMap_source_cons]

/-- A row of pieces begins a reading if the rest is one and the first does not go on. -/
theorem IsReading.cons {piece : Piece} (hsound : piece.IsSound)
    (hnext : ∀ c, (row.flatMap Piece.source).head? = some c → piece.goesOn c = false)
    (h : IsReading row) : IsReading (piece :: row) where
  sound := List.forall_mem_cons.mpr ⟨hsound, h.sound⟩
  apart := by
    refine List.isChain_cons.mpr ⟨fun next hmem c hc => hnext c ?_, h.apart⟩
    obtain ⟨rest, rfl⟩ := List.head?_eq_some_iff.mp hmem
    rw [head?_flatMap_source_cons, hc]

/-- The pieces of a text can be told apart. -/
theorem isReading_pieces (cs : List Char) : IsReading (pieces cs) := by
  induction cs using pieces_induction with
  | nil =>
    rw [pieces_nil]
    exact ⟨by simp, .nil⟩
  | escape rest ih =>
    rw [pieces_escape]
    exact ih.cons trivial fun _ _ => rfl
  | reference rest hhead ih =>
    rw [pieces_reference hhead]
    refine ih.cons (fun c hc => ?_) fun c hc => goesOn_reference_eq_false_iff.mpr ⟨?_, ?_⟩
    · rw [String.toList_ofList] at hc
      exact isWordChar_of_mem_leadingWord hc
    · rw [flatMap_source_pieces] at hc
      obtain ⟨tail, htail⟩ := List.head?_eq_some_iff.mp hc
      exact isWordChar_eq_false_of_afterWord htail
    · -- Without a word the next piece begins where the reference ends, at the head of `rest`.
      rintro hname rfl
      have hword : leadingWord rest = [] := by simpa using congrArg String.toList hname
      have hafter := leadingWord_append_afterWord rest
      rw [hword, List.nil_append] at hafter
      rw [flatMap_source_pieces, hafter] at hc
      exact hhead hc
  | literal c rest hc ih =>
    rw [pieces_literal hc]
    exact ih.cons hc fun _ _ => rfl

/-- A reading of a text is the row of its pieces. -/
theorem IsReading.pieces_flatMap_source (h : IsReading row) :
    pieces (row.flatMap Piece.source) = row := by
  induction row with
  | nil => exact pieces_nil
  | cons piece row ih =>
    obtain ⟨hsound, hrow⟩ := List.forall_mem_cons.mp h.sound
    obtain ⟨hnext, hchain⟩ := List.isChain_cons.mp h.apart
    have hrest : pieces (row.flatMap Piece.source) = row := ih ⟨hrow, hchain⟩
    rw [List.flatMap_cons]
    cases piece with
    | literal c => rw [Piece.source, List.singleton_append, pieces_literal hsound, hrest]
    | escape =>
      rw [Piece.source, List.cons_append, List.cons_append, List.nil_append, pieces_escape, hrest]
    | reference name =>
      have hbehind : ∀ c, (row.flatMap Piece.source).head? = some c →
          isWordChar c = false ∧ (name = "" → c ≠ '$') := by
        intro c hc
        cases row with
        | nil => cases hc
        | cons next row =>
          rw [head?_flatMap_source_cons] at hc
          exact goesOn_reference_eq_false_iff.mp (hnext next rfl c hc)
      have hword : ∀ c, (row.flatMap Piece.source).head? = some c → isWordChar c = false :=
        fun c hc => (hbehind c hc).1
      have hhead : (name.toList ++ row.flatMap Piece.source).head? ≠ some '$' := by
        intro hdollar
        cases hname : name.toList with
        | nil =>
          rw [hname, List.nil_append] at hdollar
          exact (hbehind '$' hdollar).2 (String.toList_eq_nil_iff.mp hname) rfl
        | cons c tail =>
          rw [hname] at hdollar
          have hc : isWordChar c = true := hsound c (by simp [hname])
          rw [Option.some.inj hdollar, isWordChar_dollar] at hc
          cases hc
      rw [Piece.source, List.cons_append, pieces_reference hhead, leadingWord_append hsound hword,
        afterWord_append hsound hword, String.ofList_toList, hrest]

/-- **The only reading.** The pieces of a text are the one row of pieces that is read from the text
and in which no piece goes on in the next. -/
theorem pieces_eq_iff : pieces cs = row ↔ row.flatMap Piece.source = cs ∧ IsReading row := by
  constructor
  · rintro rfl
    exact ⟨flatMap_source_pieces cs, isReading_pieces cs⟩
  · rintro ⟨rfl, h⟩
    exact h.pieces_flatMap_source

/-! ### Where a text may be cut -/

/-- The last piece of a text does not go on in another text. -/
def EndsBefore (cs other : List Char) : Prop :=
  ∀ piece, (pieces cs).getLast? = some piece → ∀ c, other.head? = some c → piece.goesOn c = false

/-- Two texts are read one by one exactly when the first ends before the second. -/
theorem pieces_append_iff :
    pieces (cs ++ other) = pieces cs ++ pieces other ↔ EndsBefore cs other := by
  have hfirst := isReading_pieces cs
  have hsecond := isReading_pieces other
  rw [pieces_eq_iff, List.flatMap_append, flatMap_source_pieces, flatMap_source_pieces]
  constructor
  · rintro ⟨-, h⟩ piece hlast c hc
    cases hhead : (pieces other).head? with
    | none =>
      have hempty : other = [] := by
        rw [← flatMap_source_pieces other, List.head?_eq_none_iff.mp hhead, List.flatMap_nil]
      rw [hempty] at hc
      cases hc
    | some next =>
      refine (List.isChain_append.mp h.apart).2.2 piece hlast next hhead c ?_
      rw [head?_source_of_pieces hhead, hc]
  · intro h
    refine ⟨rfl, ?_, List.isChain_append.mpr ⟨hfirst.apart, hsecond.apart, ?_⟩⟩
    · exact List.forall_mem_append.mpr ⟨hfirst.sound, hsecond.sound⟩
    · intro piece hlast next hhead c hc
      rw [head?_source_of_pieces hhead] at hc
      exact h piece hlast c hc

/-- An expanded text ends before every text. -/
theorem Expanded.endsBefore (h : Expanded cs) (other : List Char) : EndsBefore cs other := by
  intro piece hlast c _
  cases piece with
  | literal d => rfl
  | escape => rfl
  | reference name => exact absurd (List.mem_of_getLast? hlast) (h.reference_notMem name)

/-- Every text ends before one that begins with neither a dollar sign nor a word character. -/
theorem endsBefore_of_head (cs : List Char)
    (h : ∀ c, other.head? = some c → c ≠ '$' ∧ isWordChar c = false) : EndsBefore cs other := by
  intro piece _ c hc
  cases piece with
  | literal d => rfl
  | escape => rfl
  | reference name => exact goesOn_reference_eq_false_iff.mpr ⟨(h c hc).2, fun _ => (h c hc).1⟩

/-! ### Two texts -/

variable {first second : String}

/-- Two texts that are read one by one are written one by one. -/
theorem substitute_append (h : EndsBefore first.toList second.toList) (values : Variables)
    (mode : EscapeMode) :
    substitute (first ++ second) values mode =
      substitute first values mode ++ substitute second values mode := by
  rw [← String.toList_inj, String.toList_append, toList_substitute, toList_substitute,
    toList_substitute, String.toList_append, pieces_append_iff.mpr h, List.flatMap_append]

/-- Two texts that are read one by one refer to the names of the first and then of the second. -/
theorem references_append (h : EndsBefore first.toList second.toList) :
    references (first ++ second) = references first ++ references second := by
  rw [references, String.toList_append, pieces_append_iff.mpr h, List.filterMap_append]
  rfl

/-- **Texts put together.** Behind an expanded text reading starts afresh: the whole refers to what
the second text refers to, is expanded when the second text is, and is written as both texts are,
one behind the other, whatever the values and the escape mode. Any two texts are written like that
if the second is empty or begins with neither a dollar sign nor a word character. -/
theorem substitute_append_of_boundary (first second : String) :
    (isExpanded first = true →
      dependencies (first ++ second) = dependencies second ∧
      (isExpanded (first ++ second) = true ↔ isExpanded second = true) ∧
      ∀ values mode, substitute (first ++ second) values mode =
        substitute first values mode ++ substitute second values mode) ∧
    ((∀ c, second.toList.head? = some c → c ≠ '$' ∧ isWordChar c = false) →
      ∀ values mode, substitute (first ++ second) values mode =
        substitute first values mode ++ substitute second values mode) := by
  refine ⟨fun h => ?_, fun h => substitute_append (endsBefore_of_head _ h)⟩
  have hends := (isExpanded_iff.mp h).endsBefore second.toList
  have hnone : references first = [] := List.isEmpty_iff.mp h
  have hreferences : references (first ++ second) = references second := by
    rw [references_append hends, hnone, List.nil_append]
  refine ⟨?_, ?_, substitute_append hends⟩
  · rw [dependencies, dependencies, hreferences]
  · rw [isExpanded, isExpanded, hreferences]

/-- An expanded text before one that begins with a dollar sign, and a text that ends with a name
before one that begins with a blank. Without the blank, the name would go on. -/
theorem substitute_append_of_boundary_names :
    let values : Variables := .ofList [("x", "1"), ("xy", "2")]
    isExpanded "a$$" = true ∧
      dependencies ("a$$" ++ "$x$$$xy") = dependencies "$x$$$xy" ∧
      substitute ("a$$" ++ "$x$$$xy") values .collapse =
        substitute "a$$" values .collapse ++ substitute "$x$$$xy" values .collapse ∧
      (∀ c, " y".toList.head? = some c → c ≠ '$' ∧ isWordChar c = false) ∧
      substitute ("$x" ++ " y") values .preserve =
        substitute "$x" values .preserve ++ substitute " y" values .preserve ∧
      substitute ("$x" ++ "y") values .preserve ≠
        substitute "$x" values .preserve ++ substitute "y" values .preserve := by
  intro values
  have hexpanded : isExpanded "a$$" = true := by cbv
  have hblank : ∀ c, " y".toList.head? = some c → c ≠ '$' ∧ isWordChar c = false := by
    intro c hc
    cases hc
    decide
  obtain ⟨hdependencies, -, hwritten⟩ :=
    (substitute_append_of_boundary "a$$" "$x$$$xy").1 hexpanded
  refine ⟨hexpanded, hdependencies, hwritten values .collapse, hblank,
    (substitute_append_of_boundary "$x" " y").2 hblank values .preserve, ?_⟩
  have hwhole : substitute ("$x" ++ "y") values .preserve = "2" := by cbv
  have hparts :
      substitute "$x" values .preserve ++ substitute "y" values .preserve = "1y" := by cbv
  rw [hwhole, hparts]
  decide

end Interpolation.Template
