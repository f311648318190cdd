import Mathlib
import Interpolation.Proofs.Template.Runs
import Interpolation.Proofs.Template.Written
import Interpolation.Template.RawVariable

/-!
# Templates by the parity of their runs

What a template is written as, and which names it refers to, can be said of its runs of dollar
signs alone, without reading it from left to right. A run of `n` dollar signs stands for `n / 2`
escapes. If `n` is odd, the last dollar sign and the longest word behind the run stand for the
value of the word, and the word is one of the names that the template refers to.

## Main definitions

* `Template.Run.write` — what a run is written as.
* `Template.Run.name?`, `Template.Runs.names` — the name that a run refers to, and those of a text.
* `Template.Piece.source` — the characters that a piece is read from.

## Main results

* `Template.Runs.written_eq`, `Template.substitute_eq_write_runs` — a text is written run by run.
* `Template.flatMap_source_pieces` — no character is lost in reading.
* `Template.Runs.references_eq`, `Template.dependencies_eq_names_of_runs` — the names of a text are
  those of its runs.
-/

namespace Interpolation

open Text

namespace Template

variable {cs : List Char} {values : Variables} {mode : EscapeMode} {name : String}

/-! ### What runs are written as -/

/-- A run is written as half as many escapes as it has dollar signs, each in the given text. If a
dollar sign is left, the value of the word behind the run is written in place of the word. The
other characters stay. -/
def Run.write (values : Variables) (escape : List Char) (run : Run) : List Char :=
  (List.replicate (run.count / 2) escape).flatten ++
    if run.count % 2 = 1 then
      ((values.get? (String.ofList run.word)).getD "").toList ++ run.rest
    else run.word ++ run.rest

theorem flatMap_write_map_literal (cs : List Char) :
    (cs.map Piece.literal).flatMap (Piece.write values mode) = cs := by
  rw [List.flatMap_map]
  exact List.flatMap_singleton' cs

theorem Run.flatMap_write_pieces (run : Run) :
    run.pieces.flatMap (Piece.write values mode) = run.write values mode.escape := by
  rw [pieces, write, List.flatMap_append, List.flatMap_replicate, Piece.write_escape]
  split
  · rw [List.flatMap_cons, Piece.write_reference, flatMap_write_map_literal]
  · rw [flatMap_write_map_literal, behind]

/-- A text is written run by run. -/
theorem Runs.written_eq (runs : Runs cs) :
    written values mode cs = runs.lead ++ runs.list.flatMap (Run.write values mode.escape) := by
  rw [written, runs.pieces_eq, List.flatMap_append, flatMap_write_map_literal, List.flatMap_assoc,
    List.flatMap_congr fun run _ => run.flatMap_write_pieces]

/-! ### What a text is read from -/

/-- The characters that a piece is read from. -/
def Piece.source : Piece → List Char
  | .literal c => [c]
  | .escape => ['$', '$']
  | .reference name => '$' :: name.toList

/-- No character is lost in reading. -/
theorem flatMap_source_pieces (cs : List Char) : (pieces cs).flatMap Piece.source = cs := by
  induction cs using pieces_induction with
  | nil => rw [pieces_nil, List.flatMap_nil]
  | escape rest ih =>
    rw [pieces_escape, List.flatMap_cons, ih]
    rfl
  | reference rest hhead ih =>
    rw [pieces_reference hhead, List.flatMap_cons, ih, Piece.source, String.toList_ofList,
      List.cons_append, leadingWord_append_afterWord]
  | literal c rest hc ih =>
    rw [pieces_literal hc, List.flatMap_cons, ih]
    rfl

/-- With escapes preserved, a text whose names stand for their own references stays as it is. -/
theorem written_preserve_of_self
    (h : ∀ name, Piece.reference name ∈ pieces cs → values.get? name = some ("$" ++ name)) :
    written values .preserve cs = cs := by
  have hwrite : ∀ piece ∈ pieces cs, piece.write values .preserve = piece.source := by
    intro piece hmem
    cases piece with
    | literal c => rfl
    | escape => rfl
    | reference name =>
      rw [Piece.write_reference, h name hmem, Option.getD_some, String.toList_append]
      rfl
  rw [written, List.flatMap_congr hwrite, flatMap_source_pieces]

/-- **Substitution, run by run.** Every text can be cut at its runs of dollar signs, and however
it is cut, a substitution writes what comes before the first run as it stands, and every run as
half as many escapes, followed, if a dollar sign is left, by the value of the word behind the run
in place of the word. A preserved escape is two dollar signs and a collapsed one is one. So values
that agree on the dependencies give the same text, and with escapes preserved, names that stand for
their own references give back the text. -/
theorem substitute_eq_write_runs (text : String) (values : Variables) :
    Nonempty (Runs text.toList) ∧
    (∀ runs : Runs text.toList,
      (substitute text values .preserve).toList =
        runs.lead ++ runs.list.flatMap (Run.write values ['$', '$']) ∧
      (substitute text values .collapse).toList =
        runs.lead ++ runs.list.flatMap (Run.write values ['$'])) ∧
    (∀ (mode : EscapeMode) (other : Variables),
      (∀ name ∈ dependencies text, other.get? name = values.get? name) →
      substitute text other mode = substitute text values mode) ∧
    ((∀ name ∈ dependencies text, values.get? name = some ("$" ++ name)) →
      substitute text values .preserve = text) := by
  refine ⟨nonempty_runs _, fun runs => ⟨?_, ?_⟩, fun mode other hagree => ?_, fun hself => ?_⟩
  · rw [toList_substitute_eq_written, runs.written_eq]
    rfl
  · rw [toList_substitute_eq_written, runs.written_eq]
    rfl
  · exact substitute_congr fun name hmem => hagree name (mem_dependencies.mpr hmem)
  · rw [← String.toList_inj, toList_substitute_eq_written]
    refine written_preserve_of_self fun name hmem => hself name ?_
    exact mem_dependencies.mpr (mem_references.mpr hmem)

/-- Names of which one begins another, and one that is empty, each with its own reference as its
value, among values for other names. -/
theorem substitute_eq_write_runs_own_references :
    let text := "$foo|$foobar|$$$"
    let values : Variables := .ofList [("foo", "$foo"), ("foobar", "$foobar"), ("", "$")]
    let other : Variables :=
      .ofList [("", "$"), ("bar", "x"), ("foobar", "$foobar"), ("foo", "$foo")]
    (∀ name ∈ dependencies text, other.get? name = values.get? name) ∧
      (∀ name ∈ dependencies text, values.get? name = some ("$" ++ name)) ∧
      substitute text other .collapse = substitute text values .collapse ∧
      substitute text values .preserve = text := by
  intro text values other
  have hdependencies : dependencies text = ["foo", "foobar", ""] := by cbv
  have hagree : ∀ name ∈ dependencies text, other.get? name = values.get? name := by
    rw [hdependencies]
    decide
  have hself : ∀ name ∈ dependencies text, values.get? name = some ("$" ++ name) := by
    rw [hdependencies]
    decide
  exact ⟨hagree, hself, (substitute_eq_write_runs text values).2.2.1 .collapse other hagree,
    (substitute_eq_write_runs text values).2.2.2 hself⟩

/-! ### The names of runs -/

/-- The name that a run refers to: the word behind it, if the run is of odd length. -/
def Run.name? (run : Run) : Option String :=
  if run.count % 2 = 1 then some (String.ofList run.word) else none

theorem Run.name?_eq_some_iff {run : Run} :
    run.name? = some name ↔ run.count % 2 = 1 ∧ String.ofList run.word = name := by
  rw [name?, Option.ite_none_right_eq_some, Option.some.injEq]

theorem Run.name?_eq_none_iff {run : Run} : run.name? = none ↔ run.count % 2 = 0 := by
  rw [name?, ite_eq_right_iff, ← Nat.mod_two_ne_one]
  simp

/-- The names that the runs of a text refer to, in order and with repeats. -/
def Runs.names (runs : Runs cs) : List String := runs.list.filterMap Run.name?

theorem filterMap_name?_map_literal (cs : List Char) :
    (cs.map Piece.literal).filterMap Piece.name? = [] := by
  rw [List.filterMap_map]
  exact List.filterMap_none cs

theorem Run.filterMap_name?_pieces (run : Run) :
    run.pieces.filterMap Piece.name? = run.name?.toList := by
  rw [pieces, name?, List.filterMap_append, List.filterMap_replicate_of_none rfl, List.nil_append]
  split
  · exact congrArg (String.ofList _ :: ·) (filterMap_name?_map_literal _)
  · exact filterMap_name?_map_literal _

/-- A text refers to the names of its runs. -/
theorem Runs.references_eq {text : String} (runs : Runs text.toList) :
    references text = runs.names := by
  rw [references, runs.pieces_eq, List.filterMap_append, filterMap_name?_map_literal,
    List.nil_append, List.filterMap_flatMap, names, List.filterMap_eq_flatMap_toList]
  exact List.flatMap_congr fun run _ => run.filterMap_name?_pieces

/-! ### Names in the order of first appearance -/

/-- Without their repeats, names stand in the order in which they first appear. -/
theorem pairwise_idxOf_eraseDups (names : List String) :
    names.eraseDups.Pairwise fun first second => names.idxOf first < names.idxOf second := by
  induction names using List.reverseRecOn with
  | nil => exact .nil
  | append_singleton names name ih =>
    have hold : ∀ other ∈ names, (names ++ [name]).idxOf other = names.idxOf other :=
      fun other hmem => List.idxOf_append_of_mem hmem
    have hpairwise : names.eraseDups.Pairwise fun first second =>
        (names ++ [name]).idxOf first < (names ++ [name]).idxOf second := by
      refine ih.imp_of_mem fun {first second} hfirst hsecond hlt => ?_
      rwa [hold first (List.mem_eraseDups.mp hfirst), hold second (List.mem_eraseDups.mp hsecond)]
    rw [OrderedMap.eraseDups_append_singleton]
    by_cases hname : name ∈ names
    -- A repeat adds nothing.
    · rwa [if_pos hname]
    · have hlast : (names ++ [name]).idxOf name = names.length := by
        rw [List.idxOf_append_of_notMem hname, List.idxOf_cons_self, Nat.add_zero]
      rw [if_neg hname]
      refine List.pairwise_append.mpr ⟨hpairwise, List.pairwise_singleton _ _, ?_⟩
      intro first hfirst second hsecond
      have hmem := List.mem_eraseDups.mp hfirst
      rw [List.mem_singleton.mp hsecond, hold first hmem, hlast]
      exact List.idxOf_lt_length_of_mem hmem

/-- A text is expanded exactly when all its runs are of even length. -/
theorem Runs.isExpanded_iff {text : String} (runs : Runs text.toList) :
    isExpanded text = true ↔ ∀ run ∈ runs.list, run.count % 2 = 0 := by
  rw [isExpanded_iff_references, runs.references_eq, ← List.eq_nil_iff_forall_not_mem, names,
    List.filterMap_eq_nil_iff]
  exact forall₂_congr fun run _ => Run.name?_eq_none_iff

/-- A name that a text refers to is made of the characters of words. -/
theorem inWord_of_mem_references {text : String} (h : name ∈ references text) :
    ∀ c ∈ name.toList, InWord c := by
  obtain ⟨_, _, _, _, _, _, hword, _⟩ := mem_references_iff_hasMarker.mp h
  exact hword

/-- **The names of a text, by its runs.** Every text can be cut at its runs of dollar signs, and
however it is cut, its dependencies are the words behind the runs of odd length, in the order in
which they first appear. The text is expanded, has no dependencies, and makes an expanded variable
of any name, exactly when all its runs are of even length. The names are made of ASCII letters,
ASCII digits and underscores. -/
theorem dependencies_eq_names_of_runs (text id : String) :
    Nonempty (Runs text.toList) ∧
    (∀ runs : Runs text.toList,
      (∀ name, name ∈ dependencies text ↔
        ∃ run ∈ runs.list, run.count % 2 = 1 ∧ String.ofList run.word = name) ∧
      ((dependencies text).Pairwise fun first second =>
        runs.names.idxOf first < runs.names.idxOf second) ∧
      [isExpanded text = true, dependencies text = [], (RawVariable.mk id text).isExpanded = true,
        ∀ run ∈ runs.list, run.count % 2 = 0].TFAE) ∧
    ∀ name ∈ dependencies text, ∀ c ∈ name.toList, InWord c := by
  refine ⟨nonempty_runs _, fun runs => ⟨fun name => ?_, ?_, ?_⟩, fun name hmem => ?_⟩
  · rw [mem_dependencies, runs.references_eq, Runs.names, List.mem_filterMap]
    exact exists_congr fun run => and_congr_right fun _ => Run.name?_eq_some_iff
  · rw [dependencies, runs.references_eq]
    exact pairwise_idxOf_eraseDups _
  · tfae_have 1 ↔ 2 := dependencies_eq_nil_iff.symm
    tfae_have 1 ↔ 3 := by rw [RawVariable.isExpanded_eq]
    tfae_have 1 ↔ 4 := runs.isExpanded_iff
    tfae_finish
  · exact inWord_of_mem_references (mem_dependencies.mp hmem)

end Template

end Interpolation
