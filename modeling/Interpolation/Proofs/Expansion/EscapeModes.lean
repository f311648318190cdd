import Mathlib
import Interpolation.Proofs.Expansion.Preserved

/-!
# The two escape modes

An escape can become one dollar sign when the text that holds it is written, or in the end, when
all references are gone. The outcome is the same. With escapes preserved, whatever a piece is
written as is expanded, so collapsing a whole text collapses it piece by piece. The collapsed final
values therefore satisfy the equations of the other mode, and these have only one solution.

## Main definitions

* `Variables.collapsed` — values with every escape made one dollar sign.
* `Template.halved` — a text with every two dollar signs made one.

## Main results

* `Template.collapse_substitute` — collapsing a text is collapsing what was put into it.
* `entries_collapsed_eq` — collapsing texts without references makes every two dollar signs one.
* `Plan.seeded_collapse` — seeded values in the two modes.
* `Plan.expand_collapse` — expansions in the two modes.
-/

namespace Interpolation

/-- The values with every escape in them made one dollar sign. -/
def Variables.collapsed (values : Variables) : Variables :=
  values.filterMap fun _ text => some (Template.substitute text ∅ .collapse)

variable {given values : Variables}

theorem keys_collapsed (values : Variables) : values.collapsed.keys = values.keys :=
  OrderedMap.keys_filterMap_some _ _

theorem get?_collapsed (values : Variables) (name : String) :
    values.collapsed.get? name =
      (values.get? name).map fun text => Template.substitute text ∅ .collapse := by
  rw [Variables.collapsed, OrderedMap.get?_filterMap, Option.map_eq_bind]
  rfl

/-! ### Texts -/

namespace Template

/-- A piece written with preserved escapes and collapsed afterwards is the piece written with
collapsed values. -/
theorem written_collapse_write {cs : List Char} {piece : Piece} (hmem : piece ∈ pieces cs) :
    written ∅ .collapse (piece.write values .preserve) =
      piece.write values.collapsed .collapse := by
  cases piece with
  | literal c =>
    rw [Piece.write_literal, Piece.write_literal, written_literal (ne_of_literal_mem hmem),
      written_nil]
  | escape =>
    rw [Piece.write_escape, Piece.write_escape]
    change written ∅ .collapse ['$', '$'] = ['$']
    rw [written_escape, written_nil]
    rfl
  | reference name =>
    rw [Piece.write_reference, Piece.write_reference, get?_collapsed]
    cases values.get? name with
    | none => exact written_nil
    | some value => exact (toList_substitute_eq_written value ∅ .collapse).symm

/-- Collapsing a text that was written with expanded values and preserved escapes gives the text
that is written with collapsed values and collapsed escapes. -/
theorem collapse_substitute {text : String}
    (h : ∀ name value, values.get? name = some value → isExpanded value = true) :
    substitute (substitute text values .preserve) ∅ .collapse =
      substitute text values.collapsed .collapse := by
  have hexpanded : ∀ piece ∈ pieces text.toList, Expanded (piece.write values .preserve) :=
    fun piece hmem => expanded_write hmem fun name value _ => h name value
  rw [← String.toList_inj]
  calc (substitute (substitute text values .preserve) ∅ .collapse).toList
      = written ∅ .collapse (written values .preserve text.toList) := by
        rw [toList_substitute_eq_written, toList_substitute_eq_written]
    _ = (pieces text.toList).flatMap fun piece =>
          written ∅ .collapse (piece.write values .preserve) := written_flatMap hexpanded
    _ = (pieces text.toList).flatMap (Piece.write values.collapsed .collapse) := by
        rw [List.flatMap_def, List.flatMap_def]
        exact congrArg List.flatten (List.map_congr_left fun _ => written_collapse_write)
    _ = (substitute text values.collapsed .collapse).toList :=
        (toList_substitute text values.collapsed .collapse).symm

/-- The text with every two dollar signs in a row made one, from left to right. -/
def halved : List Char → List Char
  | [] => []
  | '$' :: '$' :: rest => '$' :: halved rest
  | c :: rest => c :: halved rest

theorem halved_cons_of_ne {c : Char} (hc : c ≠ '$') (rest : List Char) :
    halved (c :: rest) = c :: halved rest := by
  rw [halved]
  exact fun tail hcons _ => hc hcons

/-- Collapsing a text without references makes every two dollar signs one. -/
theorem Expanded.written_collapse {cs : List Char} (h : Expanded cs) :
    written ∅ .collapse cs = halved cs := by
  induction h with
  | nil => exact written_nil
  | escape h ih =>
    rw [written_escape, ih, halved]
    rfl
  | literal hc h ih => rw [written_literal hc, ih, halved_cons_of_ne hc]

end Template

/-- Collapsing values that refer to no name makes every two dollar signs in them one, and changes
nothing else. -/
theorem entries_collapsed_eq
    (h : ∀ name value, values.get? name = some value → Template.isExpanded value = true) :
    values.collapsed.entries =
      values.entries.map fun entry =>
        (entry.1, String.ofList (Template.halved entry.2.toList)) := by
  rw [Variables.collapsed, OrderedMap.entries_filterMap_some]
  refine List.map_congr_left fun entry hmem => ?_
  have hexpanded := h entry.1 entry.2 (OrderedMap.get?_eq_some_iff.mpr hmem)
  have hwritten : (Template.substitute entry.2 ∅ .collapse).toList =
      Template.halved entry.2.toList := by
    rw [Template.toList_substitute_eq_written]
    exact (Template.isExpanded_iff.mp hexpanded).written_collapse
  rw [← hwritten, String.ofList_toList]

/-! ### Expansions -/

namespace Plan

/-- Seeded values with escapes collapsed are the seeded values with escapes preserved, collapsed. -/
theorem seeded_collapse (given : Variables) :
    seeded ⟨given, .collapse⟩ = (seeded ⟨given, .preserve⟩).collapsed := by
  refine OrderedMap.ext ?_
  rw [Variables.collapsed, OrderedMap.entries_filterMap_some, entries_seeded, entries_seeded,
    List.map_map]
  refine List.map_congr_left fun entry hmem => ?_
  have hexpanded : Template.isExpanded entry.2 = true := (List.mem_filter.mp hmem).2
  change _ = (entry.1, Template.substitute (Template.substitute entry.2 ∅ .preserve) ∅ .collapse)
  rw [Template.substitute_preserve_of_isExpanded hexpanded]

/-- Seeded values refer to no name. -/
theorem isExpanded_seeded {name value : String}
    (h : (seeded ⟨given, .preserve⟩).get? name = some value) :
    Template.isExpanded value = true := by
  obtain ⟨text, -, hexpanded, rfl⟩ := get?_seeded_eq_some_iff.mp h
  rwa [Template.substitute_preserve_of_isExpanded hexpanded]

/-- Final values with escapes preserved, once collapsed, solve the equations of the other mode. -/
theorem isSolution_collapsed (h : expand ⟨given, .preserve⟩ = .ok values) :
    given.IsSolution .collapse values.collapsed where
  mem_keys_iff name := by
    rw [keys_collapsed]
    exact mem_keys_of_expand h name
  get?_eq {name text} hget := by
    rw [get?_collapsed, (isSolution_of_expand h).get?_eq hget, Option.map_some]
    exact congrArg some (Template.collapse_substitute fun _ _ => isExpanded_of_expand h)

/-- Expanding with collapsed escapes is expanding with preserved escapes and then collapsing. -/
theorem expand_collapse_eq (given : Variables) :
    expand ⟨given, .collapse⟩ =
      match expand ⟨given, .preserve⟩ with
      | .ok values => .ok values.collapsed
      | .error failure => .error ⟨failure.cause, failure.reached.collapsed⟩ := by
  have horders : order ⟨given, .collapse⟩ = order ⟨given, .preserve⟩ := order_congr rfl
  cases horder : order ⟨given, .preserve⟩ with
  | error stall =>
    rw [expand_eq_error_iff.mpr ⟨stall, horders.trans horder, rfl⟩,
      expand_eq_error_iff.mpr ⟨stall, horder, rfl⟩, seeded_collapse]
  | ok names =>
    obtain ⟨values, hwalk⟩ := exists_walk_of_order horder
    obtain ⟨final, hfinal⟩ := exists_walk_of_order (horders.trans horder)
    have hvalues : expand ⟨given, .preserve⟩ = .ok values :=
      expand_eq_ok_iff.mpr ⟨names, horder, hwalk⟩
    have hexpand : expand ⟨given, .collapse⟩ = .ok final :=
      expand_eq_ok_iff.mpr ⟨names, horders.trans horder, hfinal⟩
    have hkeys : final.keys = values.collapsed.keys := by
      rw [keys_collapsed, keys_walk (nodup_of_order horder) hfinal,
        keys_walk (nodup_of_order horder) hwalk, seeded_collapse, keys_collapsed]
    -- The collapsed values solve the equations of this mode, so they are its final values.
    have heq : final = values.collapsed := by
      refine OrderedMap.ext_keys_get? hkeys fun name _ => ?_
      exact get?_eq_of_isSolution (horders.trans horder) (isSolution_collapsed hvalues)
        (isSolution_of_expand hexpand) name
    rw [hvalues, hexpand, heq]

/-- **Collapsing early is collapsing late.** Expanding with collapsed escapes is expanding with
preserved escapes and then collapsing what has come out: on success the final values, with the same
names in the same order, and on failure the values reached, with the same cause. Collapsing makes
every two dollar signs of these values one. -/
theorem expand_collapse (given : Variables) :
    (expand ⟨given, .collapse⟩ =
      match expand ⟨given, .preserve⟩ with
      | .ok values => .ok values.collapsed
      | .error failure => .error ⟨failure.cause, failure.reached.collapsed⟩) ∧
    (∀ values, expand ⟨given, .preserve⟩ = .ok values →
      values.collapsed.entries =
        values.entries.map fun entry =>
          (entry.1, String.ofList (Template.halved entry.2.toList))) ∧
    ∀ failure, expand ⟨given, .preserve⟩ = .error failure →
      failure.reached.collapsed.entries =
        failure.reached.entries.map fun entry =>
          (entry.1, String.ofList (Template.halved entry.2.toList)) := by
  refine ⟨expand_collapse_eq given, fun values hvalues => ?_, fun failure hfailure => ?_⟩
  · exact entries_collapsed_eq fun _ _ => isExpanded_of_expand hvalues
  · obtain ⟨stall, -, rfl⟩ := expand_eq_error_iff.mp hfailure
    exact entries_collapsed_eq fun _ _ => isExpanded_seeded

/-- Escapes at the boundaries of a value that is put in, and one in a value that was reached before
a circle was found. -/
theorem expand_collapse_dollars :
    let given : Variables := .ofList [("a", "$$5$$$$"), ("b", "$$$a$$x")]
    let circle : Variables := .ofList [("a", "$$$$5"), ("b", "$b")]
    (∃ values, expand ⟨given, .preserve⟩ = .ok values ∧
      values.entries = [("a", "$$5$$$$"), ("b", "$$$$5$$$$$$x")] ∧
      values.collapsed.entries = [("a", "$5$$"), ("b", "$$5$$$x")] ∧
      expand ⟨given, .collapse⟩ = .ok values.collapsed) ∧
    ∃ failure, expand ⟨circle, .preserve⟩ = .error failure ∧
      failure.reached.collapsed.entries = [("a", "$$5")] ∧
      expand ⟨circle, .collapse⟩ = .error ⟨failure.cause, failure.reached.collapsed⟩ := by
  intro given circle
  have hvalues : expand ⟨given, .preserve⟩ =
      .ok (.ofList [("a", "$$5$$$$"), ("b", "$$$$5$$$$$$x")]) := by cbv
  have hfailure : expand ⟨circle, .preserve⟩ =
      .error ⟨.stalled (.cycle (.ofList ["b"])), .ofList [("a", "$$$$5")]⟩ := by cbv
  obtain ⟨hsuccess, hhalved, -⟩ := expand_collapse given
  obtain ⟨hstall, -, hreached⟩ := expand_collapse circle
  rw [hvalues] at hsuccess
  rw [hfailure] at hstall
  have hcollapsed := (hreached _ hfailure).trans (by cbv)
  exact ⟨⟨_, hvalues, by cbv, (hhalved _ hvalues).trans (by cbv), hsuccess⟩, _, hfailure,
    hcollapsed, hstall⟩

end Plan

end Interpolation
