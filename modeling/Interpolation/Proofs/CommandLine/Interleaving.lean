import Mathlib.Data.List.Basic
import Interpolation.CommandLine.Invocation

/-!
# Interleaved arguments

The items of a list of arguments come in the order of the command line. An input takes the values
of each of its settings in that order, and the assignments in theirs. So it does not matter how the
settings and the assignments are interleaved.

## Main definitions

* `Input.IsNamedBy` — an input has the values that items give.
* `Reordered` — items of which only the interleaving differs.

## Main results

* `exists_isNamedBy` — what can be understood names the input of its command.
* `parse?_eq_of_reordered` — the interleaving does not matter.
-/

namespace Interpolation.CommandLine

variable {arguments : List String} {invocation : Invocation} {input : Input}
  {items others : List Item} {setting : Setting}

/-! ### What items name -/

/-- An input has the values that items give, for each kind of source in the order of the items. -/
structure Input.IsNamedBy (input : Input) (items : List Item) : Prop where
  files_eq : input.files = valuesOf .inputFile items
  directories_eq : input.directories = valuesOf .inputDirectory items
  withEnvironment_iff : input.withEnvironment = true ↔ valuesOf .withEnvironment items ≠ []
  assignments_eq : input.assignments = assignmentsOf items

theorem paths_eq_valuesOf {paths : List String} (h : pathsOf? setting items = some paths) :
    paths = valuesOf setting items := by
  unfold pathsOf? at h
  dsimp only at h
  split at h
  · cases h
  · exact (Option.some.inj h).symm

theorem valueOf?_true_iff {flag : Bool}
    (h : valueOf? setting (fun _ => some true) false items = some flag) :
    flag = true ↔ valuesOf setting items ≠ [] := by
  unfold valueOf? at h
  split at h
  · next hnil => simp [hnil, ← Option.some.inj h]
  · next hone => simp [hone, ← Option.some.inj h]
  · cases h

theorem isNamedBy_of_inputOf? (h : inputOf? items = some input) : input.IsNamedBy items := by
  simp only [inputOf?, bind, Option.bind_eq_some_iff, pure] at h
  obtain ⟨files, hfiles, directories, hdirectories, flag, hflag, hinput⟩ := h
  cases hinput
  exact ⟨paths_eq_valuesOf hfiles, paths_eq_valuesOf hdirectories, valueOf?_true_iff hflag, rfl⟩

theorem inputOf?_of_commandOf? {level : Level} {command : Command}
    (h : commandOf? level items = some command) : inputOf? items = some command.input := by
  rw [commandOf?] at h
  obtain ⟨input, hinput, hcommand⟩ := Option.bind_eq_some_iff.mp h
  rw [hinput]
  cases level with
  | program => cases hcommand
  | dev => cases hcommand
  | expand =>
    obtain ⟨escapes, -, hformat⟩ := Option.bind_eq_some_iff.mp hcommand
    obtain ⟨format, -, hexpand⟩ := Option.bind_eq_some_iff.mp hformat
    cases hexpand
    rfl
  | sources =>
    cases hcommand
    rfl
  | graph =>
    obtain ⟨format, -, hgraph⟩ := Option.bind_eq_some_iff.mp hcommand
    cases hgraph
    rfl
  | order =>
    cases hcommand
    rfl

/-- A command depends on the assignments and on the values of all settings but the changes of
directory. -/
theorem commandOf?_congr
    (hvalues : ∀ setting, setting ≠ .changeDirectory →
      valuesOf setting items = valuesOf setting others)
    (hassignments : assignmentsOf items = assignmentsOf others) (level : Level) :
    commandOf? level items = commandOf? level others := by
  simp only [commandOf?, inputOf?, formatOf?, valueOf?, pathsOf?, hassignments,
    hvalues .inputFile (by decide), hvalues .inputDirectory (by decide),
    hvalues .withEnvironment (by decide), hvalues .escapes (by decide),
    hvalues .outputFormat (by decide)]

theorem parse?_of_readItems {level : Level}
    (h : readItems .program none arguments = some (items, level)) :
    Invocation.parse? arguments = (do
      let _ ← pathsOf? .changeDirectory items
      return ⟨changesOf items, ← commandOf? level items⟩) := by
  rw [Invocation.parse?, h]
  rfl

/-- What can be understood names the input of its command. -/
theorem exists_isNamedBy (h : Invocation.parse? arguments = some invocation) :
    ∃ items level, readItems .program none arguments = some (items, level) ∧
      invocation.command.input.IsNamedBy items := by
  cases hread : readItems .program none arguments with
  | none =>
    rw [Invocation.parse?, hread] at h
    cases h
  | some read =>
    obtain ⟨items, level⟩ := read
    rw [parse?_of_readItems hread] at h
    obtain ⟨changes, -, hrest⟩ := Option.bind_eq_some_iff.mp h
    obtain ⟨command, hcommand, hinvocation⟩ := Option.bind_eq_some_iff.mp hrest
    cases hinvocation
    exact ⟨items, level, rfl, isNamedBy_of_inputOf? (inputOf?_of_commandOf? hcommand)⟩

/-! ### Interleaving -/

/-- Whether an item gives a value to a setting. -/
def Item.isSet (setting : Setting) : Item → Bool
  | .set _ given _ => given == setting
  | .assignment _ => false

/-- Items that are interleaved in another way: what is said of each setting stays in order, and so
do the assignments. -/
structure Reordered (items others : List Item) : Prop where
  filter_isSet_eq (setting : Setting) :
    items.filter (Item.isSet setting) = others.filter (Item.isSet setting)
  assignments_eq : assignmentsOf items = assignmentsOf others

theorem valuesOf_filter_isSet (setting : Setting) (items : List Item) :
    valuesOf setting (items.filter (Item.isSet setting)) = valuesOf setting items := by
  rw [valuesOf, valuesOf, List.filterMap_filter]
  refine List.filterMap_congr fun item _ => ?_
  cases item with
  | set level given value =>
    by_cases hgiven : given = setting <;> simp [Item.isSet, hgiven]
  | assignment text => rfl

theorem itemsAt_filter_isSet (level : Nat) (setting : Setting) (items : List Item) :
    itemsAt level (items.filter (Item.isSet setting)) =
      (itemsAt level items).filter (Item.isSet setting) := by
  rw [itemsAt, itemsAt, List.filter_comm]

namespace Reordered

theorem valuesOf_eq (h : Reordered items others) (setting : Setting) :
    valuesOf setting items = valuesOf setting others := by
  rw [← valuesOf_filter_isSet, h.filter_isSet_eq, valuesOf_filter_isSet]

theorem changesOf_eq (h : Reordered items others) : changesOf items = changesOf others := by
  have hgiven : ∀ level, valuesOf .changeDirectory (itemsAt level items) =
      valuesOf .changeDirectory (itemsAt level others) := by
    intro level
    rw [← valuesOf_filter_isSet, ← itemsAt_filter_isSet, h.filter_isSet_eq, itemsAt_filter_isSet,
      valuesOf_filter_isSet]
  simp only [changesOf, hgiven]

theorem commandOf?_eq (h : Reordered items others) (level : Level) :
    commandOf? level items = commandOf? level others :=
  commandOf?_congr (fun setting _ => h.valuesOf_eq setting) h.assignments_eq level

end Reordered

/-- How settings and assignments are interleaved does not matter. -/
theorem parse?_eq_of_reordered {level : Level} {again : List String}
    (hitems : readItems .program none arguments = some (items, level))
    (hothers : readItems .program none again = some (others, level))
    (h : Reordered items others) : Invocation.parse? arguments = Invocation.parse? again := by
  rw [parse?_of_readItems hitems, parse?_of_readItems hothers, pathsOf?, pathsOf?, h.valuesOf_eq,
    h.changesOf_eq, h.commandOf?_eq]

end Interpolation.CommandLine
