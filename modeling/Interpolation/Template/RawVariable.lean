import Interpolation.Template.Substitution

/-!
# Raw variables

A variable as it was given, before any expansion: a name and a template.

## Main definitions

* `RawVariable` — a name with its template.
* `RawVariable.dependencies`, `RawVariable.isExpanded` — what the template refers to.
* `RawVariable.missing` — the dependencies that some values do not cover yet.
* `RawVariable.expand` — the final text, given the final texts of the dependencies.
-/

namespace Interpolation

/-- A variable as it was given. -/
structure RawVariable where
  /-- The name of the variable. -/
  name : String
  /-- The template that the variable was given. -/
  text : String
  deriving DecidableEq, Repr

namespace RawVariable

/-- The names that the template refers to, each at its first appearance. -/
def dependencies (v : RawVariable) : List String := Template.dependencies v.text

/-- A variable without dependencies is expanded already. -/
def isExpanded (v : RawVariable) : Bool := v.dependencies.isEmpty

/-- The dependencies without a value, in the order of their first appearance. -/
def missing (v : RawVariable) (values : Variables) : List String :=
  v.dependencies.filter fun name => !values.contains name

/-- The text of the variable once its dependencies have the given values. -/
def expand (v : RawVariable) (values : Variables) (mode : EscapeMode) : String :=
  Template.substitute v.text values mode

theorem isExpanded_eq (v : RawVariable) :
    v.isExpanded = Template.isExpanded v.text := by
  rw [Bool.eq_iff_iff, ← Template.dependencies_eq_nil_iff]
  exact List.isEmpty_iff

/-- Nothing is missing exactly when every dependency has a value. -/
theorem missing_eq_nil_iff {v : RawVariable} {values : Variables} :
    v.missing values = [] ↔ ∀ name ∈ v.dependencies, name ∈ values.keys := by
  simp [missing, List.filter_eq_nil_iff, OrderedMap.contains_iff]

end RawVariable

end Interpolation
