import Mathlib
import Interpolation.Proofs.Expansion.Walk

/-!
# Final values as the solution of a system of equations

Variables set up one equation for each name: its value is its text, written with the values of all
names at once. A successful expansion solves this system although it never looks at it as a whole.
It writes each text once, with the values that it has by then. The system has no other solution,
because two solutions that agree on the names a text refers to agree on the name of the text, and
the references of variables with an order come to an end.

## Main definitions

* `Variables.IsSolution` — values that satisfy all equations at once.

## Main results

* `Plan.isSolution_of_expand` — final values solve the equations.
* `Plan.get?_eq_of_isSolution` — where there is an order, solutions agree on all names.
* `Plan.expand_unique_solution` — the final values are the only solution.
-/

namespace Interpolation

/-- Values for the given names, each of them the text of its name written with all values. -/
structure Variables.IsSolution (given : Variables) (mode : EscapeMode) (values : Variables) :
    Prop where
  /-- The names with a value are the given ones. -/
  mem_keys_iff (name : String) : name ∈ values.keys ↔ name ∈ given.keys
  /-- A value is the text of its name with every reference replaced by a value. -/
  get?_eq {name text : String} : given.get? name = some text →
    values.get? name = some (Template.substitute text values mode)

namespace Plan

variable {p : Plan} {values other : Variables}

theorem mem_keys_of_expand (h : p.expand = .ok values) (name : String) :
    name ∈ values.keys ↔ name ∈ p.given.keys := by
  obtain ⟨names, horder, hwalk⟩ := expand_eq_ok_iff.mp h
  rw [mem_keys_walk (nodup_of_order horder) hwalk, (perm_of_order horder).mem_iff]
  refine or_iff_right_of_imp fun hseeded => ?_
  obtain ⟨text, hget, -⟩ := mem_keys_seeded_iff.mp hseeded
  exact OrderedMap.exists_get?_iff.mp ⟨text, hget⟩

/-- Final values are settled: they hold a value for every name that a text refers to. -/
theorem settled_of_expand (h : p.expand = .ok values) {name text : String}
    (hget : p.given.get? name = some text) :
    values.Covers text ∧
      values.get? name = some (Template.substitute text values p.escapes) := by
  obtain ⟨names, -, hwalk⟩ := expand_eq_ok_iff.mp h
  have hname : name ∈ values.keys :=
    (mem_keys_of_expand h name).mpr (OrderedMap.exists_get?_iff.mp ⟨text, hget⟩)
  obtain ⟨value, hvalue⟩ := OrderedMap.exists_get?_iff.mpr hname
  obtain ⟨text', hget', hcovers, hsubst⟩ := (settled_seeded p).walk hwalk name value hvalue
  obtain rfl := Option.some.inj (hget.symm.trans hget')
  exact ⟨hcovers, by rw [hvalue, hsubst]⟩

/-- Final values solve the equations of the variables. -/
theorem isSolution_of_expand (h : p.expand = .ok values) :
    p.given.IsSolution p.escapes values where
  mem_keys_iff := mem_keys_of_expand h
  get?_eq hget := (settled_of_expand h hget).2

/-- Two solutions agree on every name, by induction along the references. -/
theorem get?_eq_of_isSolution {names : List String} (horder : p.order = .ok names)
    (hvalues : p.given.IsSolution p.escapes values) (hother : p.given.IsSolution p.escapes other)
    (name : String) : other.get? name = values.get? name := by
  have hagree : ∀ name ∈ p.given.keys, other.get? name = values.get? name := by
    refine reference_induction horder fun name text hget hrefs => ?_
    -- Both values are the same text, written with values that agree on its references.
    rw [hvalues.get?_eq hget, hother.get?_eq hget]
    exact congrArg some (Template.substitute_congr hrefs)
  by_cases hname : name ∈ p.given.keys
  · exact hagree name hname
  · rw [OrderedMap.get?_eq_none_iff.mpr (mt (hvalues.mem_keys_iff name).mp hname),
      OrderedMap.get?_eq_none_iff.mpr (mt (hother.mem_keys_iff name).mp hname)]

/-- **Final values are the unique solution.** A successful expansion gives the given names, and no
others, the values that satisfy all equations at once. Every reference has such a value, and no
other values for these names satisfy the equations. -/
theorem expand_unique_solution (h : p.expand = .ok values) :
    p.given.IsSolution p.escapes values ∧
    (∀ name text, p.given.get? name = some text → values.Covers text) ∧
    ∀ other, p.given.IsSolution p.escapes other → ∀ name, other.get? name = values.get? name := by
  obtain ⟨names, horder, -⟩ := expand_eq_ok_iff.mp h
  have hsolution := isSolution_of_expand h
  refine ⟨hsolution, fun name text hget => (settled_of_expand h hget).1, ?_⟩
  intro other hother
  exact get?_eq_of_isSolution horder hsolution hother

/-- An escape before a reference, and a value with a dollar sign that is not read again. -/
theorem expand_unique_solution_price :
    let p : Plan := ⟨.ofList [("label", "$$$price costs $price"), ("price", "$$5")], .collapse⟩
    let values : Variables := .ofList [("price", "$5"), ("label", "$$5 costs $5")]
    p.expand = .ok values ∧ p.given.IsSolution p.escapes values ∧
      ∀ other, p.given.IsSolution p.escapes other → ∀ name, other.get? name = values.get? name := by
  intro p values
  have h : p.expand = .ok values := by cbv
  obtain ⟨hsolution, -, hunique⟩ := expand_unique_solution h
  exact ⟨h, hsolution, hunique⟩

end Plan

end Interpolation
