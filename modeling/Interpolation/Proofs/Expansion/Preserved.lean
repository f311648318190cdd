import Interpolation.Proofs.Expansion.Solution

/-!
# Final values with preserved escapes

With escapes preserved, a final value refers to no name. It is therefore a text that stands for
itself, and it may take the place of the text that it came from. Whichever names are given their
final values beforehand, the references that remain are some of those that were there before, so
there is still an order, and the final values satisfy the new equations too. As these have only one
solution, the outcome is the same.

## Main definitions

* `Variables.presettle` — variables with some texts replaced by their final values.

## Main results

* `isExpanded_of_expand` — final values refer to no name.
* `expand_of_isExpanded` — texts without references are their own final values.
* `expand_presettle` — final values put in beforehand do not show in the outcome.
-/

namespace Interpolation

open Relation

/-- The variables with the texts of the chosen names replaced by their final values. -/
def Variables.presettle (given final : Variables) (chosen : NameSet) : Variables :=
  given.filterMap fun name text =>
    some (if name ∈ chosen then (final.get? name).getD text else text)

variable {given values : Variables}

/-! ### Final values refer to no name -/

/-- With escapes preserved, final values refer to no name. -/
theorem isExpanded_of_expand (h : expand given = .ok values) {name value : String}
    (hvalue : values.get? name = some value) : Template.isExpanded value = true := by
  obtain ⟨names, horder, -⟩ := Plan.expand_eq_ok_iff.mp h
  have hall : ∀ name ∈ given.keys, ∀ value, values.get? name = some value →
      Template.isExpanded value = true := by
    refine Plan.reference_induction horder fun name text hget hrefs value hvalue => ?_
    rw [(Plan.isSolution_of_expand h).get?_eq hget] at hvalue
    rw [← Option.some.inj hvalue]
    exact Template.isExpanded_substitute hrefs
  have hname : name ∈ values.keys := OrderedMap.exists_get?_iff.mp ⟨value, hvalue⟩
  exact hall name ((Plan.mem_keys_of_expand h name).mp hname) value hvalue

/-- Texts without references are their own final values, in the same order. -/
theorem expand_of_isExpanded
    (h : ∀ name text, values.get? name = some text → Template.isExpanded text = true) :
    expand values = .ok values := by
  have hseeded : Plan.seeded ⟨values, .preserve⟩ = values := by
    have hexpanded : ∀ entry ∈ values.entries, Template.isExpanded entry.2 = true :=
      fun entry hmem => h entry.1 entry.2 (OrderedMap.get?_eq_some_iff.mpr hmem)
    refine OrderedMap.ext ?_
    rw [Plan.entries_seeded, List.filter_eq_self.mpr hexpanded]
    refine (List.map_congr_left fun entry hmem => ?_).trans (List.map_id' _)
    exact congrArg (entry.1, ·) (Template.substitute_preserve_of_isExpanded (hexpanded entry hmem))
  have hnone : ∀ name other, ¬ values.RefersTo name other := by
    rintro name other ⟨text, hget, hother⟩
    exact Template.isExpanded_iff_references.mp (h name text hget) other hother
  obtain ⟨names, horder⟩ : ∃ names, Plan.order ⟨values, .preserve⟩ = .ok names := by
    refine Plan.exists_order_iff.mpr ⟨fun name other href => absurd href (hnone name other), ?_⟩
    intro name hcycle
    obtain ⟨other, href, -⟩ := TransGen.head'_iff.mp hcycle
    exact hnone name other href
  rw [expand, Plan.expand, horder, hseeded]
  exact Plan.walk_of_subset_keys fun name hmem => (Plan.perm_of_order horder).mem_iff.mp hmem

/-! ### Final values put in beforehand -/

theorem keys_presettle (given final : Variables) (chosen : NameSet) :
    (given.presettle final chosen).keys = given.keys :=
  OrderedMap.keys_filterMap_some _ _

theorem get?_presettle (given final : Variables) (chosen : NameSet) (name : String) :
    (given.presettle final chosen).get? name = (given.get? name).map fun text =>
      if name ∈ chosen then (final.get? name).getD text else text := by
  rw [Variables.presettle, OrderedMap.get?_filterMap, Option.map_eq_bind]
  rfl

/-- A text after some final values have been put in is the text from before or a final value. -/
theorem get?_presettle_cases (h : expand given = .ok values) {chosen : NameSet}
    {name text : String} (hget : (given.presettle values chosen).get? name = some text) :
    given.get? name = some text ∨ values.get? name = some text := by
  rw [get?_presettle, Option.map_eq_some_iff] at hget
  obtain ⟨before, hbefore, rfl⟩ := hget
  split
  · rw [(Plan.isSolution_of_expand h).get?_eq hbefore, Option.getD_some]
    exact Or.inr rfl
  · exact Or.inl hbefore

/-- Putting in final values adds no references. -/
theorem refersTo_of_presettle (h : expand given = .ok values) {chosen : NameSet}
    {name other : String} (href : (given.presettle values chosen).RefersTo name other) :
    given.RefersTo name other := by
  obtain ⟨text, hget, hother⟩ := href
  rcases get?_presettle_cases h hget with hbefore | hfinal
  · exact ⟨text, hbefore, hother⟩
  · have hexpanded := isExpanded_of_expand h hfinal
    exact absurd hother (Template.isExpanded_iff_references.mp hexpanded other)

/-- The final values solve the equations that remain when some of them have been put in. -/
theorem isSolution_presettle (h : expand given = .ok values) (chosen : NameSet) :
    (given.presettle values chosen).IsSolution .preserve values where
  mem_keys_iff name := by
    rw [keys_presettle]
    exact Plan.mem_keys_of_expand h name
  get?_eq {name text} hget := by
    rcases get?_presettle_cases h hget with hbefore | hfinal
    · exact (Plan.isSolution_of_expand h).get?_eq hbefore
    · rw [Template.substitute_preserve_of_isExpanded (isExpanded_of_expand h hfinal), hfinal]

/-- There is still an order when some final values have been put in. -/
theorem exists_order_presettle (h : expand given = .ok values) (chosen : NameSet) :
    ∃ names, Plan.order ⟨given.presettle values chosen, .preserve⟩ = .ok names := by
  obtain ⟨names, horder, -⟩ := Plan.expand_eq_ok_iff.mp h
  obtain ⟨hclosed, hacyclic⟩ := Plan.exists_order_iff.mp ⟨names, horder⟩
  refine Plan.exists_order_iff.mpr ⟨fun name other href => ?_, fun name hcycle => ?_⟩
  · rw [keys_presettle]
    exact hclosed name other (refersTo_of_presettle h href)
  · exact hacyclic name (TransGen.mono (fun _ _ => refersTo_of_presettle h) _ _ hcycle)

/-- **Final values put in beforehand do not show.** With escapes preserved, no final value refers
to a name; whichever names are given their final values beforehand, the expansion succeeds with the
same value for every name; and the final values are expanded to themselves, in the same order. -/
theorem expand_presettle (h : expand given = .ok values) :
    (∀ name value, values.get? name = some value → Template.isExpanded value = true) ∧
    (∀ chosen, ∃ again, expand (given.presettle values chosen) = .ok again ∧
      ∀ name, again.get? name = values.get? name) ∧
    expand values = .ok values := by
  have hexpanded : ∀ name value, values.get? name = some value →
      Template.isExpanded value = true := fun _ _ => isExpanded_of_expand h
  refine ⟨hexpanded, fun chosen => ?_, expand_of_isExpanded hexpanded⟩
  obtain ⟨names, horder⟩ := exists_order_presettle h chosen
  obtain ⟨again, hagain⟩ := Plan.exists_expand_iff.mpr ⟨names, horder⟩
  refine ⟨again, hagain, ?_⟩
  exact Plan.get?_eq_of_isSolution horder (isSolution_presettle h chosen)
    (Plan.isSolution_of_expand hagain)

/-- Escapes and values side by side, with the middle one of three values put in beforehand. -/
theorem expand_presettle_adjacent :
    let given : Variables := .ofList [("b", "$$$a$a"), ("c", "$b.$a"), ("a", "$$")]
    let values : Variables := .ofList [("a", "$$"), ("b", "$$$$$$"), ("c", "$$$$$$.$$")]
    expand given = .ok values ∧
      (∀ name value, values.get? name = some value → Template.isExpanded value = true) ∧
      (∃ again, expand (given.presettle values (.ofList ["b"])) = .ok again ∧
        ∀ name, again.get? name = values.get? name) ∧
      expand values = .ok values := by
  intro given values
  have h : expand given = .ok values := by cbv
  obtain ⟨hexpanded, hagain, hself⟩ := expand_presettle h
  exact ⟨h, hexpanded, hagain (.ofList ["b"]), hself⟩

end Interpolation
