import Mathlib
import Interpolation.Proofs.Expansion.Walk
import Interpolation.Proofs.Graph.Stalls

/-!
# Repairing an expansion that stalls

A stall tells what keeps variables from being expanded, and it tells all of it. Its unresolved
names are the least set of variables to leave out: the others expand without them, and whichever
variables are left out to make an expansion succeed, these are among them. Its missing names are
the names to define: once some of them have values, the others are missing and nothing else, and
once all of them have, no later expansion asks for a name again.

Both rest on what it means for a name to be grounded, which does not mention the order in which
names are settled. Leaving variables out grounds no name that was not grounded before, and values
without references bring no new references.

## Main definitions

* `Variables.without` — variables with some of them left out.

## Main results

* `Plan.exists_expand_iff_grounded` — an expansion succeeds when all names are grounded.
* `Plan.unresolved_least` — the unresolved names are the least set of variables to leave out.
* `Plan.missing_after_adding` — the missing names are all names that have to be defined.
-/

namespace Interpolation

variable {p : Plan} {given added joined : Variables} {stall : Graph.Stall} {name other : String}

/-! ### What a stall says about variables -/

namespace Plan

/-- An expansion succeeds exactly when the names of all variables are grounded. -/
theorem exists_expand_iff_grounded :
    (∃ values, p.expand = .ok values) ↔ ∀ name ∈ p.given.keys, p.given.Grounded name := by
  rw [exists_expand_iff, exists_order_iff_exists_resolve, Graph.exists_resolve_iff_grounded,
    names_graph]
  exact forall₂_congr fun _ _ => grounded_graph_iff

theorem mem_unresolved_iff (h : p.order = .error stall) :
    name ∈ stall.unresolved ↔ name ∈ p.given.keys ∧ ¬ p.given.Grounded name := by
  rw [Graph.mem_unresolved_iff (order_eq_error_iff.mp h), names_graph, grounded_graph_iff]

theorem mem_missing_iff (h : p.order = .error stall) :
    name ∈ stall.missing ↔ name ∉ p.given.keys ∧ ∃ user, p.given.RefersTo user name := by
  rw [Graph.mem_missing_iff (order_eq_error_iff.mp h), names_graph, dependsOn_graph]

end Plan

/-! ### Leaving variables out -/

/-- The variables without those with a dropped name, in order. -/
def Variables.without (given : Variables) (dropped : String → Prop) [DecidablePred dropped] :
    Variables :=
  given.filterMap fun name text => if dropped name then none else some text

section Without

variable {dropped : String → Prop} [DecidablePred dropped]

theorem get?_without_eq_some_iff {text : String} :
    (given.without dropped).get? name = some text ↔
      given.get? name = some text ∧ ¬ dropped name := by
  rw [Variables.without, OrderedMap.get?_filterMap, Option.bind_eq_some_iff]
  constructor
  · rintro ⟨found, hget, hkept⟩
    rw [Option.ite_none_left_eq_some, Option.some.injEq] at hkept
    obtain ⟨hname, rfl⟩ := hkept
    exact ⟨hget, hname⟩
  · rintro ⟨hget, hname⟩
    exact ⟨text, hget, if_neg hname⟩

theorem mem_keys_without_iff :
    name ∈ (given.without dropped).keys ↔ name ∈ given.keys ∧ ¬ dropped name := by
  simp only [← OrderedMap.exists_get?_iff, get?_without_eq_some_iff, exists_and_right]

/-- Leaving variables out grounds no name. -/
theorem Variables.Grounded.of_without (h : (given.without dropped).Grounded name) :
    given.Grounded name := by
  induction h with
  | intro hget _ ih => exact .intro (get?_without_eq_some_iff.mp hget).1 ih

/-- A grounded name stays grounded as long as no grounded name is dropped. -/
theorem Variables.Grounded.without (h : given.Grounded name)
    (hkept : ∀ other, given.Grounded other → ¬ dropped other) :
    (given.without dropped).Grounded name := by
  induction h with
  | intro hget hrefs ih =>
    exact .intro (get?_without_eq_some_iff.mpr ⟨hget, hkept _ (.intro hget hrefs)⟩) ih

end Without

namespace Plan

/-- **The unresolved names are the least set of variables to leave out.** When an expansion
stalls, it succeeds without its unresolved variables; and if it succeeds without some variables,
all unresolved ones are among those. -/
theorem unresolved_least {mode : EscapeMode} {failure : Failure}
    (h : expand ⟨given, mode⟩ = .error failure) (hcause : failure.cause = .stalled stall) :
    (∃ values, expand ⟨given.without (· ∈ stall.unresolved), mode⟩ = .ok values) ∧
    ∀ (dropped : String → Prop) [DecidablePred dropped],
      (∃ values, expand ⟨given.without dropped, mode⟩ = .ok values) →
        ∀ name ∈ stall.unresolved, dropped name := by
  have horder : order ⟨given, mode⟩ = .error stall := order_of_expand_error h hcause
  have hunresolved : ∀ name, name ∈ stall.unresolved ↔ name ∈ given.keys ∧ ¬ given.Grounded name :=
    fun _ => mem_unresolved_iff horder
  constructor
  · rw [exists_expand_iff_grounded]
    intro name hname
    obtain ⟨hkey, hkept⟩ := mem_keys_without_iff.mp hname
    have hgrounded : given.Grounded name := by
      by_contra hnot
      exact hkept ((hunresolved name).mpr ⟨hkey, hnot⟩)
    exact hgrounded.without fun other hother hmem => ((hunresolved other).mp hmem).2 hother
  · intro dropped _ hsuccess name hname
    obtain ⟨hkey, hnot⟩ := (hunresolved name).mp hname
    by_contra hkept
    have hgrounded := exists_expand_iff_grounded.mp hsuccess name
      (mem_keys_without_iff.mpr ⟨hkey, hkept⟩)
    exact hnot hgrounded.of_without

/-- A circle, a name behind it and a name that refers to nothing: without either name of the
circle, the other would miss it. -/
theorem unresolved_least_circle :
    let given : Variables :=
      .ofList [("a", "$b"), ("b", "$a"), ("c", "$a$d"), ("d", "$$x"), ("e", "$NONE"), ("f", "$d")]
    let stall : Graph.Stall :=
      .unknownDependency (.ofList ["NONE"]) (.ofList ["a", "b", "c", "e"])
    let failure : Failure := ⟨.stalled stall, .ofList [("d", "$$x")]⟩
    expand ⟨given, .preserve⟩ = .error failure ∧ failure.cause = .stalled stall ∧
      (∃ values, expand ⟨given.without (· ∈ stall.unresolved), .preserve⟩ = .ok values) ∧
      ∀ (dropped : String → Prop) [DecidablePred dropped],
        (∃ values, expand ⟨given.without dropped, .preserve⟩ = .ok values) →
          ∀ name ∈ stall.unresolved, dropped name := by
  intro given stall failure
  have h : expand ⟨given, .preserve⟩ = .error failure := by cbv
  exact ⟨h, rfl, unresolved_least h rfl⟩

end Plan

/-! ### Adding values -/

section Adding

variable (hliteral : ∀ name text, added.get? name = some text → Template.isExpanded text = true)
  (hnew : ∀ name ∈ added.keys, name ∉ given.keys)
  (hjoined : joined.entries.Perm (given.override added).entries)

include hjoined in
theorem get?_joined (name : String) :
    joined.get? name = (added.get? name).or (given.get? name) :=
  (OrderedMap.get?_eq_of_perm hjoined name).trans (OrderedMap.get?_override given added name)

include hjoined in
theorem notMem_keys_joined_iff : name ∉ joined.keys ↔ name ∉ added.keys ∧ name ∉ given.keys := by
  simp only [← OrderedMap.get?_eq_none_iff, get?_joined hjoined, Option.or_eq_none_iff]

include hliteral hnew hjoined in
/-- New values without references bring no references and take none away. -/
theorem refersTo_joined_iff : joined.RefersTo name other ↔ given.RefersTo name other := by
  constructor
  · rintro ⟨text, hget, hother⟩
    rw [get?_joined hjoined, Option.or_eq_some_iff] at hget
    rcases hget with hadded | ⟨-, hget⟩
    · have hexpanded := hliteral name text hadded
      exact absurd hother (Template.isExpanded_iff_references.mp hexpanded other)
    · exact ⟨text, hget, hother⟩
  · rintro ⟨text, hget, hother⟩
    have hnone : added.get? name = none := by
      rw [OrderedMap.get?_eq_none_iff]
      exact fun hadded => hnew name hadded (OrderedMap.exists_get?_iff.mp ⟨text, hget⟩)
    refine ⟨text, ?_, hother⟩
    rw [get?_joined hjoined, hnone, hget, Option.none_or]

include hliteral hnew hjoined in
/-- What is missing after some names have got values was missing before and has got none. -/
theorem Plan.mem_missing_joined_iff {mode : EscapeMode} {again : Graph.Stall}
    (horder : order ⟨given, mode⟩ = .error stall) (hagain : order ⟨joined, mode⟩ = .error again) :
    name ∈ again.missing ↔ name ∈ stall.missing ∧ name ∉ added.keys := by
  rw [mem_missing_iff horder, mem_missing_iff hagain, notMem_keys_joined_iff hjoined]
  simp only [refersTo_joined_iff hliteral hnew hjoined]
  tauto

include hliteral hnew hjoined in
/-- Where some names have got values and there is an order, all missing names have got one. -/
theorem Plan.mem_keys_of_order_joined {mode : EscapeMode} {names : List String}
    (horder : order ⟨given, mode⟩ = .error stall) (hagain : order ⟨joined, mode⟩ = .ok names)
    (hmissing : name ∈ stall.missing) : name ∈ added.keys := by
  obtain ⟨hkey, user, href⟩ := (mem_missing_iff horder).mp hmissing
  have hclosed := (exists_order_iff.mp ⟨names, hagain⟩).1
  have hdefined := hclosed user name ((refersTo_joined_iff hliteral hnew hjoined).mpr href)
  by_contra hnot
  exact (notMem_keys_joined_iff hjoined).mpr ⟨hnot, hkey⟩ hdefined

end Adding

/-- **The missing names are all names that have to be defined.** When names are missing and some
names that have no text get texts without references, in whatever places, exactly those missing
names that got none are missing. If no missing name was left out, the expansion succeeds or its
references go round in a circle: no name is missing again. -/
theorem Plan.missing_after_adding {mode : EscapeMode} {missing unresolved : NameSet}
    {failure : Failure} (h : expand ⟨given, mode⟩ = .error failure)
    (hcause : failure.cause = .stalled (.unknownDependency missing unresolved))
    (hliteral : ∀ name text, added.get? name = some text → Template.isExpanded text = true)
    (hnew : ∀ name ∈ added.keys, name ∉ given.keys)
    (hjoined : joined.entries.Perm (given.override added).entries) :
    ((∃ name ∈ missing, name ∉ added.keys) →
      ∃ again still left, expand ⟨joined, mode⟩ = .error again ∧
        again.cause = .stalled (.unknownDependency still left) ∧
        ∀ name, name ∈ still ↔ name ∈ missing ∧ name ∉ added.keys) ∧
    ((∀ name ∈ missing, name ∈ added.keys) →
      (∃ values, expand ⟨joined, mode⟩ = .ok values) ∨
      ∃ again left, expand ⟨joined, mode⟩ = .error again ∧
        again.cause = .stalled (.cycle left)) := by
  have horder : order ⟨given, mode⟩ = .error (.unknownDependency missing unresolved) :=
    order_of_expand_error h hcause
  have hstill : ∀ {again}, order ⟨joined, mode⟩ = .error again → ∀ name,
      name ∈ again.missing ↔ name ∈ missing ∧ name ∉ added.keys := fun hagain _ =>
    mem_missing_joined_iff hliteral hnew hjoined horder hagain
  constructor
  · rintro ⟨name, hmissing, hnot⟩
    cases hagain : order ⟨joined, mode⟩ with
    | ok names =>
      exact absurd (mem_keys_of_order_joined hliteral hnew hjoined horder hagain hmissing) hnot
    | error again =>
      have hmem := (hstill hagain name).mpr ⟨hmissing, hnot⟩
      refine ⟨_, again.missing, again.unresolved, expand_eq_error_iff.mpr ⟨again, hagain, rfl⟩, ?_,
        hstill hagain⟩
      exact congrArg Cause.stalled (Graph.Stall.eq_unknownDependency_of_mem_missing hmem)
  · intro hcovered
    cases hagain : order ⟨joined, mode⟩ with
    | ok names => exact Or.inl (exists_expand_iff.mpr ⟨names, hagain⟩)
    | error again =>
      have hnone : ∀ name, name ∉ again.missing := fun name hmem =>
        ((hstill hagain name).mp hmem).2 (hcovered name ((hstill hagain name).mp hmem).1)
      refine Or.inr ⟨_, again.unresolved, expand_eq_error_iff.mpr ⟨again, hagain, rfl⟩, ?_⟩
      have hcycle := Graph.eq_cycle_of_resolve (order_eq_error_iff.mp hagain) hnone
      exact congrArg Cause.stalled hcycle

/-- Two missing names, one of which gets a value in front of the variables. -/
theorem Plan.missing_after_adding_home :
    let given : Variables := .ofList [("path", "$HOME/$BIN"), ("loop", "$path$loop")]
    let added : Variables := .ofList [("HOME", "/h$$")]
    let joined : Variables :=
      .ofList [("HOME", "/h$$"), ("path", "$HOME/$BIN"), ("loop", "$path$loop")]
    let failure : Failure :=
      ⟨.stalled (.unknownDependency (.ofList ["BIN", "HOME"]) (.ofList ["loop", "path"])), ∅⟩
    expand ⟨given, .preserve⟩ = .error failure ∧
      (∀ name text, added.get? name = some text → Template.isExpanded text = true) ∧
      (∀ name ∈ added.keys, name ∉ given.keys) ∧
      joined.entries.Perm (given.override added).entries ∧
      ∃ again still left, expand ⟨joined, .preserve⟩ = .error again ∧
        again.cause = .stalled (.unknownDependency still left) ∧
        ∀ name, name ∈ still ↔ name ∈ NameSet.ofList ["BIN", "HOME"] ∧ name ∉ added.keys := by
  intro given added joined failure
  have h : expand ⟨given, .preserve⟩ = .error failure := by cbv
  have hliteral : ∀ name text, added.get? name = some text → Template.isExpanded text = true := by
    intro name text hget
    have hmem : (name, text) ∈ [("HOME", "/h$$")] := OrderedMap.get?_eq_some_iff.mp hget
    obtain ⟨-, rfl⟩ := Prod.mk.inj (List.mem_singleton.mp hmem)
    cbv
  have hnew : ∀ name ∈ added.keys, name ∉ given.keys := by decide
  have hjoined : joined.entries.Perm (given.override added).entries := by decide
  have hmissing := (missing_after_adding h rfl hliteral hnew hjoined).1
  exact ⟨h, hliteral, hnew, hjoined, hmissing ⟨"BIN", by decide, by decide⟩⟩

end Interpolation
