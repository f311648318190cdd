import Mathlib
import Interpolation.Proofs.Expansion.Walk

/-!
# When an expansion succeeds

An expansion has one way to fail, and it lies before the walk: the names have no order. This is
the case exactly when some text refers to a name without a text, or when references go round in a
circle. Along an order, the two faults that a step of the walk looks for do not occur, no event
tells of a failure, and no reference is written as nothing for want of a value. What is reached
when the order is missing are the texts without references.

## Main results

* `Plan.failed_notMem_events` — no event tells of a failure.
* `Plan.expand_succeeds_or_stalls` — success, failure and what happens in between.
-/

namespace Interpolation

namespace Plan

/-- No event of an expansion tells of a failure. -/
theorem failed_notMem_events (p : Plan) (name : String) : Event.failed name ∉ p.events := by
  rw [events]
  have hwalk : ∀ {names}, p.order = .ok names →
      Event.failed name ∉ p.walkEvents 0 p.seeded names := by
    intro names horder
    obtain ⟨values, hvalues⟩ := exists_walk_of_order horder
    exact failed_notMem_walkEvents hvalues name
  cases horder : p.order with
  | error stall => simp
  | ok names => simpa using hwalk horder

/-- **An expansion succeeds or stalls.** It succeeds exactly when every reference is the name of a
variable and no references go round in a circle. It fails only with the stall of the ordering, and
keeps the entries whose texts refer to no name, in order. No event tells of a failure. No reference
is ever written without a value: only texts that have none are seeded, and when the turn of a name
comes, all names that its text refers to have values. -/
theorem expand_succeeds_or_stalls (p : Plan) :
    ((∃ values, p.expand = .ok values) ↔ p.given.Closed ∧ p.given.Acyclic) ∧
    (∀ failure, p.expand = .error failure →
      (∃ stall, p.order = .error stall ∧ failure.cause = .stalled stall) ∧
      failure.reached.entries =
        (p.given.entries.filter fun entry => Template.isExpanded entry.2).map fun entry =>
          (entry.1, Template.substitute entry.2 ∅ p.escapes)) ∧
    (∀ name, Event.failed name ∉ p.events) ∧
    (∀ (v : RawVariable) (reached : Variables),
      (v.isExpanded = true → reached.Covers v.text) ∧
      (v.isExpanded = false → p.seed reached v = reached)) ∧
    ∀ before name after, p.order = .ok (before ++ name :: after) →
      ∃ reached text, p.walk p.seeded before = .ok reached ∧ p.given.get? name = some text ∧
        reached.Covers text := by
  refine ⟨exists_expand_iff.trans exists_order_iff, ?_, failed_notMem_events p,
    fun v reached => ⟨fun hexpanded other hother => ?_, fun hnot => ?_⟩,
    fun before name after horder => ?_⟩
  · intro failure hfailure
    obtain ⟨stall, horder, rfl⟩ := expand_eq_error_iff.mp hfailure
    exact ⟨⟨stall, horder, rfl⟩, entries_seeded p⟩
  · rw [RawVariable.isExpanded_eq] at hexpanded
    exact absurd hother (Template.isExpanded_iff_references.mp hexpanded other)
  · rw [seed, hnot]
    rfl
  · obtain ⟨values, hvalues⟩ := exists_walk_of_order horder
    obtain ⟨reached, hreached, -⟩ := walk_append_eq_ok_iff.mp hvalues
    obtain ⟨text, hget, hcovers⟩ := covers_of_walk horder hreached
    exact ⟨reached, text, hreached, hget, hcovers⟩

/-- Two names that refer to each other, beside a name whose value is reached nevertheless. -/
theorem expand_succeeds_or_stalls_circle :
    let p : Plan := ⟨.ofList [("a", "$b"), ("b", "$a"), ("c", "$$x")], .collapse⟩
    let failure : Failure := ⟨.stalled (.cycle (.ofList ["a", "b"])), .ofList [("c", "$x")]⟩
    p.expand = .error failure ∧ ¬ (p.given.Closed ∧ p.given.Acyclic) ∧
      ∃ stall, p.order = .error stall ∧ failure.cause = .stalled stall := by
  intro p failure
  have h : p.expand = .error failure := by cbv
  obtain ⟨hsuccess, hfailure, -⟩ := expand_succeeds_or_stalls p
  refine ⟨h, fun hgood => ?_, (hfailure failure h).1⟩
  obtain ⟨values, hvalues⟩ := hsuccess.mpr hgood
  rw [h] at hvalues
  cases hvalues

end Plan

end Interpolation
