import Mathlib
import Interpolation.Proofs.Expansion.Solution

/-!
# What a final value depends on

A final value is made of the text of its name and of the texts of the names to which references
lead from there. Two plans may have different graphs and different orders; where they hold the same
texts along all references from a name, they come to the same value for it. So if the values of a
name differ, a path of references leads to a name whose texts differ, and since all texts before it
are the same, the path exists in both plans.

## Main results

* `Plan.exists_reference_of_ne` — one text with two final values refers to a name with two.
* `Plan.exists_changed_of_ne` — different values come from different texts that are reached.
* `Plan.expand_agree_of_reachable` — equal texts at all names reached give equal values.
-/

namespace Interpolation

open Relation

namespace Plan

variable {p q : Plan} {values others : Variables} {name : String}

/-- A text with different final values in two plans refers to a name with different values. -/
theorem exists_reference_of_ne (hescapes : q.escapes = p.escapes) (hp : p.expand = .ok values)
    (hq : q.expand = .ok others) {text : String} (hget : p.given.get? name = some text)
    (hget' : q.given.get? name = some text) (hne : others.get? name ≠ values.get? name) :
    ∃ other ∈ Template.references text, others.get? other ≠ values.get? other := by
  by_contra hnone
  push Not at hnone
  have hvalue := (isSolution_of_expand hp).get?_eq hget
  have hvalue' := (isSolution_of_expand hq).get?_eq hget'
  rw [hvalue, hvalue', hescapes, Template.substitute_congr hnone] at hne
  exact hne rfl

/-- Different values for a name come from a name that references lead to and whose texts differ. -/
theorem exists_changed_of_ne (hescapes : q.escapes = p.escapes) (hp : p.expand = .ok values)
    (hq : q.expand = .ok others) (hne : others.get? name ≠ values.get? name) :
    ∃ changed, ReflTransGen p.given.RefersTo name changed ∧
      ReflTransGen q.given.RefersTo name changed ∧
      q.given.get? changed ≠ p.given.get? changed := by
  obtain ⟨names, horder, -⟩ := expand_eq_ok_iff.mp hp
  -- By induction along the references of the first plan: a text that did not change refers to a
  -- name with different values.
  have hkeys : ∀ name ∈ p.given.keys, others.get? name ≠ values.get? name →
      ∃ changed, ReflTransGen p.given.RefersTo name changed ∧
        ReflTransGen q.given.RefersTo name changed ∧
        q.given.get? changed ≠ p.given.get? changed := by
    refine reference_induction horder fun name text hget ih hne => ?_
    by_cases hsame : q.given.get? name = p.given.get? name
    · have hget' := hsame.trans hget
      obtain ⟨other, hother, hne'⟩ := exists_reference_of_ne hescapes hp hq hget hget' hne
      obtain ⟨changed, hpath, hpath', hchanged⟩ := ih other hother hne'
      exact ⟨changed, .head ⟨text, hget, hother⟩ hpath, .head ⟨text, hget', hother⟩ hpath',
        hchanged⟩
    · exact ⟨name, .refl, .refl, hsame⟩
  by_cases hname : name ∈ p.given.keys
  · exact hkeys name hname hne
  · refine ⟨name, .refl, .refl, fun hsame => hne ?_⟩
    have hnone : p.given.get? name = none := OrderedMap.get?_eq_none_iff.mpr hname
    have hname' : name ∉ q.given.keys := OrderedMap.get?_eq_none_iff.mp (hsame.trans hnone)
    rw [OrderedMap.get?_eq_none_iff.mpr (mt (mem_keys_of_expand hp name).mp hname),
      OrderedMap.get?_eq_none_iff.mpr (mt (mem_keys_of_expand hq name).mp hname')]

/-- **A final value depends on what its name reaches.** If two plans for the same mode succeed and
hold the same text for a name and for all names that references lead to from it, they give the name
the same value. So a change of other variables, of whatever kind, shows in a final value only if
references lead from its name to one of the names that were changed, before the change as well as
after it. -/
theorem expand_agree_of_reachable (hescapes : q.escapes = p.escapes)
    (hp : p.expand = .ok values) (hq : q.expand = .ok others) (name : String) :
    ((∀ other, ReflTransGen p.given.RefersTo name other →
      q.given.get? other = p.given.get? other) → others.get? name = values.get? name) ∧
    (others.get? name ≠ values.get? name →
      ∃ changed, ReflTransGen p.given.RefersTo name changed ∧
        ReflTransGen q.given.RefersTo name changed ∧
        q.given.get? changed ≠ p.given.get? changed) := by
  refine ⟨fun hagree => ?_, exists_changed_of_ne hescapes hp hq⟩
  by_contra hne
  obtain ⟨changed, hpath, -, hchanged⟩ := exists_changed_of_ne hescapes hp hq hne
  exact hchanged (hagree changed hpath)

/-- A greeting, with a name and a home before and behind it that it does not reach. -/
theorem expand_agree_of_reachable_greeting :
    let p : Plan := ⟨.ofList [("hello", "hi $user"), ("user", "me"), ("home", "/$user")], .collapse⟩
    let q : Plan := ⟨.ofList [("home", "$hello"), ("user", "me"), ("hello", "hi $user")], .collapse⟩
    let values : Variables := .ofList [("user", "me"), ("hello", "hi me"), ("home", "/me")]
    let others : Variables := .ofList [("user", "me"), ("hello", "hi me"), ("home", "hi me")]
    q.escapes = p.escapes ∧ p.expand = .ok values ∧ q.expand = .ok others ∧
      (∀ other, ReflTransGen p.given.RefersTo "hello" other →
        q.given.get? other = p.given.get? other) ∧
      others.get? "hello" = values.get? "hello" ∧
      ∃ changed, ReflTransGen p.given.RefersTo "home" changed ∧
        ReflTransGen q.given.RefersTo "home" changed ∧
        q.given.get? changed ≠ p.given.get? changed := by
  intro p q values others
  have hescapes : q.escapes = p.escapes := rfl
  have hp : p.expand = .ok values := by cbv
  have hq : q.expand = .ok others := by cbv
  have hreach : ∀ other, ReflTransGen p.given.RefersTo "hello" other →
      other = "hello" ∨ other = "user" := by
    intro other hpath
    induction hpath with
    | refl => exact Or.inl rfl
    | tail _ href ih =>
      obtain ⟨text, hget, hother⟩ := href
      rcases ih with rfl | rfl
      · obtain rfl : "hi $user" = text := Option.some.inj hget
        have hrefs : Template.references "hi $user" = ["user"] := by cbv
        rw [hrefs] at hother
        exact Or.inr (List.mem_singleton.mp hother)
      · obtain rfl : "me" = text := Option.some.inj hget
        have hrefs : Template.references "me" = [] := by cbv
        rw [hrefs] at hother
        exact absurd hother List.not_mem_nil
  have hagree : ∀ other, ReflTransGen p.given.RefersTo "hello" other →
      q.given.get? other = p.given.get? other := by
    intro other hpath
    rcases hreach other hpath with rfl | rfl
    · rfl
    · rfl
  exact ⟨hescapes, hp, hq, hagree, (expand_agree_of_reachable hescapes hp hq "hello").1 hagree,
    (expand_agree_of_reachable hescapes hp hq "home").2 (by decide)⟩

end Plan

end Interpolation
