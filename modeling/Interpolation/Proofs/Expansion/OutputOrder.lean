import Mathlib
import Interpolation.Proofs.Expansion.Walk

/-!
# The order of the output

The keys of an expansion come from two lists. The seeded names stand in the order of the variables,
since their values were there before the walk; the others stand in the order of the walk, which
passes over the seeded names because they are keys already. Every variable is a node of the graph
from which the order of the walk is made. Building the graph could turn a node away only for a name
that is taken, and no two variables share a name. So the walk meets every variable once, after all
variables that its text refers to, and it does so in either escape mode, for the graph looks at
names only.

## Main definitions

* `Variables.IsOrder` — every name once, each after the names that its text refers to.

## Main results

* `Plan.isOrder_of_order` — the order of a plan is one.
* `Plan.keys_of_expand` — the two parts of the output.
* `Plan.keys_follow_order` — what the output and the graph have of the variables.
-/

namespace Interpolation

/-- Every given name stands in the list once, and after all names that its text refers to. -/
structure Variables.IsOrder (given : Variables) (names : List String) : Prop where
  /-- No name is repeated. -/
  nodup : names.Nodup
  /-- The names are the given ones. -/
  mem_iff (name : String) : name ∈ names ↔ name ∈ given.keys
  /-- What a text refers to stands before the name of the text. -/
  references_before {before after : List String} {name text other : String} :
    names = before ++ name :: after → given.get? name = some text →
      other ∈ Template.references text → other ∈ before

namespace Plan

variable {p : Plan} {names : List String} {values : Variables}

theorem isOrder_of_order (h : p.order = .ok names) : p.given.IsOrder names where
  nodup := nodup_of_order h
  mem_iff _ := (perm_of_order h).mem_iff
  references_before hsplit hget hother := references_before (hsplit ▸ h) hget hother

/-- The keys of an expansion: the names without references as they were given, then the others in
the order of the walk. -/
theorem keys_of_expand (horder : p.order = .ok names) (h : p.expand = .ok values) :
    values.keys =
      p.given.plainKeys ++ names.filter fun name => decide (name ∉ p.given.plainKeys) := by
  obtain ⟨found, hfound, hwalk⟩ := expand_eq_ok_iff.mp h
  obtain rfl := Except.ok.inj (horder.symm.trans hfound)
  rw [keys_walk (nodup_of_order horder) hwalk, keys_seeded_eq_plainKeys]

/-- **The order of the output.** The graph of a plan has one node for each variable, in order, with
the dependencies of its text; neither the graph nor the order depends on the escape mode. If an
expansion succeeds, there is an order that lists every variable once, each after all variables that
its text refers to, and the keys of the result are the names without references in the order of the
variables, followed by the rest of that order. -/
theorem keys_follow_order (p : Plan) :
    p.graph.nodes = p.given.entries.map (fun entry => ⟨entry.1, Template.dependencies entry.2⟩) ∧
    (∀ mode, graph ⟨p.given, mode⟩ = p.graph ∧ order ⟨p.given, mode⟩ = p.order) ∧
    ∀ values, p.expand = .ok values →
      ∃ names, p.order = .ok names ∧ p.given.IsOrder names ∧
        values.keys =
          p.given.plainKeys ++ names.filter fun name => decide (name ∉ p.given.plainKeys) := by
  refine ⟨nodes_graph p, fun mode => ⟨graph_congr rfl, order_congr rfl⟩, fun values h => ?_⟩
  obtain ⟨names, horder, -⟩ := expand_eq_ok_iff.mp h
  exact ⟨names, horder, isOrder_of_order horder, keys_of_expand horder h⟩

/-- Seeded names that the order lists the other way round, between variables that refer to them. -/
theorem keys_follow_order_sum :
    let p : Plan :=
      ⟨.ofList [("total", "$sum$y"), ("y", "$$"), ("sum", "$x$y$x"), ("x", "1")], .collapse⟩
    let values : Variables := .ofList [("y", "$"), ("x", "1"), ("sum", "1$1"), ("total", "1$1$")]
    let names := ["x", "y", "sum", "total"]
    p.expand = .ok values ∧ p.order = .ok names ∧ p.given.IsOrder names ∧
      p.graph.nodes = [⟨"total", ["sum", "y"]⟩, ⟨"y", []⟩, ⟨"sum", ["x", "y"]⟩, ⟨"x", []⟩] ∧
      values.keys = ["y", "x"] ++ ["sum", "total"] := by
  intro p values names
  have h : p.expand = .ok values := by cbv
  have horder : p.order = .ok names := by cbv
  have hplain : p.given.plainKeys = ["y", "x"] := by cbv
  obtain ⟨hnodes, -, hkeys⟩ := keys_follow_order p
  obtain ⟨found, hfound, hisOrder, hfollow⟩ := hkeys values h
  obtain rfl := Except.ok.inj (hfound.symm.trans horder)
  rw [hplain] at hfollow
  exact ⟨h, horder, hisOrder, hnodes.trans (by cbv), hfollow⟩

end Plan

end Interpolation
