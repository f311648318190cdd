import Interpolation.Expansion.Plan
import Interpolation.Proofs.Graph.Stalls
import Interpolation.Proofs.Template.Written

/-!
# The references of variables and the order of a plan

The texts of variables say which names refer to which. The graph of a plan holds exactly these
references: a variable is seeded if its text refers to no name, so a seeded variable has no
references that its node could leave out. The order of a plan therefore exists exactly when every
reference is the name of a variable and no references go round in a circle, and what passes from
the references of a variable to the variable holds of all variables of a plan with an order.

## Main definitions

* `Variables.RefersTo` — the text of one name refers to another.
* `Variables.Closed`, `Variables.Acyclic` — all references are defined, none go round in a circle.
* `Variables.Grounded` — names whose references lead to texts without references only.
* `Variables.Covers` — values for all names that a text refers to.
* `Variables.plainKeys` — the names whose texts refer to no name.

## Main results

* `Plan.entries_seeded` — the entries whose texts refer to no name.
* `Plan.nodes_graph` — the nodes of a plan are its variables with their dependencies.
* `Plan.exists_order_iff` — when there is an order.
* `Plan.perm_of_order`, `Plan.references_before` — what an order is.
* `Plan.reference_induction` — induction along the references.
-/

namespace Interpolation

open Relation

/-! ### References between names -/

/-- The text of one name refers to the other name. -/
def Variables.RefersTo (given : Variables) (name other : String) : Prop :=
  ∃ text, given.get? name = some text ∧ other ∈ Template.references text

/-- Every name that a text refers to has a text. -/
def Variables.Closed (given : Variables) : Prop :=
  ∀ name other, given.RefersTo name other → other ∈ given.keys

/-- No references lead from a name back to it. -/
def Variables.Acyclic (given : Variables) : Prop := ∀ name, ¬ TransGen given.RefersTo name name

/-- A name is grounded when it has a text and all names that the text refers to are grounded. -/
inductive Variables.Grounded (given : Variables) : String → Prop
  | intro {name text : String} (hget : given.get? name = some text)
      (h : ∀ other ∈ Template.references text, given.Grounded other) : given.Grounded name

/-- The values hold one for every name that the text refers to. -/
def Variables.Covers (values : Variables) (text : String) : Prop :=
  ∀ name ∈ Template.references text, name ∈ values.keys

/-- The names, in order, whose texts refer to no name. -/
def Variables.plainKeys (given : Variables) : List String :=
  (given.entries.filter fun entry => Template.isExpanded entry.2).map Prod.fst

namespace Plan

variable {p : Plan}

/-! ### Seeded values -/

/-- A variable is seeded with the same value, whichever values were seeded before it. -/
theorem seed_eq (p : Plan) (reached : Variables) (name text : String) :
    p.seed reached ⟨name, text⟩ =
      if Template.isExpanded text then reached.insert name (Template.substitute text ∅ p.escapes)
      else reached := by
  rw [seed, RawVariable.isExpanded_eq]
  by_cases hexpanded : Template.isExpanded text = true
  · rw [if_pos hexpanded, if_pos hexpanded, RawVariable.expand,
      Template.substitute_of_isExpanded hexpanded]
  · rw [if_neg hexpanded, if_neg hexpanded]

/-- Seeding some variables inserts those whose texts refer to no name. -/
theorem foldl_seed (p : Plan) (reached : Variables) (entries : List (String × String)) :
    (entries.map fun entry => RawVariable.mk entry.1 entry.2).foldl p.seed reached =
      reached.insertAll
        ((entries.filter fun entry => Template.isExpanded entry.2).map fun entry =>
          (entry.1, Template.substitute entry.2 ∅ p.escapes)) := by
  induction entries generalizing reached with
  | nil => rfl
  | cons entry rest ih =>
    rw [List.map_cons, List.foldl_cons, seed_eq, List.filter_cons]
    by_cases hexpanded : Template.isExpanded entry.2 = true
    · rw [if_pos hexpanded, if_pos hexpanded, List.map_cons, OrderedMap.insertAll_cons, ih]
    · rw [if_neg hexpanded, if_neg hexpanded, ih]

/-- The seeded entries are those whose texts refer to no name, in order. -/
theorem entries_seeded (p : Plan) :
    p.seeded.entries =
      (p.given.entries.filter fun entry => Template.isExpanded entry.2).map fun entry =>
        (entry.1, Template.substitute entry.2 ∅ p.escapes) := by
  rw [seeded, raw, foldl_seed, OrderedMap.entries_insertAll_of_nodup]
  · rfl
  · rw [OrderedMap.keys_empty, List.nil_append, List.map_map]
    exact ((List.filter_sublist).map Prod.fst).nodup p.given.nodup_keys

theorem get?_seeded_eq_some_iff {name value : String} :
    p.seeded.get? name = some value ↔
      ∃ text, p.given.get? name = some text ∧ Template.isExpanded text = true ∧
        Template.substitute text ∅ p.escapes = value := by
  rw [OrderedMap.get?_eq_some_iff, entries_seeded, List.mem_map]
  constructor
  · rintro ⟨entry, hmem, heq⟩
    obtain ⟨hentry, hexpanded⟩ := List.mem_filter.mp hmem
    obtain ⟨rfl, rfl⟩ := Prod.mk.inj heq
    exact ⟨entry.2, OrderedMap.get?_eq_some_iff.mpr hentry, hexpanded, rfl⟩
  · rintro ⟨text, hget, hexpanded, rfl⟩
    exact ⟨(name, text), List.mem_filter.mpr ⟨OrderedMap.get?_eq_some_iff.mp hget, hexpanded⟩, rfl⟩

theorem mem_keys_seeded_iff {name : String} :
    name ∈ p.seeded.keys ↔
      ∃ text, p.given.get? name = some text ∧ Template.isExpanded text = true := by
  rw [← OrderedMap.exists_get?_iff]
  constructor
  · rintro ⟨value, hvalue⟩
    obtain ⟨text, hget, hexpanded, -⟩ := get?_seeded_eq_some_iff.mp hvalue
    exact ⟨text, hget, hexpanded⟩
  · rintro ⟨text, hget, hexpanded⟩
    exact ⟨_, get?_seeded_eq_some_iff.mpr ⟨text, hget, hexpanded, rfl⟩⟩

theorem keys_seeded_eq_plainKeys (p : Plan) : p.seeded.keys = p.given.plainKeys := by
  rw [OrderedMap.keys, entries_seeded, List.map_map]
  rfl

/-! ### The graph of a plan -/

/-- The node of a variable lists all its dependencies, seeded or not. -/
theorem node_eq {name text : String} (hget : p.given.get? name = some text) :
    p.node ⟨name, text⟩ = ⟨name, Template.dependencies text⟩ := by
  rw [node]
  split
  · next hseeded =>
    -- The node is a leaf, and so it would be anyway: what is seeded refers to no name.
    obtain ⟨text', hget', hexpanded⟩ := mem_keys_seeded_iff.mp (OrderedMap.contains_iff.mp hseeded)
    obtain rfl := Option.some.inj (hget.symm.trans hget')
    rw [Template.dependencies_eq_nil_iff.mpr hexpanded]
    rfl
  · rfl

/-- The nodes of a plan are its variables in order, each with its dependencies. -/
theorem nodes_graph (p : Plan) :
    p.graph.nodes = p.given.entries.map fun entry => ⟨entry.1, Template.dependencies entry.2⟩ := by
  have hnodes : p.raw.map p.node =
      p.given.entries.map fun entry => ⟨entry.1, Template.dependencies entry.2⟩ := by
    rw [raw, List.map_map]
    refine List.map_congr_left fun entry hmem => ?_
    exact node_eq (OrderedMap.get?_eq_some_iff.mpr hmem)
  have hnames : ((p.raw.map p.node).map Graph.Node.name).Nodup := by
    rw [hnodes, List.map_map]
    exact p.given.nodup_keys
  rw [graph, Graph.nodes_ofNodes hnames, hnodes]

theorem names_graph (p : Plan) : p.graph.names = p.given.keys := by
  rw [Graph.names, nodes_graph, List.map_map]
  rfl

theorem mem_nodes_graph_iff {node : Graph.Node} :
    node ∈ p.graph.nodes ↔
      ∃ text, p.given.get? node.name = some text ∧
        node.dependencies = Template.dependencies text := by
  rw [nodes_graph, List.mem_map]
  constructor
  · rintro ⟨entry, hmem, rfl⟩
    exact ⟨entry.2, OrderedMap.get?_eq_some_iff.mpr hmem, rfl⟩
  · rintro ⟨text, hget, hdeps⟩
    refine ⟨(node.name, text), OrderedMap.get?_eq_some_iff.mp hget, ?_⟩
    rw [← hdeps]

/-- The graph of a plan holds the references of its variables. -/
theorem dependsOn_graph (p : Plan) : p.graph.DependsOn = p.given.RefersTo := by
  funext name other
  refine propext ⟨?_, ?_⟩
  · rintro ⟨node, hmem, rfl, hdep⟩
    obtain ⟨text, hget, hdeps⟩ := mem_nodes_graph_iff.mp hmem
    rw [hdeps] at hdep
    exact ⟨text, hget, Template.mem_dependencies.mp hdep⟩
  · rintro ⟨text, hget, hother⟩
    refine ⟨⟨name, Template.dependencies text⟩, mem_nodes_graph_iff.mpr ⟨text, hget, rfl⟩, rfl, ?_⟩
    exact Template.mem_dependencies.mpr hother

/-- The names that are grounded in the graph of a plan are those of its variables that are. -/
theorem grounded_graph_iff {name : String} :
    p.graph.Grounded name ↔ p.given.Grounded name := by
  constructor
  · intro h
    induction h with
    | intro hname _ ih =>
      rw [names_graph] at hname
      obtain ⟨text, hget⟩ := OrderedMap.exists_get?_iff.mpr hname
      refine .intro hget fun other hother => ih other ?_
      rw [dependsOn_graph]
      exact ⟨text, hget, hother⟩
  · intro h
    induction h with
    | intro hget _ ih =>
      refine .intro ?_ fun other hother => ?_
      · rw [names_graph]
        exact OrderedMap.exists_get?_iff.mp ⟨_, hget⟩
      · rw [dependsOn_graph] at hother
        obtain ⟨text, hget', href⟩ := hother
        obtain rfl := Option.some.inj (hget.symm.trans hget')
        exact ih other href

theorem graph_congr {q : Plan} (h : p.given = q.given) : p.graph = q.graph := by
  refine Graph.ext ?_
  rw [nodes_graph, nodes_graph, h]

/-! ### The order of a plan -/

theorem order_eq_ok_iff {names : List String} :
    p.order = .ok names ↔
      ∃ ordered, p.graph.resolve = .ok ordered ∧ ordered.map Graph.Node.name = names := by
  rw [order]
  cases p.graph.resolve with
  | error stall => simp [Except.map]
  | ok ordered => simp [Except.map]

theorem order_eq_error_iff {stall : Graph.Stall} :
    p.order = .error stall ↔ p.graph.resolve = .error stall := by
  rw [order]
  cases p.graph.resolve with
  | error other => simp [Except.map]
  | ok ordered => simp [Except.map]

/-- Plans for the same variables have the same order. -/
theorem order_congr {q : Plan} (h : p.given = q.given) : p.order = q.order := by
  rw [order, order, graph_congr h]

theorem exists_order_iff_exists_resolve :
    (∃ names, p.order = .ok names) ↔ ∃ ordered, p.graph.resolve = .ok ordered := by
  constructor
  · rintro ⟨names, h⟩
    obtain ⟨ordered, hresolve, -⟩ := order_eq_ok_iff.mp h
    exact ⟨ordered, hresolve⟩
  · rintro ⟨ordered, hresolve⟩
    exact ⟨_, order_eq_ok_iff.mpr ⟨ordered, hresolve, rfl⟩⟩

/-- There is an order exactly when all references are defined and none go round in a circle. -/
theorem exists_order_iff :
    (∃ names, p.order = .ok names) ↔ p.given.Closed ∧ p.given.Acyclic := by
  rw [exists_order_iff_exists_resolve, Graph.exists_resolve_iff, Graph.Closed, Graph.Acyclic,
    dependsOn_graph, names_graph]
  rfl

/-- An order lists every variable once. -/
theorem perm_of_order {names : List String} (h : p.order = .ok names) :
    names.Perm p.given.keys := by
  obtain ⟨ordered, hresolve, rfl⟩ := order_eq_ok_iff.mp h
  rw [← names_graph]
  exact (Graph.perm_of_resolve hresolve).map Graph.Node.name

theorem nodup_of_order {names : List String} (h : p.order = .ok names) : names.Nodup :=
  (perm_of_order h).nodup_iff.mpr p.given.nodup_keys

/-- In an order, every name comes after all names that its text refers to. -/
theorem references_before {before after : List String} {name text other : String}
    (h : p.order = .ok (before ++ name :: after)) (hget : p.given.get? name = some text)
    (hother : other ∈ Template.references text) : other ∈ before := by
  obtain ⟨ordered, hresolve, hnames⟩ := order_eq_ok_iff.mp h
  obtain ⟨front, node, back, rfl, rfl, rfl, rfl⟩ :
      ∃ front node back, ordered = front ++ node :: back ∧
        front.map Graph.Node.name = before ∧ node.name = name ∧
        back.map Graph.Node.name = after := by
    obtain ⟨front, tail, rfl, hfront, htail⟩ := List.map_eq_append_iff.mp hnames
    obtain ⟨node, back, rfl, hnode, hback⟩ := List.map_eq_cons_iff.mp htail
    exact ⟨front, node, back, rfl, hfront, hnode, hback⟩
  have hmem : node ∈ p.graph.nodes :=
    (Graph.perm_of_resolve hresolve).mem_iff.mp (List.mem_append_right _ List.mem_cons_self)
  obtain ⟨text', hget', hdeps⟩ := mem_nodes_graph_iff.mp hmem
  obtain rfl := Option.some.inj (hget.symm.trans hget')
  refine (Graph.inOrder_of_resolve hresolve).dependencies_before other ?_
  rw [hdeps]
  exact Template.mem_dependencies.mpr hother

theorem grounded_of_order {names : List String} {name : String} (h : p.order = .ok names)
    (hname : name ∈ p.given.keys) : p.given.Grounded name := by
  obtain ⟨ordered, hresolve, -⟩ := order_eq_ok_iff.mp h
  rw [← names_graph] at hname
  exact grounded_graph_iff.mp (Graph.grounded_of_resolve hresolve hname)

/-- What passes from the names that a text refers to, to the name of the text, holds of every
variable of a plan that has an order. -/
theorem reference_induction {names : List String} (h : p.order = .ok names)
    {motive : String → Prop}
    (step : ∀ name text, p.given.get? name = some text →
      (∀ other ∈ Template.references text, motive other) → motive name) :
    ∀ name ∈ p.given.keys, motive name := by
  intro name hname
  have hgrounded := grounded_of_order h hname
  clear hname
  induction hgrounded with
  | intro hget _ ih => exact step _ _ hget ih

end Plan

end Interpolation
