import Interpolation.Proofs.Graph.Rounds
import Mathlib.Data.Fintype.Card
import Mathlib.Data.Set.Finite.List

/-!
# Cycles and grounded names

A name is grounded when all paths of dependencies from it end at nodes without dependencies. Two
things keep a name from being grounded: a path leads from it to a node that lists an undefined
name, or to a cycle. For one direction, what is not grounded has a dependency that is not grounded
either, and a finite set in which every member has a successor contains a cycle. For the other, all
names on a path from a grounded name are grounded, and grounded names neither list undefined names
nor lie on a cycle. So all names are grounded exactly when every dependency is the name of a node
and no path of dependencies comes back to its start, and an order grounds all names.

## Main definitions

* `Graph.DependsOn` — one name lists another as a dependency.
* `Graph.Closed` — every dependency is the name of a node.
* `Graph.Acyclic` — no path of dependencies comes back to its start.
* `Graph.ListsUndefined` — the node of a name lists a dependency that no node has.
* `Graph.Grounded` — names whose dependencies lead to nodes without dependencies only.

## Main results

* `Graph.exists_cycle` — where every member of a finite set has a successor there is a cycle.
* `Graph.not_grounded_iff` — names that are not grounded reach an undefined name or a cycle.
* `Graph.forall_grounded_iff` — all names are grounded in closed and acyclic graphs.
* `Graph.resolve_cases` — everything that an ordering can come to.
-/

namespace Interpolation.Graph

open Relation

/-! ### Dependencies between names -/

/-- The node of one name lists the other name as a dependency. -/
def DependsOn (g : Graph) (name other : String) : Prop :=
  ∃ node ∈ g.nodes, node.name = name ∧ other ∈ node.dependencies

/-- Every dependency is the name of a node. -/
def Closed (g : Graph) : Prop := ∀ name other, g.DependsOn name other → other ∈ g.names

/-- No path of dependencies comes back to the name at which it starts. -/
def Acyclic (g : Graph) : Prop := ∀ name, ¬ TransGen g.DependsOn name name

/-- The node of a name lists a dependency that no node has. -/
def ListsUndefined (g : Graph) (name : String) : Prop :=
  ∃ other, g.DependsOn name other ∧ other ∉ g.names

theorem closed_iff_forall_not_listsUndefined {g : Graph} :
    g.Closed ↔ ∀ name, ¬ g.ListsUndefined name := by
  refine forall_congr' fun name => ?_
  rw [ListsUndefined]
  push Not
  rfl

theorem DependsOn.mem_names {g : Graph} {name other : String} (h : g.DependsOn name other) :
    name ∈ g.names := by
  obtain ⟨node, hmem, rfl, -⟩ := h
  exact List.mem_map.mpr ⟨node, hmem, rfl⟩

/-- Two nodes of one name are the same node. -/
theorem eq_of_name_eq {g : Graph} {node other : Node} (hnode : node ∈ g.nodes)
    (hother : other ∈ g.nodes) (h : node.name = other.name) : node = other := by
  have hget : g.get? node.name = some node := get?_eq_some_iff.mpr ⟨hnode, rfl⟩
  have hget' : g.get? node.name = some other := get?_eq_some_iff.mpr ⟨hother, h.symm⟩
  exact Option.some.inj (hget.symm.trans hget')

theorem dependsOn_name_iff {g : Graph} {node : Node} (hnode : node ∈ g.nodes) {other : String} :
    g.DependsOn node.name other ↔ other ∈ node.dependencies := by
  constructor
  · rintro ⟨found, hfound, hname, hdep⟩
    rwa [eq_of_name_eq hfound hnode hname] at hdep
  · intro hdep
    exact ⟨node, hnode, rfl, hdep⟩

/-! ### Grounded names -/

/-- A name is grounded when it is the name of a node and all its dependencies are grounded. -/
inductive Grounded (g : Graph) : String → Prop
  | intro {name : String} (hname : name ∈ g.names)
      (h : ∀ other, g.DependsOn name other → g.Grounded other) : g.Grounded name

theorem Grounded.mem_names {g : Graph} {name : String} (h : g.Grounded name) : name ∈ g.names := by
  cases h with
  | intro hname _ => exact hname

theorem Grounded.of_dependsOn {g : Graph} {name other : String} (h : g.Grounded name)
    (hdep : g.DependsOn name other) : g.Grounded other := by
  cases h with
  | intro _ hdeps => exact hdeps other hdep

/-- No path of dependencies leads from a grounded name back to it. -/
theorem Grounded.not_transGen {g : Graph} {name : String} (h : g.Grounded name) :
    ¬ TransGen g.DependsOn name name := by
  induction h with
  | intro _ _ ih =>
    intro hcycle
    -- The first dependency on the path leads back to itself just as well.
    obtain ⟨other, hdep, hback⟩ := TransGen.head'_iff.mp hcycle
    exact ih other hdep (.tail' hback hdep)

/-- The nodes of a list in order are grounded. -/
theorem InOrder.grounded {g : Graph} {ordered : List Node} (horder : InOrder [] ordered)
    (hsub : ∀ node ∈ ordered, node ∈ g.nodes) : ∀ node ∈ ordered, g.Grounded node.name := by
  refine horder.induction (fun _ hmem => absurd hmem List.not_mem_nil) fun node hmem hdeps => ?_
  have hname : node.name ∈ g.names := List.mem_map.mpr ⟨node, hsub node hmem, rfl⟩
  refine .intro hname fun other hother => hdeps other ?_
  exact (dependsOn_name_iff (hsub node hmem)).mp hother

/-! ### Finite sets with successors -/

/-- In a finite set in which every member has a successor, every member leads to a cycle. -/
theorem exists_cycle {α : Type} {r : α → α → Prop} {members : List α}
    (hsucc : ∀ a ∈ members, ∃ b ∈ members, r a b) {start : α} (hstart : start ∈ members) :
    ∃ c ∈ members, ReflTransGen r start c ∧ TransGen r c c := by
  by_contra hno
  push Not at hno
  -- Without a cycle, the members that are reached have a last one, which has no successor.
  let reached : Set α := {a | a ∈ members ∧ ReflTransGen r start a}
  have hfinite : Finite reached := (members.finite_toSet.subset fun _ ha => ha.1).to_subtype
  let beyond : reached → reached → Prop := fun a b => TransGen r b.1 a.1
  have htrans : IsTrans reached beyond := ⟨fun _ _ _ hab hbc => hbc.trans hab⟩
  have hirrefl : Std.Irrefl beyond := ⟨fun a ha => hno a.1 a.2.1 a.2.2 ha⟩
  have hwf : WellFounded beyond := Finite.wellFounded_of_trans_of_irrefl beyond
  obtain ⟨last, -, hlast⟩ := hwf.has_min Set.univ ⟨⟨start, hstart, .refl⟩, trivial⟩
  obtain ⟨next, hnext, hr⟩ := hsucc last.1 last.2.1
  exact hlast ⟨next, hnext, last.2.2.tail hr⟩ trivial (.single hr)

/-! ### What a name that is not grounded reaches -/

/-- All names on a path from a grounded name are grounded. -/
theorem Grounded.of_reflTransGen {g : Graph} {name other : String} (h : g.Grounded name)
    (hpath : ReflTransGen g.DependsOn name other) : g.Grounded other := by
  induction hpath with
  | refl => exact h
  | tail _ hdep ih => exact ih.of_dependsOn hdep

theorem Grounded.not_listsUndefined {g : Graph} {name : String} (h : g.Grounded name) :
    ¬ g.ListsUndefined name := by
  rintro ⟨other, hdep, hundefined⟩
  exact hundefined (h.of_dependsOn hdep).mem_names

/-- A name that is not grounded depends on such a name. -/
theorem exists_dependsOn_not_grounded {g : Graph} {name : String} (hname : name ∈ g.names)
    (h : ¬ g.Grounded name) :
    ∃ other, g.DependsOn name other ∧ ¬ g.Grounded other := by
  by_contra hno
  push Not at hno
  exact h (.intro hname hno)

/-- From a name that is not grounded, a path leads to a node with an undefined dependency or to a
cycle. -/
theorem exists_fault_of_not_grounded {g : Graph} {name : String} (hname : name ∈ g.names)
    (hnot : ¬ g.Grounded name) :
    ∃ fault, ReflTransGen g.DependsOn name fault ∧
      (g.ListsUndefined fault ∨ TransGen g.DependsOn fault fault) := by
  classical
  by_contra hno
  push Not at hno
  -- Without an undefined name on the way, the names that are reached and not grounded all have a
  -- successor among them.
  let members := g.names.filter fun other =>
    decide (ReflTransGen g.DependsOn name other ∧ ¬ g.Grounded other)
  have hmembers : ∀ other, other ∈ members ↔
      other ∈ g.names ∧ ReflTransGen g.DependsOn name other ∧ ¬ g.Grounded other := fun other => by
    rw [List.mem_filter, decide_eq_true_eq]
  have hsucc : ∀ other ∈ members, ∃ next ∈ members, g.DependsOn other next := by
    intro other hother
    obtain ⟨hdefined, hpath, hother⟩ := (hmembers other).mp hother
    obtain ⟨next, hdep, hnext⟩ := exists_dependsOn_not_grounded hdefined hother
    have hnextname : next ∈ g.names := by
      by_contra hundefined
      exact (hno other hpath).1 ⟨next, hdep, hundefined⟩
    exact ⟨next, (hmembers next).mpr ⟨hnextname, hpath.tail hdep, hnext⟩, hdep⟩
  obtain ⟨fault, -, hpath, hcycle⟩ := exists_cycle hsucc ((hmembers name).mpr ⟨hname, .refl, hnot⟩)
  exact (hno fault hpath).2 hcycle

/-- The names that are not grounded are those from which a path of dependencies, perhaps an empty
one, leads to a node with an undefined dependency or to a cycle. -/
theorem not_grounded_iff {g : Graph} {name : String} (hname : name ∈ g.names) :
    ¬ g.Grounded name ↔ ∃ fault, ReflTransGen g.DependsOn name fault ∧
      (g.ListsUndefined fault ∨ TransGen g.DependsOn fault fault) := by
  refine ⟨exists_fault_of_not_grounded hname, ?_⟩
  rintro ⟨fault, hpath, hfault⟩ hgrounded
  have hgrounded' := hgrounded.of_reflTransGen hpath
  rcases hfault with hundefined | hcycle
  · exact hgrounded'.not_listsUndefined hundefined
  · exact hgrounded'.not_transGen hcycle

/-- All names are grounded exactly when the graph is closed and acyclic. -/
theorem forall_grounded_iff {g : Graph} :
    (∀ name ∈ g.names, g.Grounded name) ↔ g.Closed ∧ g.Acyclic := by
  constructor
  · intro hall
    refine ⟨fun name other hdep => ?_, fun name hcycle => ?_⟩
    · exact ((hall name hdep.mem_names).of_dependsOn hdep).mem_names
    · obtain ⟨other, hdep, -⟩ := TransGen.head'_iff.mp hcycle
      exact (hall name hdep.mem_names).not_transGen hcycle
  · rintro ⟨hclosed, hacyclic⟩ name hname
    by_contra hnot
    obtain ⟨fault, -, hundefined | hcycle⟩ := (not_grounded_iff hname).mp hnot
    · exact closed_iff_forall_not_listsUndefined.mp hclosed fault hundefined
    · exact hacyclic fault hcycle

/-! ### What an ordering comes to -/

/-- In the order of their names no node is lost, since no two have the same name. -/
theorem perm_byName (g : Graph) : g.byName.Perm g.nodes := perm_orderedBy g.nodup_names

/-- Sorted by name, each node has a greater name than those before it. -/
theorem pairwise_byName (g : Graph) : g.byName.Pairwise fun a b => a.name < b.name :=
  pairwise_orderedBy Node.name g.nodes

/-- An ordering ends with all nodes in order, or with a stall on the nodes left over, each of
which has a dependency that is not in order. -/
theorem resolve_cases (g : Graph) :
    (∃ ordered, g.resolve = .ok ordered ∧ ordered.Perm g.nodes ∧ InOrder [] ordered) ∨
    ∃ ordered stuck, g.resolve = .error (g.stall stuck) ∧ stuck ≠ [] ∧
      (ordered ++ stuck).Perm g.nodes ∧ InOrder [] ordered ∧
      ∀ node ∈ stuck, ∃ dependency ∈ node.dependencies, dependency ∉ ordered.map Node.name := by
  have hperm := (perm_rounds [] g.byName).trans g.perm_byName
  have horder := inOrder_rounds [] g.byName
  have hstuck : ∀ node ∈ (rounds [] g.byName).2, ∃ dependency ∈ node.dependencies,
      dependency ∉ [] ++ (rounds [] g.byName).1.map Node.name :=
    fun _ => exists_dependency_of_mem_stuck
  rw [resolve]
  generalize rounds [] g.byName = split at hperm horder hstuck ⊢
  obtain ⟨ordered, stuck⟩ := split
  cases stuck with
  | nil =>
    rw [List.append_nil] at hperm
    exact Or.inl ⟨ordered, rfl, hperm, horder⟩
  | cons first rest =>
    refine Or.inr ⟨ordered, first :: rest, rfl, List.cons_ne_nil _ _, hperm, horder, ?_⟩
    intro node hmem
    simpa only [List.nil_append] using hstuck node hmem

theorem rounds_of_resolve {g : Graph} {ordered : List Node} (h : g.resolve = .ok ordered) :
    rounds [] g.byName = (ordered, []) := by
  rw [resolve] at h
  split at h
  · next heq => rw [heq, Except.ok.inj h]
  · cases h

/-- The nodes of an order are those of the graph, each once. -/
theorem perm_of_resolve {g : Graph} {ordered : List Node} (h : g.resolve = .ok ordered) :
    ordered.Perm g.nodes := by
  have hperm := perm_rounds [] g.byName
  rw [rounds_of_resolve h, List.append_nil] at hperm
  exact hperm.trans g.perm_byName

/-- In an order, every node comes after its dependencies. -/
theorem inOrder_of_resolve {g : Graph} {ordered : List Node} (h : g.resolve = .ok ordered) :
    InOrder [] ordered := by
  have horder := inOrder_rounds [] g.byName
  rwa [rounds_of_resolve h] at horder

/-! ### What an order says of the graph -/

theorem grounded_of_resolve {g : Graph} {ordered : List Node} (h : g.resolve = .ok ordered)
    {name : String} (hname : name ∈ g.names) : g.Grounded name := by
  have hperm := perm_of_resolve h
  obtain ⟨node, hmem, rfl⟩ := List.mem_map.mp hname
  exact (inOrder_of_resolve h).grounded (fun _ => hperm.mem_iff.mp) node (hperm.mem_iff.mpr hmem)

theorem closed_of_resolve {g : Graph} {ordered : List Node} (h : g.resolve = .ok ordered) :
    g.Closed :=
  (forall_grounded_iff.mp fun _ => grounded_of_resolve h).1

theorem acyclic_of_resolve {g : Graph} {ordered : List Node} (h : g.resolve = .ok ordered) :
    g.Acyclic :=
  (forall_grounded_iff.mp fun _ => grounded_of_resolve h).2

end Interpolation.Graph
