import Mathlib
import Interpolation.Proofs.Graph.Stalls

/-!
# Where the order of a graph breaks

A graph without an order has a stall, and all that the stall says can be read off the graph. The
names that it calls unresolved are those that are not grounded, from which a path leads to a node
with an undefined dependency or to a cycle. If some node has an undefined dependency, the stall
says so, and otherwise all dependencies of unresolved names are names of nodes, so that the
unresolved names lead to a cycle among themselves.

## Main results

* `Graph.exists_cycle_of_not_grounded` — in a closed graph, names that are not grounded lead to a
  cycle of their own kind.
* `Graph.exists_unknownDependency_iff`, `Graph.exists_cycle_iff` — the two kinds of stall.
* `Graph.resolve_stalls_at_faults` — when there is no order, and all that the stall says.
-/

namespace Interpolation.Graph

open Relation

variable {g : Graph} {stall : Stall} {name : String}

/-! ### Cycles of names that are not grounded -/

/-- In a closed graph, a name that is not grounded leads to a cycle of names that are not
grounded. -/
theorem exists_cycle_of_not_grounded (hclosed : g.Closed) {members : List String}
    (hmembers : ∀ other, other ∈ members ↔ other ∈ g.names ∧ ¬ g.Grounded other)
    (hmem : name ∈ members) :
    ∃ start ∈ members, ReflTransGen g.DependsOn name start ∧
      TransGen (fun a b => g.DependsOn a b ∧ b ∈ members) start start := by
  have hsucc : ∀ other ∈ members, ∃ next ∈ members, g.DependsOn other next ∧ next ∈ members := by
    intro other hother
    obtain ⟨hdefined, hnot⟩ := (hmembers other).mp hother
    obtain ⟨next, hdep, hnext⟩ := exists_dependsOn_not_grounded hdefined hnot
    have hnextmem := (hmembers next).mpr ⟨hclosed _ _ hdep, hnext⟩
    exact ⟨next, hnextmem, hdep, hnextmem⟩
  obtain ⟨start, hstart, hpath, hcycle⟩ := exists_cycle hsucc hmem
  exact ⟨start, hstart, ReflTransGen.mono (fun _ _ hstep => hstep.1) _ _ hpath, hcycle⟩

/-! ### The two kinds of stall -/

theorem exists_mem_missing_iff (h : g.resolve = .error stall) :
    (∃ name, name ∈ stall.missing) ↔ ∃ name, g.ListsUndefined name := by
  constructor
  · rintro ⟨other, hmem⟩
    obtain ⟨hundefined, user, hdep⟩ := (mem_missing_iff h).mp hmem
    exact ⟨user, other, hdep, hundefined⟩
  · rintro ⟨user, other, hdep, hundefined⟩
    exact ⟨other, (mem_missing_iff h).mpr ⟨hundefined, user, hdep⟩⟩

/-- A stall names missing dependencies exactly when some node lists an undefined name. -/
theorem exists_unknownDependency_iff (h : g.resolve = .error stall) :
    (∃ missing unresolved, stall = .unknownDependency missing unresolved) ↔
      ∃ name, g.ListsUndefined name := by
  rw [← exists_mem_missing_iff h]
  constructor
  · rintro ⟨missing, unresolved, rfl⟩
    by_contra hno
    push Not at hno
    cases eq_cycle_of_resolve h hno
  · rintro ⟨name, hmem⟩
    exact ⟨_, _, Stall.eq_unknownDependency_of_mem_missing hmem⟩

theorem exists_cycle_iff (h : g.resolve = .error stall) :
    (∃ unresolved, stall = .cycle unresolved) ↔ ∀ name, ¬ g.ListsUndefined name := by
  rw [← not_exists, ← exists_unknownDependency_iff h]
  cases stall <;> simp

/-- **The stall of a graph.** A graph has no order exactly when some node lists an undefined name
or some path of dependencies comes back to its start. The unresolved names are those of the nodes
from which a path, perhaps an empty one, leads to such a place. If a node of the graph lists an
undefined name, the stall is of unknown dependencies, and it reports all names that nodes list and
no node has. Otherwise it is of a cycle, and a path leads from every unresolved name to a cycle
all of whose names are unresolved. -/
theorem resolve_stalls_at_faults (g : Graph) :
    ((∃ stall, g.resolve = .error stall) ↔
      (∃ name, g.ListsUndefined name) ∨ ∃ name, TransGen g.DependsOn name name) ∧
    ∀ stall, g.resolve = .error stall →
      (∀ name, name ∈ stall.unresolved ↔ name ∈ g.names ∧
        ∃ fault, ReflTransGen g.DependsOn name fault ∧
          (g.ListsUndefined fault ∨ TransGen g.DependsOn fault fault)) ∧
      ((∃ missing unresolved, stall = .unknownDependency missing unresolved) ↔
        ∃ name, g.ListsUndefined name) ∧
      (∀ missing unresolved, stall = .unknownDependency missing unresolved →
        ∀ name, name ∈ missing ↔ name ∉ g.names ∧ ∃ user, g.DependsOn user name) ∧
      ((∃ unresolved, stall = .cycle unresolved) ↔ ∀ name, ¬ g.ListsUndefined name) ∧
      ∀ unresolved, stall = .cycle unresolved → ∀ name ∈ unresolved,
        ∃ start ∈ unresolved, ReflTransGen g.DependsOn name start ∧
          TransGen (fun a b => g.DependsOn a b ∧ b ∈ unresolved) start start := by
  constructor
  · have hfails : (∃ stall, g.resolve = .error stall) ↔ ¬ ∃ ordered, g.resolve = .ok ordered := by
      cases g.resolve <;> simp
    rw [hfails, exists_resolve_iff, closed_iff_forall_not_listsUndefined, Acyclic, not_and_or,
      not_forall_not, not_forall_not]
  · intro stall h
    refine ⟨fun name => ?_, exists_unknownDependency_iff h, ?_, exists_cycle_iff h, ?_⟩
    · rw [mem_unresolved_iff h]
      exact and_congr_right not_grounded_iff
    · rintro missing unresolved rfl name
      exact mem_missing_iff h
    · rintro unresolved rfl name hmem
      have hclosed := closed_iff_forall_not_listsUndefined.mpr
        ((exists_cycle_iff h).mp ⟨unresolved, rfl⟩)
      exact exists_cycle_of_not_grounded hclosed (fun other => mem_unresolved_iff h) hmem

/-- A cycle of two names, a third that leads to it, and a fourth that does not. -/
theorem resolve_stalls_at_faults_downstream :
    let g : Graph := .ofNodes [⟨"a", ["b"]⟩, ⟨"b", ["d", "a"]⟩, ⟨"c", ["a"]⟩, ⟨"d", []⟩]
    let unresolved : NameSet := .ofList ["a", "b", "c"]
    g.resolve = .error (.cycle unresolved) ∧ (∀ name, ¬ g.ListsUndefined name) ∧
      "c" ∈ unresolved ∧
      ∃ start ∈ unresolved, ReflTransGen g.DependsOn "c" start ∧
        TransGen (fun a b => g.DependsOn a b ∧ b ∈ unresolved) start start := by
  intro g unresolved
  have h : g.resolve = .error (.cycle unresolved) := by cbv
  have hmem : "c" ∈ unresolved := by decide
  obtain ⟨-, -, -, hcycle, hreach⟩ := (resolve_stalls_at_faults g).2 _ h
  exact ⟨h, hcycle.mp ⟨unresolved, rfl⟩, hmem, hreach unresolved rfl "c" hmem⟩

end Interpolation.Graph
