import Interpolation.Graph.Basic
import Interpolation.NameSet

/-!
# The order of a graph

The nodes of a graph are put into an order in which each comes after all its dependencies. The
order is found in rounds: a round takes every waiting node whose dependencies are all done, in the
order of their names, and only after the round do these nodes count as done. The result depends
neither on the order in which nodes were inserted nor on the order or repetition of dependencies.

When a round finds nothing to take, the nodes that still wait are *unresolved*. If they depend on
names that no node has, these names are *missing*; otherwise the nodes wait for each other.

## Main definitions

* `Graph.Node.isReady` — every dependency is done.
* `Graph.ready`, `Graph.blocked` — the nodes that a round takes, and those it leaves.
* `Graph.rounds` — the nodes in order, and the nodes that never become ready.
* `Graph.Stall` — why there is no order; `Graph.Stall.message` says so in words.
* `Graph.resolve` — the order, or the stall.

## Main results

* `Graph.rounds_of_stuck`, `Graph.rounds_of_ready` — one equation for each outcome of a round.
-/

namespace Interpolation.Graph

/-! ### Rounds -/

/-- A node is ready when all its dependencies are done. -/
def Node.isReady (done : List String) (node : Node) : Bool :=
  node.dependencies.all fun dependency => decide (dependency ∈ done)

/-- The nodes that a round takes. -/
def ready (done : List String) (waiting : List Node) : List Node :=
  waiting.filter (Node.isReady done)

/-- The nodes that a round leaves waiting. -/
def blocked (done : List String) (waiting : List Node) : List Node :=
  waiting.filter fun node => !node.isReady done

theorem length_blocked_lt {done : List String} {waiting : List Node}
    (h : ready done waiting ≠ []) : (blocked done waiting).length < waiting.length := by
  obtain ⟨node, hmem⟩ := List.exists_mem_of_ne_nil _ h
  obtain ⟨hmem, hready⟩ := List.mem_filter.1 hmem
  exact List.length_filter_lt_length_iff_exists.2 ⟨node, hmem, by simp [hready]⟩

/-- The waiting nodes in the order in which rounds take them, and those that no round takes. -/
def rounds (done : List String) (waiting : List Node) : List Node × List Node :=
  if _ : ready done waiting = [] then ([], waiting)
  else
    let later := rounds (done ++ (ready done waiting).map Node.name) (blocked done waiting)
    (ready done waiting ++ later.1, later.2)
termination_by waiting.length
decreasing_by exact length_blocked_lt ‹_›

/-- Without a ready node the rounds end, and all waiting nodes are left over. -/
theorem rounds_of_stuck {done : List String} {waiting : List Node}
    (h : ready done waiting = []) : rounds done waiting = ([], waiting) := by
  rw [rounds]
  simp [h]

/-- A round takes the ready nodes, which then count as done for the others. -/
theorem rounds_of_ready {done : List String} {waiting : List Node}
    (h : ready done waiting ≠ []) :
    rounds done waiting =
      (ready done waiting ++
        (rounds (done ++ (ready done waiting).map Node.name) (blocked done waiting)).1,
       (rounds (done ++ (ready done waiting).map Node.name) (blocked done waiting)).2) := by
  rw [rounds]
  simp [h]

/-! ### Stalls -/

/-- Why the nodes of a graph have no order: the unresolved ones wait for each other, or depend on
names that no node has. -/
inductive Stall where
  | cycle (unresolved : NameSet)
  | unknownDependency (missing unresolved : NameSet)
  deriving DecidableEq

/-- The nodes that could not be ordered. -/
def Stall.unresolved : Stall → NameSet
  | .cycle unresolved => unresolved
  | .unknownDependency _ unresolved => unresolved

/-- The stall in words. -/
def Stall.message : Stall → String
  | .cycle unresolved => "circular dependency found between " ++ unresolved.quoted
  | .unknownDependency missing unresolved =>
    "unknown dependency " ++ missing.quoted ++ " (unresolved: " ++ unresolved.quoted ++ ")"

/-- The names that some nodes depend on and that no node of the graph has. -/
def unknownNames (g : Graph) (nodes : List Node) : NameSet :=
  .ofList ((nodes.flatMap Node.dependencies).filter fun name => decide (name ∉ g.names))

/-- The stall of a graph whose rounds leave some nodes over. -/
def stall (g : Graph) (stuck : List Node) : Stall :=
  let unresolved := NameSet.ofList (stuck.map Node.name)
  let missing := g.unknownNames stuck
  if missing.isEmpty then .cycle unresolved else .unknownDependency missing unresolved

/-! ### The order -/

/-- The nodes in the order of their names. -/
def byName (g : Graph) : List Node := orderedBy Node.name g.nodes

/-- The nodes in an order in which each comes after its dependencies, or the stall that prevents
it. -/
def resolve (g : Graph) : Except Stall (List Node) :=
  match rounds [] g.byName with
  | (ordered, []) => .ok ordered
  | (_, stuck) => .error (g.stall stuck)

end Interpolation.Graph
