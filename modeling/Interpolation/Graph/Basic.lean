/-!
# Graphs of named nodes

A graph is a list of nodes, each with the names it depends on. A name belongs to at most one node:
the node that first took it keeps it, and a later node of that name is turned away. A dependency
may be any name, also one that no node has. Dependencies are kept as they were given, with order
and repeats.

## Main definitions

* `Graph.Node` — a name and the names it depends on.
* `Graph` — nodes with pairwise distinct names.
* `Graph.insert` — a new node at the end, or the place of the node that has its name.
* `Graph.ofNodes` — the nodes of a list, the first of each name.
* `Graph.edgeLines` — one line for each dependency of each node.

## Main results

* `Graph.get?_eq_some_iff` — a graph holds a node under its own name.
* `Graph.position?_eq_none_iff` — a name without a place is the name of no node.
* `Graph.nodes_ofNodes` — no node is turned away where names are distinct.
-/

namespace Interpolation

/-- A name and the names that it depends on. -/
structure Graph.Node where
  /-- The name of the node. -/
  name : String
  /-- The names that the node depends on, as they were given. -/
  dependencies : List String
  deriving DecidableEq, Repr

/-- A node without dependencies. -/
def Graph.Node.leaf (name : String) : Graph.Node := ⟨name, []⟩

/-- Nodes in the order of their insertion, with pairwise distinct names. -/
structure Graph where
  /-- The nodes in order. -/
  nodes : List Graph.Node
  /-- No two nodes share a name. -/
  nodup_names : (nodes.map Graph.Node.name).Nodup

/-- What becomes of a node that is inserted: it is added at an index, or its name is taken by the
node at an index. -/
inductive Graph.Placement where
  | added (index : Nat)
  | taken (index : Nat)
  deriving DecidableEq, Repr

namespace Graph

@[ext] theorem ext {g h : Graph} (nodes : g.nodes = h.nodes) : g = h := by
  cases g; cases h; cases nodes; rfl

instance : DecidableEq Graph := fun g h =>
  decidable_of_iff (g.nodes = h.nodes) ⟨ext, congrArg nodes⟩

/-- The graph without nodes. -/
def empty : Graph := ⟨[], List.nodup_nil⟩

instance : EmptyCollection Graph := ⟨empty⟩

instance : Inhabited Graph := ⟨empty⟩

/-- The names of the nodes in order. -/
def names (g : Graph) : List String := g.nodes.map Node.name

/-- The number of nodes. -/
def size (g : Graph) : Nat := g.nodes.length

/-- Whether the graph has no node. -/
def isEmpty (g : Graph) : Bool := g.nodes.isEmpty

/-! ### Looking up a name -/

/-- The index of the node with a name. -/
def position? (g : Graph) (name : String) : Option Nat :=
  g.nodes.findIdx? fun node => decide (node.name = name)

/-- The node with a name. -/
def get? (g : Graph) (name : String) : Option Node :=
  g.nodes.find? fun node => decide (node.name = name)

/-- A name has no place exactly when it is the name of no node. -/
theorem position?_eq_none_iff {g : Graph} {name : String} :
    g.position? name = none ↔ name ∉ g.names := by
  simp [position?, names]

/-- A graph holds a node under the node's own name. -/
theorem get?_eq_some_iff {g : Graph} {name : String} {node : Node} :
    g.get? name = some node ↔ node ∈ g.nodes ∧ node.name = name := by
  obtain ⟨nodes, nodup⟩ := g
  unfold get?
  induction nodes with
  | nil => simp
  | cons first rest ih =>
    simp only [List.map_cons, List.nodup_cons] at nodup
    by_cases h : first.name = name
    · simp only [List.find?_cons, h, decide_true, Option.some.injEq, List.mem_cons]
      constructor
      · rintro rfl
        exact ⟨Or.inl rfl, h⟩
      · rintro ⟨rfl | hmem, hname⟩
        · rfl
        · exact absurd (List.mem_map.2 ⟨node, hmem, hname.trans h.symm⟩) nodup.1
    · simp only [List.find?_cons, h, decide_false, List.mem_cons]
      refine (ih nodup.2).trans ⟨fun hm => ⟨Or.inr hm.1, hm.2⟩, ?_⟩
      rintro ⟨rfl | hmem, hname⟩
      · exact absurd hname h
      · exact ⟨hmem, hname⟩

/-! ### Inserting nodes -/

/-- Add a node at the end, unless a node has its name already. -/
def insert (g : Graph) (node : Node) : Graph × Placement :=
  match h : g.position? node.name with
  | some index => (g, .taken index)
  | none =>
    (⟨g.nodes ++ [node], by
      rw [List.map_append, List.nodup_append]
      refine ⟨g.nodup_names, by simp, ?_⟩
      intro a ha b hb hab
      simp only [List.map_cons, List.map_nil, List.mem_singleton] at hb
      exact position?_eq_none_iff.1 h (by rw [← hb, ← hab]; exact ha)⟩,
     .added g.nodes.length)

/-- Insert nodes one after the other, turning away those whose name is taken. -/
def insertAll (g : Graph) (nodes : List Node) : Graph :=
  nodes.foldl (fun acc node => (acc.insert node).1) g

/-- The graph of a list of nodes, the first node of each name. -/
def ofNodes (nodes : List Node) : Graph := empty.insertAll nodes

@[simp] theorem insertAll_nil (g : Graph) : g.insertAll [] = g := rfl

@[simp] theorem insertAll_cons (g : Graph) (node : Node) (rest : List Node) :
    g.insertAll (node :: rest) = (g.insert node).1.insertAll rest := rfl

/-- A node whose name is taken leaves the graph as it was. -/
theorem insert_of_taken {g : Graph} {node : Node} {index : Nat}
    (h : g.position? node.name = some index) : g.insert node = (g, .taken index) := by
  unfold insert
  split
  · rename_i i hi
    rw [h] at hi
    cases hi
    rfl
  · rename_i hn
    rw [h] at hn
    cases hn

/-- A node with a new name goes last. -/
theorem nodes_insert_of_new {g : Graph} {node : Node} (h : node.name ∉ g.names) :
    (g.insert node).1.nodes = g.nodes ++ [node] ∧
      (g.insert node).2 = .added g.nodes.length := by
  unfold insert
  split
  · rename_i i hi
    rw [position?_eq_none_iff.2 h] at hi
    cases hi
  · exact ⟨rfl, rfl⟩

/-- Nodes with new names, pairwise distinct, go last in their order. -/
theorem nodes_insertAll_of_new {g : Graph} {nodes : List Node}
    (nodup : (nodes.map Node.name).Nodup) (new : ∀ node ∈ nodes, node.name ∉ g.names) :
    (g.insertAll nodes).nodes = g.nodes ++ nodes := by
  induction nodes generalizing g with
  | nil => simp
  | cons node rest ih =>
    rw [List.map_cons, List.nodup_cons] at nodup
    have hnodes := (nodes_insert_of_new (new node List.mem_cons_self)).1
    rw [insertAll_cons, ih nodup.2, hnodes, List.append_assoc, List.singleton_append]
    intro other hmem hname
    rw [names, hnodes, List.map_append, List.mem_append] at hname
    rcases hname with hname | hname
    · exact new other (List.mem_cons_of_mem _ hmem) hname
    · have heq : other.name = node.name := by simpa using hname
      exact nodup.1 (List.mem_map.2 ⟨other, hmem, heq⟩)

/-- Nodes with pairwise distinct names are all kept, in their order. -/
theorem nodes_ofNodes {nodes : List Node} (nodup : (nodes.map Node.name).Nodup) :
    (ofNodes nodes).nodes = nodes :=
  nodes_insertAll_of_new nodup fun _ _ => List.not_mem_nil

/-! ### Showing edges -/

/-- The line of one dependency: its index among the dependencies of its node, and both names. -/
def edgeLine (node : Node) (index : Nat) (dependency : String) : String :=
  "[" ++ toString index ++ "] " ++ node.name ++ " -> " ++ dependency ++ "\n"

/-- One line for each dependency, node after node. -/
def edgeLines (g : Graph) : String :=
  String.join (g.nodes.flatMap fun node => node.dependencies.mapIdx (edgeLine node))

end Graph

end Interpolation
