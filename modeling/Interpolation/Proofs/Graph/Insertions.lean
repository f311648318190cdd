import Mathlib
import Interpolation.OrderedMap
import Interpolation.Proofs.Graph.Cycles

/-!
# What insertions keep

Nodes are inserted one after the other, also where a graph is made of a list of nodes. A graph then
holds the first node of each name among all that were inserted, at the place at which its name came
up first. Since a new node only ever goes last, an index that was told once stays with its name, and
a look-up finds what was there from the first insertion of the name on.

Putting the nodes into the order of their names drops a node wherever a name is repeated. No name
is, so an order has every node.

## Main definitions

* `Graph.firstNamed` — the first node of a name in a row of nodes.
* `Graph.Placement.index` — the index that an insertion tells.

## Main results

* `Graph.insert_eq` — what an insertion answers and leaves behind.
* `Graph.get?_insertAll`, `Graph.names_insertAll` — the nodes and names that insertions keep.
* `Graph.getElem?_index` — an index that was told stays with its name.
* `Graph.insertAll_keeps_first` — what holds of every sequence of insertions.
-/

namespace Interpolation.Graph

variable {g : Graph} {node : Node} {name : String}

/-- The first node of a name in a row of nodes. -/
def firstNamed (name : String) (nodes : List Node) : Option Node :=
  nodes.find? fun node => decide (node.name = name)

/-- The index that an insertion tells, of the new node or of the one that has its name. -/
def Placement.index : Placement → Nat
  | .added index => index
  | .taken index => index

theorem firstNamed_eq_none_iff {nodes : List Node} :
    firstNamed name nodes = none ↔ name ∉ nodes.map Node.name := by
  simp [firstNamed]

theorem firstNamed_nodes (g : Graph) (name : String) : firstNamed name g.nodes = g.get? name := rfl

theorem firstNamed_append (first second : List Node) :
    firstNamed name (first ++ second) = (firstNamed name first).or (firstNamed name second) :=
  List.find?_append

/-! ### Places -/

/-- The place of a name among the nodes is its place among the names. -/
theorem position?_eq (g : Graph) (name : String) :
    g.position? name = if name ∈ g.names then some (g.names.idxOf name) else none := by
  rw [position?, names]
  induction g.nodes with
  | nil => rfl
  | cons first rest ih =>
    by_cases hfirst : first.name = name
    · simp [List.findIdx?_cons, hfirst]
    · have hne : ¬name = first.name := fun h => hfirst h.symm
      simp only [List.findIdx?_cons, hfirst, ih, List.map_cons, List.mem_cons, hne, false_or,
        List.idxOf_cons_ne _ hfirst]
      split <;> simp_all

/-- At the place of a name stands the node that a look-up finds. -/
theorem getElem?_idxOf_names (g : Graph) (name : String) :
    g.nodes[g.names.idxOf name]? = g.get? name := by
  rw [get?, names]
  induction g.nodes with
  | nil => rfl
  | cons first rest ih =>
    by_cases hfirst : first.name = name
    · simp [hfirst]
    · rw [List.map_cons, List.idxOf_cons_ne _ hfirst, List.getElem?_cons_succ, ih,
        List.find?_cons_of_neg (by simpa using hfirst)]

/-- An index with a node of a name is the place of the name. -/
theorem eq_idxOf_of_getElem? {index : Nat} (h : g.nodes[index]? = some node) :
    index = g.names.idxOf node.name := by
  have hname : g.names[index]? = some node.name := by rw [names, List.getElem?_map, h]; rfl
  obtain ⟨hlt, hindex⟩ := List.getElem?_eq_some_iff.mp hname
  have hnodup : g.names.Nodup := g.nodup_names
  rw [← hindex, hnodup.idxOf_getElem]

/-! ### One insertion -/

/-- An insertion leaves the graph as it was if the name is taken, and tells where. Otherwise the
node goes last. -/
theorem insert_eq (g : Graph) (node : Node) :
    (g.insert node).2 =
        (if node.name ∈ g.names then .taken (g.names.idxOf node.name) else .added g.size) ∧
      (g.insert node).1.nodes = if node.name ∈ g.names then g.nodes else g.nodes ++ [node] := by
  by_cases hname : node.name ∈ g.names
  · have hplace : g.position? node.name = some (g.names.idxOf node.name) := by
      rw [position?_eq, if_pos hname]
    rw [insert_of_taken hplace, if_pos hname, if_pos hname]
    exact ⟨rfl, rfl⟩
  · obtain ⟨hnodes, hplacement⟩ := nodes_insert_of_new hname
    rw [if_neg hname, if_neg hname]
    exact ⟨hplacement, hnodes⟩

theorem names_insert (g : Graph) (node : Node) :
    (g.insert node).1.names =
      if node.name ∈ g.names then g.names else g.names ++ [node.name] := by
  rw [names, (insert_eq g node).2]
  split
  · rfl
  · rw [List.map_append]
    rfl

/-- A look-up finds what it found before, and otherwise the node if it has the name. -/
theorem get?_insert (g : Graph) (node : Node) (name : String) :
    (g.insert node).1.get? name = (g.get? name).or (firstNamed name [node]) := by
  rw [← firstNamed_nodes, (insert_eq g node).2]
  split
  · next htaken =>
    -- A taken name adds nothing: if it is the name that is looked up, its node is found already.
    by_cases hname : node.name = name
    · obtain ⟨first, hmem, hfirst⟩ := List.mem_map.mp htaken
      have hfound : g.get? name = some first :=
        get?_eq_some_iff.mpr ⟨hmem, hfirst.trans hname⟩
      rw [firstNamed_nodes, hfound, Option.some_or]
    · have hnone : firstNamed name [node] = none :=
        firstNamed_eq_none_iff.mpr (by simpa using fun h : name = node.name => hname h.symm)
      rw [hnone, Option.or_none, firstNamed_nodes]
  · exact firstNamed_append g.nodes [node]

/-! ### All insertions -/

theorem insertAll_append (g : Graph) (first second : List Node) :
    g.insertAll (first ++ second) = (g.insertAll first).insertAll second :=
  List.foldl_append

/-- A look-up finds the first node of its name. -/
theorem get?_insertAll (g : Graph) (nodes : List Node) (name : String) :
    (g.insertAll nodes).get? name = firstNamed name (g.nodes ++ nodes) := by
  induction nodes generalizing g with
  | nil => rw [insertAll_nil, List.append_nil, firstNamed_nodes]
  | cons node rest ih =>
    rw [insertAll_cons, ih, firstNamed_append, firstNamed_nodes, get?_insert, Option.or_assoc,
      ← firstNamed_append, firstNamed_append g.nodes, firstNamed_nodes, List.singleton_append]

/-- The names are those of all nodes, each at the place at which it came up first. -/
theorem names_insertAll (g : Graph) (nodes : List Node) :
    (g.insertAll nodes).names = ((g.nodes ++ nodes).map Node.name).eraseDups := by
  induction nodes using List.reverseRecOn with
  | nil =>
    rw [insertAll_nil, List.append_nil]
    exact (OrderedMap.eraseDups_of_nodup g.nodup_names).symm
  | append_singleton nodes node ih =>
    have hmap : (g.nodes ++ (nodes ++ [node])).map Node.name =
        (g.nodes ++ nodes).map Node.name ++ [node.name] := by
      rw [← List.append_assoc, List.map_append, List.map_singleton]
    rw [insertAll_append, insertAll_cons, insertAll_nil, names_insert, ih, hmap,
      OrderedMap.eraseDups_append_singleton]
    simp only [List.mem_eraseDups]

theorem mem_names_insertAll {nodes : List Node} :
    name ∈ (g.insertAll nodes).names ↔ name ∈ (g.nodes ++ nodes).map Node.name := by
  rw [names_insertAll, List.mem_eraseDups]

/-- Names keep their places while nodes are inserted. -/
theorem idxOf_names_insertAll (h : name ∈ g.names) (nodes : List Node) :
    (g.insertAll nodes).names.idxOf name = g.names.idxOf name := by
  have hnames : g.names.eraseDups = g.names := OrderedMap.eraseDups_of_nodup g.nodup_names
  rw [names_insertAll, List.map_append, List.eraseDups_append, ← names, hnames,
    List.idxOf_append_of_mem h]

/-- An insertion tells the place that the name of the node has from then on. -/
theorem index_insert (g : Graph) (node : Node) :
    (g.insert node).2.index = (g.insert node).1.names.idxOf node.name := by
  rw [(insert_eq g node).1, names_insert]
  split
  · rfl
  · next hnew =>
    rw [List.idxOf_append_of_notMem hnew, List.idxOf_cons_self, Nat.add_zero, names,
      List.length_map]
    rfl

/-- The index that an insertion tells stays with the name: however many nodes are inserted later,
the first node that was inserted with the name stands there. -/
theorem getElem?_index (g : Graph) (node : Node) (later : List Node) :
    ((g.insert node).1.insertAll later).nodes[(g.insert node).2.index]? =
      firstNamed node.name (g.nodes ++ [node]) := by
  have hmem : node.name ∈ (g.insert node).1.names := by
    rw [names_insert]
    split
    · assumption
    · simp
  have hone : (g.insert node).1.get? node.name = firstNamed node.name (g.nodes ++ [node]) :=
    get?_insertAll g [node] node.name
  obtain ⟨first, hfirst⟩ : ∃ first, (g.insert node).1.get? node.name = some first := by
    obtain ⟨first, hin, hname⟩ := List.mem_map.mp hmem
    exact ⟨first, get?_eq_some_iff.mpr ⟨hin, hname⟩⟩
  rw [index_insert, ← idxOf_names_insertAll hmem later, getElem?_idxOf_names,
    get?_insertAll, firstNamed_append, firstNamed_nodes, ← hone, hfirst, Option.some_or]

/-! ### What an insertion answers -/

theorem insert_eq_added_iff {index : Nat} :
    (g.insert node).2 = .added index ↔ node.name ∉ g.names ∧ index = g.size := by
  rw [(insert_eq g node).1]
  split <;> simp_all [eq_comm]

/-- A name is taken at an index exactly when its first node stands there. -/
theorem insert_eq_taken_iff {index : Nat} :
    (g.insert node).2 = .taken index ↔
      ∃ first, g.get? node.name = some first ∧ g.nodes[index]? = some first := by
  rw [(insert_eq g node).1]
  split
  · next htaken =>
    obtain ⟨first, hmem, hname⟩ := List.mem_map.mp htaken
    have hfirst : g.get? node.name = some first := get?_eq_some_iff.mpr ⟨hmem, hname⟩
    rw [Placement.taken.injEq]
    constructor
    · rintro rfl
      exact ⟨first, hfirst, (getElem?_idxOf_names g _).trans hfirst⟩
    · rintro ⟨found, hfound, hplace⟩
      rw [eq_idxOf_of_getElem? hplace, (get?_eq_some_iff.mp hfound).2]
  · next hnew =>
    refine ⟨fun h => ?_, ?_⟩
    · cases h
    rintro ⟨first, hfirst, -⟩
    obtain ⟨hmem, hname⟩ := get?_eq_some_iff.mp hfirst
    exact absurd (List.mem_map.mpr ⟨first, hmem, hname⟩) hnew

/-- **The first of each name.** Nodes that are inserted one after the other leave a graph with
pairwise distinct names, which are those of all the nodes in the order in which they came up, and a
look-up finds the first node of its name, or nothing if the name never came up. An insertion on the
way adds its node behind the others if and only if the name is new. Otherwise it leaves the graph as
it was and tells the index of the first node of the name. The index that it tells stays with that
node, whatever is inserted later. No node is lost when the nodes are put into the order of their
names, so a resolved order has all of them. -/
theorem insertAll_keeps_first (g : Graph) (nodes : List Node) :
    let kept := g.insertAll nodes
    kept.names.Nodup ∧ kept.names = ((g.nodes ++ nodes).map Node.name).eraseDups ∧
    (∀ name, kept.get? name = firstNamed name (g.nodes ++ nodes) ∧
      (kept.get? name = none ↔ name ∉ (g.nodes ++ nodes).map Node.name)) ∧
    (∀ before node later, nodes = before ++ node :: later →
      let earlier := g.insertAll before
      let given := g.nodes ++ before
      (∀ index, (earlier.insert node).2 = .added index ↔
        node.name ∉ given.map Node.name ∧ index = earlier.size) ∧
      (∀ index, (earlier.insert node).2 = .taken index ↔
        ∃ first, firstNamed node.name given = some first ∧ earlier.nodes[index]? = some first) ∧
      (node.name ∈ given.map Node.name → (earlier.insert node).1 = earlier) ∧
      kept.nodes[(earlier.insert node).2.index]? = firstNamed node.name (given ++ [node])) ∧
    kept.byName.Perm kept.nodes ∧
    ∀ ordered, kept.resolve = .ok ordered →
      ordered.Perm kept.nodes ∧ ordered.length = kept.size := by
  intro kept
  refine ⟨kept.nodup_names, names_insertAll g nodes,
    fun name => ⟨get?_insertAll g nodes name, ?_⟩, ?_, kept.perm_byName,
    fun ordered h => ⟨perm_of_resolve h, (perm_of_resolve h).length_eq⟩⟩
  · rw [get?_insertAll, firstNamed_eq_none_iff]
  · rintro before node later rfl
    dsimp only
    refine ⟨fun index => ?_, fun index => ?_, fun htaken => ?_, ?_⟩
    · rw [insert_eq_added_iff, mem_names_insertAll]
    · rw [insert_eq_taken_iff, get?_insertAll]
    · refine ext ?_
      rw [(insert_eq _ node).2, if_pos (mem_names_insertAll.mpr htaken)]
    · have hkept : kept = ((g.insertAll before).insert node).1.insertAll later :=
        insertAll_append g before (node :: later)
      rw [hkept, getElem?_index, firstNamed_append, firstNamed_nodes, get?_insertAll,
        ← firstNamed_append]

/-- Of two nodes with one name the first is kept, at the index that the second is told. -/
theorem insertAll_keeps_first_collision :
    let first : Node := ⟨"a", ["b"]⟩
    let second : Node := .leaf "a"
    let nodes := [first, .leaf "b", second, .leaf "c"]
    let kept := (∅ : Graph).insertAll nodes
    let earlier := (∅ : Graph).insertAll [first, .leaf "b"]
    nodes = [first, .leaf "b"] ++ second :: [.leaf "c"] ∧
      kept.names = ["a", "b", "c"] ∧ kept.get? "a" = some first ∧
      (earlier.insert second).2 = .taken 0 ∧ (earlier.insert second).1 = earlier ∧
      kept.nodes[0]? = some first ∧
      kept.resolve = .ok [.leaf "b", .leaf "c", first] ∧ kept.size = 3 := by
  intro first second nodes kept earlier
  have hresolve : kept.resolve = .ok [.leaf "b", .leaf "c", first] := by cbv
  obtain ⟨-, hnames, hget, hsteps, -, hordered⟩ := insertAll_keeps_first ∅ nodes
  obtain ⟨-, htaken, hsame, hindex⟩ := hsteps [first, .leaf "b"] second [.leaf "c"] rfl
  have hplacement : (earlier.insert second).2 = .taken 0 :=
    (htaken 0).mpr ⟨first, by decide, by decide⟩
  refine ⟨rfl, hnames.trans (by decide), (hget "a").1.trans (by decide), hplacement,
    hsame (by decide), ?_, hresolve, (hordered _ hresolve).2.symm⟩
  rw [hplacement] at hindex
  exact hindex.trans (by decide)

end Interpolation.Graph
