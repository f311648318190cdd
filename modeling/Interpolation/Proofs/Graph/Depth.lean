import Mathlib
import Interpolation.Proofs.Graph.Stalls

/-!
# Depth and the order of a graph

A node without dependencies has depth 0, and every other node lies one deeper than the deepest of
its dependencies. Each round takes the nodes of one depth, all of them: before the round of a level
the names of smaller depth are done, and the other nodes wait. So the nodes stand in the order of
their depths, and nodes of one depth in the order of their names. Depths and names do not know in
which order nodes were inserted, or in which order and how often dependencies were listed.

## Main definitions

* `Graph.Node.depthFrom` — the depth of a node, from the depths of its dependencies.
* `Graph.IsDepth` — depths that fit all nodes of a graph.
* `Graph.Before` — the order by depth, and by name where depths are equal.
* `Graph.AtLevel` — how far the rounds have come before the round of a level.
* `Graph.SameDependencies` — graphs whose names depend on the same names.

## Main results

* `Graph.AtLevel.mem_ready_iff` — the round of a level takes the nodes of that depth.
* `Graph.exists_isDepth` — a graph with an order has depths.
* `Graph.resolve_sorted_by_depth` — an order goes by depth and name.
-/

namespace Interpolation.Graph

variable {g other : Graph} {depth : String → Nat} {level : Nat} {done : List String}
  {waiting ordered : List Node} {node : Node}

/-! ### Depths -/

/-- The depth of a node whose dependencies have the given depths: one more than the greatest of
them, and 0 if there are none. -/
def Node.depthFrom (depth : String → Nat) (node : Node) : Nat :=
  match (node.dependencies.map depth).max? with
  | none => 0
  | some deepest => deepest + 1

/-- The depths fit every node of the graph. -/
def IsDepth (g : Graph) (depth : String → Nat) : Prop :=
  ∀ node ∈ g.nodes, depth node.name = node.depthFrom depth

/-- One name has smaller depth than another, or the same depth and comes first as a name. -/
def Before (depth : String → Nat) (first second : String) : Prop :=
  toLex (depth first, first) < toLex (depth second, second)

/-- A node is at most as deep as a level exactly when its dependencies are less deep. -/
theorem Node.depthFrom_le_iff :
    node.depthFrom depth ≤ level ↔ ∀ dependency ∈ node.dependencies, depth dependency < level := by
  rw [← List.forall_mem_map (P := fun d => d < level), depthFrom]
  split
  · next hnone => simp [List.max?_eq_none_iff.mp hnone]
  · next deepest hsome =>
    obtain ⟨hmem, hle⟩ := List.max?_eq_some_iff.mp hsome
    exact ⟨fun hlt d hd => (hle d hd).trans_lt hlt, fun hlt => hlt deepest hmem⟩

/-- The depth of a node depends on which names its dependencies are, and on their depths. -/
theorem Node.depthFrom_congr {same : Node} {depth' : String → Nat}
    (hdep : ∀ dependency, dependency ∈ same.dependencies ↔ dependency ∈ node.dependencies)
    (hdepth : ∀ dependency ∈ node.dependencies, depth' dependency = depth dependency) :
    same.depthFrom depth' = node.depthFrom depth := by
  refine eq_of_forall_ge_iff fun level => ?_
  rw [depthFrom_le_iff, depthFrom_le_iff]
  refine forall_congr' fun dependency => ?_
  rw [hdep]
  exact forall_congr' fun hmem => by rw [hdepth dependency hmem]

/-! ### Depths along an order -/

/-- Depths found along a list of nodes, each from the depths before it. -/
def depthAlong (depth : String → Nat) : List Node → String → Nat
  | [] => depth
  | node :: rest => depthAlong (Function.update depth node.name (node.depthFrom depth)) rest

theorem depthAlong_of_notMem {nodes : List Node} {name : String}
    (h : name ∉ nodes.map Node.name) : depthAlong depth nodes name = depth name := by
  induction nodes generalizing depth with
  | nil => rfl
  | cons node rest ih =>
    rw [List.map_cons, List.mem_cons, not_or] at h
    rw [depthAlong, ih h.2, Function.update_of_ne h.1]

/-- Along nodes in order, the depths that are found fit the nodes. -/
theorem depthAlong_name_eq {nodes : List Node} (horder : InOrder done nodes)
    (hnodup : (done ++ nodes.map Node.name).Nodup) :
    ∀ node ∈ nodes, depthAlong depth nodes node.name = node.depthFrom (depthAlong depth nodes) := by
  induction nodes generalizing done depth with
  | nil => simp
  | cons first rest ih =>
    obtain ⟨hdeps, hrest⟩ := inOrder_cons.mp horder
    have hdisjoint := (List.nodup_append'.mp hnodup).2.2
    have hfirst : first.name ∉ rest.map Node.name := by
      have hnames := (List.nodup_append'.mp hnodup).2.1
      rw [List.map_cons] at hnames
      exact (List.nodup_cons.mp hnames).1
    have hnodup' : (done ++ [first.name] ++ rest.map Node.name).Nodup := by
      rwa [List.append_assoc, List.singleton_append]
    intro node hmem
    rcases List.mem_cons.mp hmem with rfl | hmem
    · have hself : depthAlong depth (node :: rest) node.name = node.depthFrom depth := by
        rw [depthAlong, depthAlong_of_notMem hfirst, Function.update_self]
      rw [hself]
      -- The dependencies are done, so no node of the list changes their depths.
      refine (Node.depthFrom_congr (fun _ => Iff.rfl) fun dependency hdep => ?_).symm
      exact depthAlong_of_notMem (hdisjoint (hdeps dependency hdep))
    · exact ih hrest hnodup' node hmem

/-- A graph with an order has depths. -/
theorem exists_isDepth (h : g.resolve = .ok ordered) : ∃ depth, g.IsDepth depth := by
  have hperm := perm_of_resolve h
  have hnodup : ([] ++ ordered.map Node.name).Nodup :=
    (hperm.map Node.name).nodup_iff.mpr g.nodup_names
  refine ⟨depthAlong (fun _ => 0) ordered, fun node hmem => ?_⟩
  exact depthAlong_name_eq (inOrder_of_resolve h) hnodup node (hperm.mem_iff.mpr hmem)

/-! ### The round of a level -/

/-- How far the rounds have come before the round of a level: the names of smaller depth are done,
and all other nodes wait. -/
structure AtLevel (g : Graph) (depth : String → Nat) (level : Nat) (done : List String)
    (waiting : List Node) : Prop where
  /-- The names that are done are those of smaller depth. -/
  mem_done_iff : ∀ name ∈ g.names, name ∈ done ↔ depth name < level
  /-- The nodes that wait are the others. -/
  mem_waiting_iff : ∀ node, node ∈ waiting ↔ node ∈ g.nodes ∧ level ≤ depth node.name

namespace AtLevel

theorem start (g : Graph) (depth : String → Nat) : g.AtLevel depth 0 [] g.byName where
  mem_done_iff _ _ := by simp
  mem_waiting_iff node := by simp [g.perm_byName.mem_iff]

variable (hclosed : g.Closed) (hdepth : g.IsDepth depth)

include hclosed hdepth in
/-- A node that waits is ready exactly when its depth is the level. -/
theorem isReady_iff (h : g.AtLevel depth level done waiting) (hmem : node ∈ waiting) :
    node.isReady done = true ↔ depth node.name = level := by
  obtain ⟨hnode, hlevel⟩ := (h.mem_waiting_iff node).mp hmem
  have hdone : ∀ dependency ∈ node.dependencies, dependency ∈ done ↔ depth dependency < level :=
    fun dependency hdep => h.mem_done_iff dependency (hclosed _ _ ⟨node, hnode, rfl, hdep⟩)
  calc node.isReady done = true
      ↔ ∀ dependency ∈ node.dependencies, dependency ∈ done := Graph.isReady_iff
    _ ↔ ∀ dependency ∈ node.dependencies, depth dependency < level :=
        forall₂_congr hdone
    _ ↔ depth node.name ≤ level := by rw [hdepth node hnode, Node.depthFrom_le_iff]
    _ ↔ depth node.name = level := ⟨fun hle => hle.antisymm hlevel, fun heq => heq.le⟩

include hclosed hdepth in
/-- The round of a level takes the nodes of that depth, all of them and no others. -/
theorem mem_ready_iff (h : g.AtLevel depth level done waiting) :
    node ∈ ready done waiting ↔ node ∈ g.nodes ∧ depth node.name = level := by
  rw [ready, List.mem_filter]
  constructor
  · rintro ⟨hmem, hready⟩
    exact ⟨((h.mem_waiting_iff node).mp hmem).1, (h.isReady_iff hclosed hdepth hmem).mp hready⟩
  · rintro ⟨hnode, hlevel⟩
    have hmem : node ∈ waiting := (h.mem_waiting_iff node).mpr ⟨hnode, hlevel.ge⟩
    exact ⟨hmem, (h.isReady_iff hclosed hdepth hmem).mpr hlevel⟩

include hclosed hdepth in
/-- After the round of a level comes the round of the next one. -/
theorem next (h : g.AtLevel depth level done waiting) :
    g.AtLevel depth (level + 1) (done ++ (ready done waiting).map Node.name)
      (blocked done waiting) where
  mem_done_iff name hname := by
    obtain ⟨node, hnode, rfl⟩ := List.mem_map.mp hname
    have hready : node.name ∈ (ready done waiting).map Node.name ↔ depth node.name = level := by
      rw [List.mem_map]
      constructor
      · rintro ⟨found, hfound, heq⟩
        rw [← heq]
        exact ((h.mem_ready_iff hclosed hdepth).mp hfound).2
      · exact fun hlevel => ⟨node, (h.mem_ready_iff hclosed hdepth).mpr ⟨hnode, hlevel⟩, rfl⟩
    rw [List.mem_append, h.mem_done_iff _ hname, hready, Nat.lt_succ_iff_lt_or_eq]
  mem_waiting_iff node := by
    have hblocked : node ∈ waiting → ((!node.isReady done) = true ↔ depth node.name ≠ level) :=
      fun hmem => by rw [Bool.not_eq_true', ← Bool.not_eq_true, h.isReady_iff hclosed hdepth hmem]
    calc node ∈ blocked done waiting
        ↔ node ∈ waiting ∧ depth node.name ≠ level := by
          rw [blocked, List.mem_filter, and_congr_right hblocked]
      _ ↔ node ∈ g.nodes ∧ level ≤ depth node.name ∧ depth node.name ≠ level := by
          rw [h.mem_waiting_iff, and_assoc]
      _ ↔ node ∈ g.nodes ∧ level + 1 ≤ depth node.name := by
          rw [Nat.add_one_le_iff, lt_iff_le_and_ne, ne_comm]

include hclosed hdepth in
/-- The rounds take the nodes by depth, and by name where depths are equal. -/
theorem pairwise_rounds (h : g.AtLevel depth level done waiting)
    (hsorted : waiting.Pairwise fun a b => a.name < b.name) :
    (rounds done waiting).1.Pairwise fun a b => Before depth a.name b.name := by
  induction done, waiting using rounds.induct generalizing level with
  | case1 done waiting hstuck =>
    rw [rounds_of_stuck hstuck]
    exact .nil
  | case2 done waiting hsome ih =>
    have hlevel : ∀ node ∈ ready done waiting, depth node.name = level := fun node hmem =>
      ((h.mem_ready_iff hclosed hdepth).mp hmem).2
    have hlater := h.next hclosed hdepth
    rw [rounds_of_ready hsome]
    refine List.pairwise_append.mpr ⟨?_, ih hlater (hsorted.filter _), fun a ha b hb => ?_⟩
    -- Within the round depths are equal and names decide, later nodes are deeper.
    · refine (hsorted.filter _).imp_of_mem fun {a b} ha hb hab => ?_
      exact Prod.Lex.toLex_lt_toLex.mpr (Or.inr ⟨(hlevel a ha).trans (hlevel b hb).symm, hab⟩)
    · have hb' : b ∈ blocked done waiting :=
        (perm_rounds _ _).mem_iff.mp (List.mem_append_left _ hb)
      have hdeeper : level + 1 ≤ depth b.name := ((hlater.mem_waiting_iff b).mp hb').2
      refine Prod.Lex.toLex_lt_toLex.mpr (Or.inl ?_)
      rw [hlevel a ha]
      exact hdeeper

end AtLevel

/-! ### The order by depth -/

/-- An order goes by depth and name. -/
theorem pairwise_of_resolve (h : g.resolve = .ok ordered) (hdepth : g.IsDepth depth) :
    (ordered.map Node.name).Pairwise (Before depth) := by
  have hrounds := (AtLevel.start g depth).pairwise_rounds (closed_of_resolve h) hdepth
    g.pairwise_byName
  rw [rounds_of_resolve h] at hrounds
  exact List.pairwise_map.mpr hrounds

/-! ### Graphs that differ in the order of what was listed -/

/-- The graphs have nodes of the same names, and each name depends on the same names in both. In
which order nodes and dependencies stand, and how often a dependency is listed, does not count. -/
structure SameDependencies (g other : Graph) : Prop where
  /-- The nodes have the same names. -/
  mem_names_iff : ∀ name, name ∈ other.names ↔ name ∈ g.names
  /-- The nodes of one name depend on the same names. -/
  dependsOn_iff : ∀ name dependency, other.DependsOn name dependency ↔ g.DependsOn name dependency

namespace SameDependencies

theorem dependsOn_eq (h : g.SameDependencies other) : other.DependsOn = g.DependsOn :=
  funext fun name => funext fun dependency => propext (h.dependsOn_iff name dependency)

theorem closed (h : g.SameDependencies other) (hclosed : g.Closed) : other.Closed :=
  fun name dependency hdep => (h.mem_names_iff _).mpr
    (hclosed name dependency ((h.dependsOn_iff name dependency).mp hdep))

theorem acyclic (h : g.SameDependencies other) (hacyclic : g.Acyclic) : other.Acyclic := by
  rw [Acyclic, h.dependsOn_eq]
  exact hacyclic

theorem isDepth (h : g.SameDependencies other) (hdepth : g.IsDepth depth) :
    other.IsDepth depth := by
  intro same hsame
  have hname := (h.mem_names_iff _).mp (List.mem_map.mpr ⟨same, hsame, rfl⟩)
  obtain ⟨node, hnode, heq⟩ := List.mem_map.mp hname
  have hdeps : ∀ dependency,
      dependency ∈ same.dependencies ↔ dependency ∈ node.dependencies := fun dependency => by
    rw [← dependsOn_name_iff hsame, h.dependsOn_iff, ← heq, dependsOn_name_iff hnode]
  rw [← heq, hdepth node hnode, Node.depthFrom_congr hdeps fun _ _ => rfl]

theorem perm_names (h : g.SameDependencies other) : other.names.Perm g.names :=
  (List.perm_ext_iff_of_nodup other.nodup_names g.nodup_names).mpr h.mem_names_iff

/-- The other graph has an order as well, in which the names stand as in the first. -/
theorem exists_resolve (h : g.SameDependencies other) (hg : g.resolve = .ok ordered) :
    ∃ again, other.resolve = .ok again ∧ again.map Node.name = ordered.map Node.name := by
  obtain ⟨again, hagain⟩ := exists_resolve_iff.mpr
    ⟨h.closed (closed_of_resolve hg), h.acyclic (acyclic_of_resolve hg)⟩
  obtain ⟨depth, hdepth⟩ := exists_isDepth hg
  have hperm : (again.map Node.name).Perm (ordered.map Node.name) :=
    ((perm_of_resolve hagain).map Node.name).trans
      (h.perm_names.trans ((perm_of_resolve hg).map Node.name).symm)
  refine ⟨again, hagain, hperm.eq_of_pairwise ?_ (pairwise_of_resolve hagain (h.isDepth hdepth))
    (pairwise_of_resolve hg hdepth)⟩
  intro a b _ _ hab hba
  exact absurd hba (lt_asymm hab)

end SameDependencies

/-- **An order goes by depth and name.** If a graph has an order, it lists every node once. The
graph has depths, and with these, the names stand in the order of depths, and in the order of names
where depths are equal. So every node comes after its dependencies, and the order of the names is
the same for every graph whose names depend on the same names, however its nodes were inserted and
its dependencies listed. -/
theorem resolve_sorted_by_depth (h : g.resolve = .ok ordered) :
    ordered.Perm g.nodes ∧
    (∃ depth, g.IsDepth depth) ∧
    (∀ depth, g.IsDepth depth → (ordered.map Node.name).Pairwise (Before depth)) ∧
    (∀ before node after, ordered = before ++ node :: after →
      ∀ dependency ∈ node.dependencies, dependency ∈ before.map Node.name) ∧
    ∀ other : Graph, g.SameDependencies other →
      ∃ again, other.resolve = .ok again ∧ again.map Node.name = ordered.map Node.name := by
  refine ⟨perm_of_resolve h, exists_isDepth h, fun depth => pairwise_of_resolve h, ?_,
    fun other hsame => hsame.exists_resolve h⟩
  rintro before node after rfl
  exact (inOrder_of_resolve h).dependencies_before

/-- A name that becomes ready only after the round, although it would come between the two names
of the round. -/
theorem resolve_sorted_by_depth_between :
    let g : Graph := .ofNodes [⟨"b", ["a"]⟩, ⟨"c", []⟩, ⟨"a", []⟩]
    let other : Graph := .ofNodes [⟨"a", []⟩, ⟨"b", ["a", "a"]⟩, ⟨"c", []⟩, ⟨"a", ["b"]⟩]
    let ordered : List Node := [⟨"a", []⟩, ⟨"c", []⟩, ⟨"b", ["a"]⟩]
    let depth : String → Nat := fun name => if name = "b" then 1 else 0
    g.resolve = .ok ordered ∧ g.IsDepth depth ∧ (ordered.map Node.name).Pairwise (Before depth) ∧
      g.SameDependencies other ∧
      ∃ again, other.resolve = .ok again ∧ again.map Node.name = ordered.map Node.name := by
  intro g other ordered depth
  have h : g.resolve = .ok ordered := by cbv
  have hnodes : g.nodes = [⟨"b", ["a"]⟩, ⟨"c", []⟩, ⟨"a", []⟩] := by cbv
  have hnodes' : other.nodes = [⟨"a", []⟩, ⟨"b", ["a", "a"]⟩, ⟨"c", []⟩] := by cbv
  have hdepth : g.IsDepth depth := by
    rw [IsDepth, hnodes]
    decide
  have hsame : g.SameDependencies other := by
    constructor
    · intro name
      simp only [names, hnodes, hnodes', List.map_cons, List.map_nil, List.mem_cons,
        List.not_mem_nil, or_false]
      tauto
    · intro name dependency
      simp [DependsOn, hnodes, hnodes']
  obtain ⟨-, -, hsorted, -, hothers⟩ := resolve_sorted_by_depth h
  exact ⟨h, hdepth, hsorted depth hdepth, hsame, hothers other hsame⟩

end Interpolation.Graph
