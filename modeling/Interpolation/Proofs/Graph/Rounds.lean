import Interpolation.Graph.Order

/-!
# What the rounds of a graph leave behind

The rounds split the waiting nodes into those that they put in order and those that they leave
over. Every node in order comes after its dependencies. Every node left over has a dependency that
is neither done from the start nor in order, and this is why no round could take it.

## Main definitions

* `Graph.InOrder` — each node of a list comes after its dependencies.

## Main results

* `Graph.perm_rounds` — no node is lost and none is taken twice.
* `Graph.inOrder_rounds` — what the rounds take is in order.
* `Graph.exists_dependency_of_mem_stuck` — why a node is left over.
* `Graph.InOrder.induction` — what passes from dependencies to nodes holds along an order.
-/

namespace Interpolation.Graph

/-! ### Lists in which dependencies come first -/

/-- Each node of a list comes after its dependencies, apart from those that are done before. -/
def InOrder (done : List String) : List Node → Prop
  | [] => True
  | node :: rest =>
    (∀ dependency ∈ node.dependencies, dependency ∈ done) ∧ InOrder (done ++ [node.name]) rest

@[simp] theorem inOrder_nil (done : List String) : InOrder done [] := trivial

theorem inOrder_cons {done : List String} {node : Node} {rest : List Node} :
    InOrder done (node :: rest) ↔
      (∀ dependency ∈ node.dependencies, dependency ∈ done) ∧
        InOrder (done ++ [node.name]) rest :=
  Iff.rfl

/-- One list in order behind another, whose names count as done for the second. -/
theorem inOrder_append {done : List String} {first second : List Node} :
    InOrder done (first ++ second) ↔
      InOrder done first ∧ InOrder (done ++ first.map Node.name) second := by
  induction first generalizing done with
  | nil => simp
  | cons node rest ih =>
    rw [List.cons_append, inOrder_cons, inOrder_cons, ih, List.map_cons, List.append_assoc,
      List.singleton_append, and_assoc]

theorem inOrder_of_forall_done {done : List String} {nodes : List Node}
    (h : ∀ node ∈ nodes, ∀ dependency ∈ node.dependencies, dependency ∈ done) :
    InOrder done nodes := by
  induction nodes generalizing done with
  | nil => exact inOrder_nil done
  | cons node rest ih =>
    refine ⟨h node List.mem_cons_self, ih fun other hmem dependency hdep => ?_⟩
    exact List.mem_append_left _ (h other (List.mem_cons_of_mem _ hmem) dependency hdep)

/-- In a list in order, the dependencies of a node are done or come before it. -/
theorem InOrder.dependencies_before {done : List String} {before after : List Node} {node : Node}
    (h : InOrder done (before ++ node :: after)) :
    ∀ dependency ∈ node.dependencies, dependency ∈ done ++ before.map Node.name :=
  (inOrder_append.mp h).2.1

/-- What holds of all that is done, and of a node as soon as it holds of its dependencies, holds
of every node of a list in order. -/
theorem InOrder.induction {motive : String → Prop} {done : List String} {nodes : List Node}
    (h : InOrder done nodes) (base : ∀ name ∈ done, motive name)
    (step : ∀ node ∈ nodes, (∀ dependency ∈ node.dependencies, motive dependency) →
      motive node.name) :
    ∀ node ∈ nodes, motive node.name := by
  induction nodes generalizing done with
  | nil => simp
  | cons first rest ih =>
    obtain ⟨hfirst, hrest⟩ := inOrder_cons.mp h
    have hname : motive first.name :=
      step first List.mem_cons_self fun dependency hdep => base dependency (hfirst dependency hdep)
    have hdone : ∀ name ∈ done ++ [first.name], motive name := by
      intro name hmem
      rcases List.mem_append.mp hmem with hmem | hmem
      · exact base name hmem
      · rwa [List.mem_singleton.mp hmem]
    intro node hmem
    rcases List.mem_cons.mp hmem with rfl | hmem
    · exact hname
    · exact ih hrest hdone (fun other hother => step other (List.mem_cons_of_mem _ hother)) node
        hmem

/-! ### One round -/

theorem isReady_iff {done : List String} {node : Node} :
    node.isReady done = true ↔ ∀ dependency ∈ node.dependencies, dependency ∈ done := by
  simp [Node.isReady]

theorem perm_ready_append_blocked (done : List String) (waiting : List Node) :
    (ready done waiting ++ blocked done waiting).Perm waiting :=
  List.filter_append_perm _ _

theorem inOrder_ready (done : List String) (waiting : List Node) :
    InOrder done (ready done waiting) :=
  inOrder_of_forall_done fun _ hmem => isReady_iff.mp (List.mem_filter.mp hmem).2

/-! ### All rounds -/

/-- The rounds lose no node and take none twice. -/
theorem perm_rounds (done : List String) (waiting : List Node) :
    ((rounds done waiting).1 ++ (rounds done waiting).2).Perm waiting := by
  induction done, waiting using rounds.induct with
  | case1 done waiting h => rw [rounds_of_stuck h, List.nil_append]
  | case2 done waiting h ih =>
    rw [rounds_of_ready h, List.append_assoc]
    exact (ih.append_left _).trans (perm_ready_append_blocked done waiting)

/-- What the rounds take is in order. -/
theorem inOrder_rounds (done : List String) (waiting : List Node) :
    InOrder done (rounds done waiting).1 := by
  induction done, waiting using rounds.induct with
  | case1 done waiting h =>
    rw [rounds_of_stuck h]
    exact inOrder_nil done
  | case2 done waiting h ih =>
    rw [rounds_of_ready h]
    exact inOrder_append.mpr ⟨inOrder_ready done waiting, ih⟩

/-- A node that the rounds leave over has a dependency that is neither done nor in order. -/
theorem exists_dependency_of_mem_stuck {done : List String} {waiting : List Node} {node : Node}
    (hmem : node ∈ (rounds done waiting).2) :
    ∃ dependency ∈ node.dependencies,
      dependency ∉ done ++ (rounds done waiting).1.map Node.name := by
  induction done, waiting using rounds.induct with
  | case1 done waiting h =>
    rw [rounds_of_stuck h] at hmem ⊢
    have hblocked : ¬ node.isReady done = true := fun hready => by
      have : node ∈ ready done waiting := List.mem_filter.mpr ⟨hmem, hready⟩
      rw [h] at this
      exact absurd this List.not_mem_nil
    rw [isReady_iff, Classical.not_forall] at hblocked
    obtain ⟨dependency, hdep⟩ := hblocked
    obtain ⟨hmem', hnot⟩ := Classical.not_imp.mp hdep
    refine ⟨dependency, hmem', ?_⟩
    rwa [List.map_nil, List.append_nil]
  | case2 done waiting h ih =>
    rw [rounds_of_ready h] at hmem ⊢
    rw [List.map_append, ← List.append_assoc]
    exact ih hmem

end Interpolation.Graph
