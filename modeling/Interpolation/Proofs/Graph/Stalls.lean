import Interpolation.Proofs.Graph.Cycles

/-!
# What a stall says

The rounds of a graph take exactly the names that are grounded. This notion knows nothing of
rounds, so it can be carried from one graph to another. A stall reports the names of nodes that
are not grounded, all of them, and the undefined names that some node depends on, all of them as
well: a node with an undefined dependency is never taken, so no such dependency is ever struck off.

## Main definitions

* `Graph.Stall.missing` — the undefined names that a stall reports.

## Main results

* `Graph.exists_resolve_iff_grounded` — there is an order when all names are grounded.
* `Graph.exists_resolve_iff` — there is an order when the graph is closed and acyclic.
* `Graph.mem_unresolved_iff` — the unresolved names are those that are not grounded.
* `Graph.mem_missing_iff` — the missing names are the undefined dependencies of all nodes.
-/

namespace Interpolation.Graph

variable {g : Graph} {ordered stuck : List Node} {stall : Stall} {name : String}

/-! ### The names that the rounds take -/

/-- Where every node left over has a dependency that is not in order, no grounded name is left
over. -/
theorem Grounded.mem_ordered (hperm : (ordered ++ stuck).Perm g.nodes)
    (hstuck : ∀ node ∈ stuck, ∃ dependency ∈ node.dependencies,
      dependency ∉ ordered.map Node.name)
    (h : g.Grounded name) : name ∈ ordered.map Node.name := by
  induction h with
  | intro hname _ ih =>
    obtain ⟨node, hmem, rfl⟩ := List.mem_map.mp hname
    rcases List.mem_append.mp (hperm.mem_iff.mpr hmem) with hordered | hleft
    · exact List.mem_map.mpr ⟨node, hordered, rfl⟩
    · obtain ⟨dependency, hdep, hnot⟩ := hstuck node hleft
      exact absurd (ih dependency ⟨node, hmem, rfl, hdep⟩) hnot

/-! ### The parts of a stall -/

/-- The undefined names that a stall reports. -/
def Stall.missing : Stall → NameSet
  | .cycle _ => .ofList []
  | .unknownDependency missing _ => missing

theorem Stall.eq_unknownDependency_of_mem_missing (h : name ∈ stall.missing) :
    stall = .unknownDependency stall.missing stall.unresolved := by
  cases stall with
  | cycle unresolved => exact absurd (NameSet.mem_ofList.mp h) List.not_mem_nil
  | unknownDependency missing unresolved => rfl

theorem unresolved_stall (g : Graph) (stuck : List Node) :
    (g.stall stuck).unresolved = .ofList (stuck.map Node.name) := by
  rw [stall]
  split <;> rfl

theorem mem_missing_stall_iff :
    name ∈ (g.stall stuck).missing ↔ name ∉ g.names ∧ ∃ node ∈ stuck, name ∈ node.dependencies := by
  have hunknown : name ∈ g.unknownNames stuck ↔
      name ∉ g.names ∧ ∃ node ∈ stuck, name ∈ node.dependencies := by
    rw [unknownNames, NameSet.mem_ofList, List.mem_filter, List.mem_flatMap, decide_eq_true_eq,
      and_comm]
  rw [← hunknown, stall]
  split
  · next hempty =>
    have hnot := NameSet.isEmpty_iff.mp hempty name
    exact iff_of_false (fun h => absurd (NameSet.mem_ofList.mp h) List.not_mem_nil) hnot
  · rfl

theorem stall_eq_cycle (h : ∀ name, name ∉ (g.stall stuck).missing) :
    g.stall stuck = .cycle (g.stall stuck).unresolved := by
  have hempty : (g.unknownNames stuck).isEmpty = true := by
    by_contra hne
    rw [stall, if_neg hne] at h
    exact hne (NameSet.isEmpty_iff.mpr h)
  rw [stall, if_pos hempty]
  rfl

/-! ### The stall of a graph -/

/-- A stall comes from nodes that are left over, and the names left over are those of nodes that
are not grounded. -/
theorem exists_stuck_of_resolve (h : g.resolve = .error stall) :
    ∃ stuck, stall = g.stall stuck ∧ stuck ≠ [] ∧ (∀ node ∈ stuck, node ∈ g.nodes) ∧
      ∀ name, name ∈ stuck.map Node.name ↔ name ∈ g.names ∧ ¬ g.Grounded name := by
  rcases g.resolve_cases with ⟨_, hok, -⟩ | ⟨ordered, stuck, herror, hne, hperm, horder, hstuck⟩
  · rw [h] at hok
    cases hok
  · have heq : stall = g.stall stuck := Except.error.inj (h.symm.trans herror)
    have hsub : ∀ node ∈ ordered ++ stuck, node ∈ g.nodes := fun node => hperm.mem_iff.mp
    have hnames : (ordered.map Node.name ++ stuck.map Node.name).Perm g.names := by
      rw [← List.map_append]
      exact hperm.map Node.name
    have hdisjoint := (List.nodup_append'.mp (hnames.nodup_iff.mpr g.nodup_names)).2.2
    have hgrounded : ∀ node ∈ ordered, g.Grounded node.name :=
      horder.grounded fun node hmem => hsub node (List.mem_append_left _ hmem)
    refine ⟨stuck, heq, hne, fun node hmem => hsub node (List.mem_append_right _ hmem), ?_⟩
    intro name
    constructor
    · intro hleft
      refine ⟨hnames.mem_iff.mp (List.mem_append_right _ hleft), fun hname => ?_⟩
      exact hdisjoint (hname.mem_ordered hperm hstuck) hleft
    · rintro ⟨hname, hnot⟩
      refine (List.mem_append.mp (hnames.mem_iff.mpr hname)).resolve_left fun hordered => hnot ?_
      obtain ⟨node, hmem, rfl⟩ := List.mem_map.mp hordered
      exact hgrounded node hmem

/-- The unresolved names are the names of nodes that are not grounded. -/
theorem mem_unresolved_iff (h : g.resolve = .error stall) :
    name ∈ stall.unresolved ↔ name ∈ g.names ∧ ¬ g.Grounded name := by
  obtain ⟨stuck, rfl, -, -, hstuck⟩ := exists_stuck_of_resolve h
  rw [unresolved_stall, NameSet.mem_ofList, hstuck]

/-- The missing names are all names that some node depends on and that no node has. -/
theorem mem_missing_iff (h : g.resolve = .error stall) :
    name ∈ stall.missing ↔ name ∉ g.names ∧ ∃ user, g.DependsOn user name := by
  obtain ⟨stuck, rfl, -, hsub, hstuck⟩ := exists_stuck_of_resolve h
  rw [mem_missing_stall_iff]
  refine and_congr_right fun hname => ⟨?_, ?_⟩
  · rintro ⟨node, hmem, hdep⟩
    exact ⟨node.name, node, hsub node hmem, rfl, hdep⟩
  -- A node that depends on an undefined name is not grounded, so it is among those left over.
  · rintro ⟨user, hdep⟩
    have hnot : ¬ g.Grounded user := fun huser => hname (huser.of_dependsOn hdep).mem_names
    have huser := (hstuck user).mpr ⟨hdep.mem_names, hnot⟩
    obtain ⟨node, hmem, rfl⟩ := List.mem_map.mp huser
    exact ⟨node, hmem, (dependsOn_name_iff (hsub node hmem)).mp hdep⟩

theorem eq_cycle_of_resolve (h : g.resolve = .error stall)
    (hmissing : ∀ name, name ∉ stall.missing) : stall = .cycle stall.unresolved := by
  obtain ⟨stuck, rfl, -⟩ := exists_stuck_of_resolve h
  exact stall_eq_cycle hmissing

/-- A graph has an order exactly when all its names are grounded. -/
theorem exists_resolve_iff_grounded :
    (∃ ordered, g.resolve = .ok ordered) ↔ ∀ name ∈ g.names, g.Grounded name := by
  constructor
  · rintro ⟨ordered, h⟩ name hname
    exact grounded_of_resolve h hname
  · intro hall
    cases h : g.resolve with
    | ok ordered => exact ⟨ordered, rfl⟩
    | error stall =>
      obtain ⟨stuck, -, hne, -, hstuck⟩ := exists_stuck_of_resolve h
      obtain ⟨node, hmem⟩ := List.exists_mem_of_ne_nil stuck hne
      obtain ⟨hname, hnot⟩ := (hstuck node.name).mp (List.mem_map.mpr ⟨node, hmem, rfl⟩)
      exact absurd (hall node.name hname) hnot

/-- A graph has an order exactly when it is closed and acyclic. -/
theorem exists_resolve_iff :
    (∃ ordered, g.resolve = .ok ordered) ↔ g.Closed ∧ g.Acyclic := by
  rw [exists_resolve_iff_grounded, forall_grounded_iff]

end Interpolation.Graph
