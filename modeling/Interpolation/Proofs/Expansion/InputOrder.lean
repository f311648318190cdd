import Mathlib
import Interpolation.Proofs.Expansion.Walk

/-!
# The order of the input

Variables are given in some order, and an expansion shows it in one place only: seeded values
stand in the order of their variables. The ordering of a graph starts from the nodes sorted by
name, and names are distinct, so no trace of the order of insertion is left in what it comes to.
Two walks over the same names, from values that agree on all names, put the same entries behind
those that they start with.

## Main results

* `Graph.resolve_eq_of_perm` — graphs with the same nodes have the same order or the same stall.
* `Plan.keys_seeded` — seeded names stand in the order of the variables.
* `Plan.exists_tail_of_walk` — two walks side by side.
* `Plan.expand_perm` — expansions of the same variables in different orders.
-/

namespace Interpolation

/-! ### Graphs with the same nodes -/

namespace Graph

variable {g h : Graph}

/-- Sorted by name, the same nodes stand in the same order. -/
theorem byName_eq_of_perm (hperm : g.nodes.Perm h.nodes) : g.byName = h.byName := by
  have hperm' : g.byName.Perm h.byName :=
    g.perm_byName.trans (hperm.trans h.perm_byName.symm)
  refine hperm'.eq_of_pairwise ?_ g.pairwise_byName h.pairwise_byName
  intro a b _ _ hab hba
  exact absurd hba (String.lt_asymm hab)

theorem stall_eq_of_perm (hperm : g.nodes.Perm h.nodes) (stuck : List Node) :
    g.stall stuck = h.stall stuck := by
  have hnames : ∀ name, name ∈ g.names ↔ name ∈ h.names := fun _ =>
    (hperm.map Node.name).mem_iff
  have hunknown : g.unknownNames stuck = h.unknownNames stuck := by
    simp only [unknownNames, hnames]
  rw [stall, stall, hunknown]

/-- Graphs with the same nodes have the same order, or stall in the same way. -/
theorem resolve_eq_of_perm (hperm : g.nodes.Perm h.nodes) : g.resolve = h.resolve := by
  rw [resolve, resolve, byName_eq_of_perm hperm]
  split
  · rfl
  · rw [stall_eq_of_perm hperm]

end Graph

namespace Plan

variable {p q : Plan} {reached again values : Variables} {names : List String} {name : String}

theorem order_eq_of_perm (hperm : p.given.entries.Perm q.given.entries) : p.order = q.order := by
  have hnodes : p.graph.nodes.Perm q.graph.nodes := by
    rw [nodes_graph, nodes_graph]
    exact hperm.map _
  rw [order, order, Graph.resolve_eq_of_perm hnodes]

/-! ### Seeded values -/

theorem perm_seeded (hescapes : q.escapes = p.escapes)
    (hperm : p.given.entries.Perm q.given.entries) :
    p.seeded.entries.Perm q.seeded.entries := by
  rw [entries_seeded, entries_seeded, hescapes]
  exact (hperm.filter _).map _

/-- The seeded names, in the order of the variables. -/
theorem keys_seeded (p : Plan) :
    p.seeded.keys = p.given.keys.filter fun name => decide (name ∈ p.seeded.keys) := by
  have hfilter : (p.given.entries.filter fun entry => Template.isExpanded entry.2) =
      p.given.entries.filter fun entry => decide (entry.1 ∈ p.seeded.keys) := by
    refine List.filter_congr fun entry hmem => ?_
    have hget : p.given.get? entry.1 = some entry.2 := OrderedMap.get?_eq_some_iff.mpr hmem
    rw [Bool.eq_iff_iff, decide_eq_true_eq, mem_keys_seeded_iff, hget]
    simp
  calc p.seeded.keys
      = (p.given.entries.filter fun entry => Template.isExpanded entry.2).map Prod.fst :=
        keys_seeded_eq_plainKeys p
    _ = (p.given.entries.filter fun entry => decide (entry.1 ∈ p.seeded.keys)).map Prod.fst := by
        rw [hfilter]
    _ = p.given.keys.filter fun name => decide (name ∈ p.seeded.keys) :=
        (List.filter_map (p := fun name => decide (name ∈ p.seeded.keys))).symm

/-! ### Two walks side by side -/

section Walks

variable (hescapes : q.escapes = p.escapes)
  (hgiven : ∀ name, q.given.get? name = p.given.get? name)

include hescapes hgiven in
/-- A name gets the same value from values that agree. -/
theorem settle_of_agree (hagree : ∀ name, again.get? name = reached.get? name) {value : String}
    (hsettle : p.settle reached name = .ok value) : q.settle again name = .ok value := by
  have hkeys : ∀ name, name ∈ again.keys ↔ name ∈ reached.keys := fun name => by
    rw [← OrderedMap.isSome_get?_iff, ← OrderedMap.isSome_get?_iff, hagree]
  rw [settle_eq_ok_iff] at hsettle ⊢
  rcases hsettle with hold | ⟨hnew, text, hget, hcovers, hvalue⟩
  · exact Or.inl ((hagree name).trans hold)
  · have hsubst : Template.substitute text again q.escapes =
        Template.substitute text reached p.escapes := by
      rw [hescapes]
      exact Template.substitute_congr fun other _ => hagree other
    exact Or.inr ⟨mt (hkeys name).mp hnew, text, (hgiven name).trans hget,
      fun other hother => (hkeys other).mpr (hcovers other hother), hsubst.trans hvalue⟩

/-- A step puts the same entries, one or none, behind values that agree. -/
theorem exists_entry_of_settle (hagree : ∀ name, again.get? name = reached.get? name)
    {value : String} (hsettle : p.settle reached name = .ok value) :
    ∃ entry, (reached.insert name value).entries = reached.entries ++ entry ∧
      (again.insert name value).entries = again.entries ++ entry := by
  rcases settle_eq_ok_iff.mp hsettle with hold | ⟨hnew, -⟩
  · refine ⟨[], ?_, ?_⟩
    · rw [OrderedMap.insert_of_get? hold, List.append_nil]
    · rw [OrderedMap.insert_of_get? ((hagree name).trans hold), List.append_nil]
  · have hnew' : name ∉ again.keys := by
      rwa [← OrderedMap.get?_eq_none_iff, hagree, OrderedMap.get?_eq_none_iff]
    exact ⟨[(name, value)], OrderedMap.entries_insert_of_notMem hnew value,
      OrderedMap.entries_insert_of_notMem hnew' value⟩

include hescapes hgiven in
/-- Two walks over the same names, from values that agree, come to values that agree, and put the
same entries behind those that they start with. -/
theorem exists_tail_of_walk (hagree : ∀ name, again.get? name = reached.get? name)
    (hwalk : p.walk reached names = .ok values) :
    ∃ tail final, q.walk again names = .ok final ∧ values.entries = reached.entries ++ tail ∧
      final.entries = again.entries ++ tail ∧ ∀ name, final.get? name = values.get? name := by
  induction names generalizing reached again with
  | nil =>
    obtain rfl := Except.ok.inj hwalk
    exact ⟨[], again, rfl, (List.append_nil _).symm, (List.append_nil _).symm, hagree⟩
  | cons name rest ih =>
    obtain ⟨value, hsettle, hrest⟩ := walk_cons_eq_ok_iff.mp hwalk
    have hsettle' := settle_of_agree hescapes hgiven hagree hsettle
    have hinsert : ∀ other,
        (again.insert name value).get? other = (reached.insert name value).get? other := by
      intro other
      rw [OrderedMap.get?_insert, OrderedMap.get?_insert, hagree]
    obtain ⟨entry, hentry, hentry'⟩ := exists_entry_of_settle hagree hsettle
    obtain ⟨tail, final, hfinal, htail, htail', hvalues⟩ := ih hinsert hrest
    refine ⟨entry ++ tail, final, walk_cons_eq_ok_iff.mpr ⟨value, hsettle', hfinal⟩, ?_, ?_,
      hvalues⟩
    · rw [htail, hentry, List.append_assoc]
    · rw [htail', hentry', List.append_assoc]

end Walks

/-! ### The same variables in another order -/

/-- **The order of the input does not matter.** The same variables in two orders have the same
order of expansion, or the same stall. Their expansions both succeed or both fail. On success they
give each name the same value, and behind the seeded entries they have the same entries in the same
order; on failure they report the same cause and have reached the same entries. The seeded entries
are the same in both, and only they stand in the order of the input. -/
theorem expand_perm {given other : Variables} (hperm : given.entries.Perm other.entries)
    (mode : EscapeMode) :
    order ⟨other, mode⟩ = order ⟨given, mode⟩ ∧
    (∀ values, expand ⟨given, mode⟩ = .ok values →
      ∃ tail final, expand ⟨other, mode⟩ = .ok final ∧
        values.entries = (seeded ⟨given, mode⟩).entries ++ tail ∧
        final.entries = (seeded ⟨other, mode⟩).entries ++ tail ∧
        ∀ name, final.get? name = values.get? name) ∧
    (∀ failure, expand ⟨given, mode⟩ = .error failure →
      ∃ again, expand ⟨other, mode⟩ = .error again ∧ again.cause = failure.cause ∧
        failure.reached.entries.Perm again.reached.entries) ∧
    (seeded ⟨given, mode⟩).entries.Perm (seeded ⟨other, mode⟩).entries ∧
    (seeded ⟨other, mode⟩).keys =
      other.keys.filter fun name => decide (name ∈ (seeded ⟨given, mode⟩).keys) := by
  have horders : order ⟨other, mode⟩ = order ⟨given, mode⟩ := (order_eq_of_perm hperm).symm
  have hseeded : (seeded ⟨given, mode⟩).entries.Perm (seeded ⟨other, mode⟩).entries :=
    perm_seeded rfl hperm
  have hgiven : ∀ name, other.get? name = given.get? name := fun name =>
    (OrderedMap.get?_eq_of_perm hperm name).symm
  refine ⟨horders, fun values hvalues => ?_, fun failure hfailure => ?_, hseeded, ?_⟩
  · obtain ⟨names, horder, hwalk⟩ := expand_eq_ok_iff.mp hvalues
    have hagree : ∀ name, (seeded ⟨other, mode⟩).get? name = (seeded ⟨given, mode⟩).get? name :=
      fun name => (OrderedMap.get?_eq_of_perm hseeded name).symm
    obtain ⟨tail, final, hfinal, htail⟩ :=
      exists_tail_of_walk (p := ⟨given, mode⟩) (q := ⟨other, mode⟩) rfl hgiven hagree hwalk
    exact ⟨tail, final, expand_eq_ok_iff.mpr ⟨names, horders.trans horder, hfinal⟩, htail⟩
  · obtain ⟨stall, horder, rfl⟩ := expand_eq_error_iff.mp hfailure
    exact ⟨_, expand_eq_error_iff.mpr ⟨stall, horders.trans horder, rfl⟩, rfl, hseeded⟩
  · have hmem : ∀ name, name ∈ (seeded ⟨other, mode⟩).keys ↔ name ∈ (seeded ⟨given, mode⟩).keys :=
      fun name => (hseeded.map Prod.fst).mem_iff.symm
    rw [keys_seeded]
    simp only [hmem]

/-- Two seeded values that change places, before a chain that does not. -/
theorem expand_perm_chain :
    let given : Variables :=
      .ofList [("all", "$b$a"), ("y", "$$"), ("b", "$a"), ("x", "1"), ("a", "$x")]
    let other : Variables :=
      .ofList [("x", "1"), ("a", "$x"), ("all", "$b$a"), ("b", "$a"), ("y", "$$")]
    let values : Variables :=
      .ofList [("y", "$"), ("x", "1"), ("a", "1"), ("b", "1"), ("all", "11")]
    given.entries.Perm other.entries ∧ expand ⟨given, .collapse⟩ = .ok values ∧
      order ⟨other, .collapse⟩ = order ⟨given, .collapse⟩ ∧
      ∃ tail final, expand ⟨other, .collapse⟩ = .ok final ∧
        values.entries = [("y", "$"), ("x", "1")] ++ tail ∧
        final.entries = [("x", "1"), ("y", "$")] ++ tail ∧
        ∀ name, final.get? name = values.get? name := by
  intro given other values
  have hperm : given.entries.Perm other.entries := by decide
  have hvalues : expand ⟨given, .collapse⟩ = .ok values := by cbv
  have hseeded : (seeded ⟨given, .collapse⟩).entries = [("y", "$"), ("x", "1")] := by cbv
  have hseeded' : (seeded ⟨other, .collapse⟩).entries = [("x", "1"), ("y", "$")] := by cbv
  obtain ⟨horder, hsuccess, -⟩ := expand_perm hperm .collapse
  have htail := hsuccess values hvalues
  rw [hseeded, hseeded'] at htail
  exact ⟨hperm, hvalues, horder, htail⟩

end Plan

end Interpolation
