import Interpolation.Environment
import Interpolation.Expansion.Event
import Interpolation.Sources.Basic

/-!
# Layers of variables

Documents are put over one another as they are added, and an environment is put below what they
come to in the end. Both are the same operation on maps, in which later values win and names keep
the place of their first layer. Since it does not matter which layers are put together first, an
environment below the documents is the same as a first document.

## Main definitions

* `Variables.ofLayers` — layers put together, the first at the bottom.
* `Variables.IsMerge` — what variables are that layers come to, name by name.
* `Sources.addAll` — sources with documents added in order.

## Main results

* `Variables.IsMerge.unique`, `Variables.isMerge_ofLayers` — layers come to these variables only.
* `Sources.toVariables_addAll` — documents are layers.
* `layered_toVariables` — an environment below documents is a first document.
-/

namespace Interpolation

/-! ### Layers put together -/

namespace Variables

variable {vars other : Variables} {layers : List Variables}

/-- Layers put together one over the other, the first at the bottom. -/
def ofLayers (layers : List Variables) : Variables := layers.foldl OrderedMap.override ∅

/-- What layers come to: a name stands where it first occurs, and its value is that of the last
layer that has one. -/
structure IsMerge (layers : List Variables) (vars : Variables) : Prop where
  keys_eq : vars.keys = (layers.flatMap OrderedMap.keys).eraseDups
  get?_eq (name : String) : vars.get? name = layers.reverse.findSome? fun layer => layer.get? name

/-- Layers come to the same variables always. -/
theorem IsMerge.unique (h : IsMerge layers vars) (hother : IsMerge layers other) : vars = other :=
  OrderedMap.ext_keys_get? (h.keys_eq.trans hother.keys_eq.symm) fun name _ =>
    (h.get?_eq name).trans (hother.get?_eq name).symm

/-- Layers over some variables are all their entries, inserted one after the other. -/
theorem foldl_override_eq_insertAll (vars : Variables) (layers : List Variables) :
    layers.foldl OrderedMap.override vars = vars.insertAll (layers.flatMap OrderedMap.entries) := by
  induction layers generalizing vars with
  | nil => rfl
  | cons layer rest ih =>
    rw [List.foldl_cons, ih, List.flatMap_cons, OrderedMap.insertAll_append, OrderedMap.override]

theorem get?_foldl_override (vars : Variables) (layers : List Variables) (name : String) :
    (layers.foldl OrderedMap.override vars).get? name =
      (layers.reverse.findSome? fun layer => layer.get? name).or (vars.get? name) := by
  induction layers generalizing vars with
  | nil => rfl
  | cons layer rest ih =>
    rw [List.foldl_cons, ih, OrderedMap.get?_override, List.reverse_cons, List.findSome?_append,
      List.findSome?_singleton, Option.or_assoc]

theorem isMerge_ofLayers (layers : List Variables) : IsMerge layers (ofLayers layers) where
  keys_eq := by
    rw [ofLayers, foldl_override_eq_insertAll]
    refine (OrderedMap.keys_ofList _).trans ?_
    rw [List.map_flatMap]
    rfl
  get?_eq name := by
    rw [ofLayers, get?_foldl_override, OrderedMap.get?_empty, Option.or_none]

/-- A name is one of what layers come to when it is one of some layer. -/
theorem mem_keys_ofLayers_iff {name : String} :
    name ∈ (ofLayers layers).keys ↔ ∃ layer ∈ layers, name ∈ layer.keys := by
  rw [(isMerge_ofLayers layers).keys_eq, List.mem_eraseDups, List.mem_flatMap]

/-- Layers over two others are layers over the upper one, and all of that over the lower one. -/
theorem foldl_override_override (lower upper : Variables) (layers : List Variables) :
    layers.foldl OrderedMap.override (lower.override upper) =
      lower.override (layers.foldl OrderedMap.override upper) := by
  induction layers generalizing upper with
  | nil => rfl
  | cons layer rest ih => rw [List.foldl_cons, OrderedMap.override_assoc, ih, List.foldl_cons]

/-- Layers over some variables are what they come to by themselves, over these variables. -/
theorem foldl_override (vars : Variables) (layers : List Variables) :
    layers.foldl OrderedMap.override vars = vars.override (ofLayers layers) :=
  foldl_override_override vars ∅ layers

theorem ofLayers_cons (layer : Variables) (rest : List Variables) :
    ofLayers (layer :: rest) = layer.override (ofLayers rest) := by
  rw [ofLayers, List.foldl_cons, OrderedMap.empty_override, foldl_override]

theorem ofLayers_append (first second : List Variables) :
    ofLayers (first ++ second) = (ofLayers first).override (ofLayers second) := by
  rw [ofLayers, List.foldl_append, foldl_override]
  rfl

@[simp] theorem ofLayers_singleton (layer : Variables) : ofLayers [layer] = layer :=
  OrderedMap.empty_override layer

/-- Entries are layers of one entry each. -/
theorem ofLayers_map_ofList (entries : List (String × String)) :
    ofLayers (entries.map fun entry => OrderedMap.ofList [entry]) = OrderedMap.ofList entries := by
  rw [ofLayers, foldl_override_eq_insertAll, List.flatMap_map]
  exact congrArg _ (List.flatMap_singleton' entries)

end Variables

/-! ### Documents as layers -/

namespace Sources

/-- Add documents in order. -/
def addAll (s : Sources) (documents : List Source) : Sources := documents.foldl add s

theorem toVariables_ofVariables (content : Variables) :
    (ofVariables content).toVariables = content :=
  (toVariables_add ∅ _).trans (OrderedMap.empty_override content)

/-- Documents are layers over the variables so far. -/
theorem toVariables_addAll (s : Sources) (documents : List Source) :
    (s.addAll documents).toVariables =
      s.toVariables.override (Variables.ofLayers (documents.map Source.content)) := by
  rw [← Variables.foldl_override, addAll]
  induction documents generalizing s with
  | nil => rfl
  | cons document rest ih =>
    rw [List.foldl_cons, ih, toVariables_add, List.map_cons, List.foldl_cons]

end Sources

/-- **An environment below documents is a first document.** The variables of documents, layered over
those of an environment, are the variables of the same documents behind one that holds the
environment, with the same names in the same order. So the two ways have the same plan, and their
expansions show the same graph, the same order and the same events and come to the same values. -/
theorem layered_toVariables (environment : Variables) (documents : List Source) :
    let upper : Variables := (Sources.addAll ∅ documents).toVariables
    let behind : Variables := ((Sources.ofVariables environment).addAll documents).toVariables
    layered environment upper = behind ∧
    ∀ escapes,
      let p : Plan := .withEnvironment environment upper escapes
      let q : Plan := ⟨behind, escapes⟩
      p.graph = q.graph ∧ p.order = q.order ∧ p.events = q.events ∧ p.expand = q.expand ∧
        ∀ {σ : Type} (observe : σ → Event → σ) (state : σ),
          p.expandObserved observe state = q.expandObserved observe state := by
  intro upper behind
  have hupper : upper = Variables.ofLayers (documents.map Source.content) :=
    (Sources.toVariables_addAll ∅ documents).trans (OrderedMap.empty_override _)
  have hbehind : behind = environment.override upper := by
    change ((Sources.ofVariables environment).addAll documents).toVariables = _
    rw [Sources.toVariables_addAll, Sources.toVariables_ofVariables, hupper]
  refine ⟨hbehind.symm, fun escapes => ?_⟩
  have hplan : Plan.withEnvironment environment upper escapes = ⟨behind, escapes⟩ := by
    rw [Plan.withEnvironment, layered, hbehind]
  intro p q
  have hsame : p = q := hplan
  rw [hsame]
  exact ⟨rfl, rfl, rfl, rfl, fun observe state => rfl⟩

end Interpolation
