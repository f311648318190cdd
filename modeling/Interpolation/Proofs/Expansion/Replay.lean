import Mathlib
import Interpolation.Proofs.Expansion.Walk

/-!
# What the events of an expansion tell

The events say everything that an expansion does. An observer learns of each of them and has no
influence on the outcome. Before the order come one event for each seeded value and one for each
variable; behind the order comes one event for each of its names, with the value that the name has
in the end. A seeded value is told twice, since its name is in the order too; the second time
changes nothing. So whoever puts the values of the events into a map, one after the other, holds
what the expansion gives, or what it had reached when it failed.

## Main definitions

* `Event.told?`, `Variables.replay` — the value that an event tells of, and those of many events.
* `Plan.opening` — the events before the order.

## Main results

* `Plan.expandObserved_eq` — an observer sees the events and does not change the outcome.
* `Plan.getElem?_walkEvents` — the event at each place of a walk.
* `Plan.insertAll_walkEvents` — the events of a walk put into a map lead where the walk leads.
* `Plan.events_replay_expand` — the events of an expansion, and what they amount to.
-/

namespace Interpolation

/-- The name and the value that an event tells of, unless it tells of none. -/
def Event.told? : Event → Option (String × String)
  | .seeded name value => some (name, value)
  | .resolved _ name value => some (name, value)
  | .registered _ | .ordered _ | .failed _ => none

/-- The values that events tell of, put into a map one after the other. -/
def Variables.replay (events : List Event) : Variables := .ofList (events.filterMap Event.told?)

theorem Variables.replay_append (first second : List Event) :
    replay (first ++ second) = (replay first).insertAll (second.filterMap Event.told?) := by
  rw [replay, List.filterMap_append, OrderedMap.ofList, OrderedMap.insertAll_append]
  rfl

namespace Plan

variable {p : Plan} {reached values : Variables} {names : List String}

/-- What is told before the order: the final values of the texts without references, and the
variables, both in the order in which they are given. -/
def opening (p : Plan) : List Event :=
  ((p.given.entries.filter fun entry => Template.isExpanded entry.2).map fun entry =>
      .seeded entry.1 (Template.substitute entry.2 ∅ p.escapes)) ++
    p.given.entries.map fun entry => .registered ⟨entry.1, entry.2⟩

/-! ### Observers -/

section Observed

variable {σ : Type} (observe : σ → Event → σ)

theorem walkObserved_eq (p : Plan) (state : σ) (index : Nat) (reached : Variables)
    (names : List String) :
    p.walkObserved observe state index reached names =
      ((p.walkEvents index reached names).foldl observe state, p.walk reached names) := by
  induction names generalizing state index reached with
  | nil => rfl
  | cons name rest ih =>
    rw [walkObserved, walkEvents_cons, walk_cons]
    cases p.settle reached name with
    | error cause => rfl
    | ok value => exact ih _ _ _

/-- An observer takes in the events in order, and the outcome is that without an observer. -/
theorem expandObserved_eq (p : Plan) (state : σ) :
    p.expandObserved observe state = (p.events.foldl observe state, p.expand) := by
  rw [expandObserved, events, expand, List.foldl_append, List.foldl_append, List.foldl_map,
    List.foldl_map]
  cases p.order with
  | error stall => rfl
  | ok names => exact walkObserved_eq observe p _ 0 p.seeded names

end Observed

/-! ### The events of a walk -/

/-- A value that is reached is kept to the end of a walk. -/
theorem get?_of_walk (hwalk : p.walk reached names = .ok values) {name value : String}
    (h : reached.get? name = some value) : values.get? name = some value := by
  induction names generalizing reached with
  | nil => rwa [← Except.ok.inj hwalk]
  | cons first rest ih =>
    obtain ⟨next, hsettle, hrest⟩ := walk_cons_eq_ok_iff.mp hwalk
    refine ih hrest ?_
    rw [OrderedMap.get?_insert]
    split
    · next heq =>
      subst heq
      exact congrArg some (Except.ok.inj (hsettle.symm.trans (settle_of_get? h)))
    · exact h

theorem length_walkEvents (index : Nat) (hwalk : p.walk reached names = .ok values) :
    (p.walkEvents index reached names).length = names.length := by
  induction names generalizing reached index with
  | nil => rfl
  | cons name rest ih =>
    obtain ⟨value, hrest, hevents⟩ := exists_walkEvents_cons index hwalk
    rw [hevents, List.length_cons, List.length_cons, ih _ hrest]

/-- At the place of a name, the events of a walk tell of the value that the name has in the end. -/
theorem getElem?_walkEvents (index : Nat) (hwalk : p.walk reached names = .ok values)
    {place : Nat} {name : String} (hname : names[place]? = some name) :
    ∃ value, values.get? name = some value ∧
      (p.walkEvents index reached names)[place]? = some (.resolved (index + place) name value) := by
  induction names generalizing reached index place with
  | nil => cases hname
  | cons first rest ih =>
    obtain ⟨value, hrest, hevents⟩ := exists_walkEvents_cons index hwalk
    rw [hevents]
    cases place with
    | zero =>
      obtain rfl := Option.some.inj hname
      refine ⟨value, get?_of_walk hrest ?_, rfl⟩
      rw [OrderedMap.get?_insert, if_pos rfl]
    | succ place =>
      obtain ⟨final, hfinal, hevent⟩ := ih (index + 1) hrest hname
      refine ⟨final, hfinal, ?_⟩
      rw [List.getElem?_cons_succ, hevent, Nat.add_right_comm, Nat.add_assoc]

/-- The values that a walk tells of, put behind those that it starts from, are those that it
leads to. -/
theorem insertAll_walkEvents (index : Nat) (hwalk : p.walk reached names = .ok values) :
    reached.insertAll ((p.walkEvents index reached names).filterMap Event.told?) = values := by
  induction names generalizing reached index with
  | nil => exact Except.ok.inj hwalk
  | cons name rest ih =>
    obtain ⟨value, hrest, hevents⟩ := exists_walkEvents_cons index hwalk
    rw [hevents]
    exact ih _ hrest

/-! ### The events of an expansion -/

theorem events_eq (p : Plan) :
    p.events = p.opening ++
      match p.order with
      | .error _ => []
      | .ok names => .ordered names :: p.walkEvents 0 p.seeded names := by
  rw [events, opening, entries_seeded, raw, List.map_map, List.map_map, List.append_assoc]
  rfl

theorem filterMap_opening (p : Plan) : p.opening.filterMap Event.told? = p.seeded.entries := by
  have hregistered : (p.given.entries.map fun entry =>
      Event.registered ⟨entry.1, entry.2⟩).filterMap Event.told? = [] := by
    rw [List.filterMap_map, List.filterMap_eq_nil_iff]
    exact fun _ _ => rfl
  rw [opening, List.filterMap_append, hregistered, List.append_nil, entries_seeded,
    List.filterMap_map]
  exact congrFun List.filterMap_eq_map _

/-- What is told before the order amounts to the seeded values. -/
theorem replay_opening (p : Plan) : Variables.replay p.opening = p.seeded := by
  rw [Variables.replay, filterMap_opening, OrderedMap.ofList_entries]

/-- A value that is told before the order is a seeded value. -/
theorem get?_seeded_of_mem_opening {name value : String}
    (h : Event.seeded name value ∈ p.opening) : p.seeded.get? name = some value := by
  rw [OrderedMap.get?_eq_some_iff, ← filterMap_opening, List.mem_filterMap]
  exact ⟨_, h, rfl⟩

theorem replay_events_of_walk (horder : p.order = .ok names)
    (hwalk : p.walk p.seeded names = .ok values) : Variables.replay p.events = values := by
  have hrest : (Event.ordered names :: p.walkEvents 0 p.seeded names).filterMap Event.told? =
      (p.walkEvents 0 p.seeded names).filterMap Event.told? :=
    List.filterMap_cons_none rfl
  rw [events_eq, horder, Variables.replay_append, hrest, replay_opening]
  exact insertAll_walkEvents 0 hwalk

/-- **The events tell the whole expansion.** An observer takes in the events in order, and the
outcome is the same as without an observer. The events are those of the opening and then, if and
only if the names have an order, the order and one event for each place of it, with the place, the
name that stands there and its final value. Put into a map one after the other, the values that are
told of give the final values in their order, or those reached when there is no order. -/
theorem events_replay_expand (p : Plan) :
    (∀ {σ : Type} (observe : σ → Event → σ) (state : σ),
      p.expandObserved observe state = (p.events.foldl observe state, p.expand)) ∧
    (∀ values, p.expand = .ok values →
      (∃ (names : List String) (resolved : List Event), p.order = .ok names ∧
        p.events = p.opening ++ .ordered names :: resolved ∧
        resolved.length = names.length ∧
        ∀ place name, names[place]? = some name → ∃ value, values.get? name = some value ∧
          resolved[place]? = some (Event.resolved place name value)) ∧
      (∀ name value, Event.seeded name value ∈ p.opening → values.get? name = some value) ∧
      Variables.replay p.events = values) ∧
    ∀ failure, p.expand = .error failure →
      (∃ stall, p.order = .error stall) ∧ p.events = p.opening ∧
      (∀ name value, Event.seeded name value ∈ p.opening →
        failure.reached.get? name = some value) ∧
      Variables.replay p.events = failure.reached := by
  refine ⟨fun observe state => expandObserved_eq observe p state, fun values hvalues => ?_,
    fun failure hfailure => ?_⟩
  · obtain ⟨names, horder, hwalk⟩ := expand_eq_ok_iff.mp hvalues
    refine ⟨⟨names, p.walkEvents 0 p.seeded names, horder, ?_, length_walkEvents 0 hwalk, ?_⟩, ?_,
      replay_events_of_walk horder hwalk⟩
    · rw [events_eq, horder]
    · intro place name hname
      simpa using getElem?_walkEvents 0 hwalk hname
    · intro name value hmem
      exact get?_of_walk hwalk (get?_seeded_of_mem_opening hmem)
  · obtain ⟨stall, horder, rfl⟩ := expand_eq_error_iff.mp hfailure
    have hevents : p.events = p.opening := by rw [events_eq, horder, List.append_nil]
    refine ⟨⟨stall, horder⟩, hevents, fun name value => get?_seeded_of_mem_opening, ?_⟩
    rw [hevents]
    exact replay_opening p

/-- A value that is told twice, before one that refers to it; and two names that wait for each
other, beside a value that is reached. -/
theorem events_replay_expand_greeting :
    let p : Plan := ⟨.ofList [("b", "$a!"), ("a", "hi")], .preserve⟩
    let values : Variables := .ofList [("a", "hi"), ("b", "hi!")]
    let q : Plan := ⟨.ofList [("x", "$y"), ("c", "$$"), ("y", "$x")], .collapse⟩
    let failure : Failure := ⟨.stalled (.cycle (.ofList ["x", "y"])), .ofList [("c", "$")]⟩
    p.expand = .ok values ∧
    p.events = [.seeded "a" "hi", .registered ⟨"b", "$a!"⟩, .registered ⟨"a", "hi"⟩,
      .ordered ["a", "b"], .resolved 0 "a" "hi", .resolved 1 "b" "hi!"] ∧
    Variables.replay p.events = values ∧
    q.expand = .error failure ∧
    q.events = [.seeded "c" "$", .registered ⟨"x", "$y"⟩, .registered ⟨"c", "$$"⟩,
      .registered ⟨"y", "$x"⟩] ∧
    Variables.replay q.events = failure.reached := by
  intro p values q failure
  have hvalues : p.expand = .ok values := by cbv
  have hfailure : q.expand = .error failure := by cbv
  have hevents : p.events = [.seeded "a" "hi", .registered ⟨"b", "$a!"⟩, .registered ⟨"a", "hi"⟩,
      .ordered ["a", "b"], .resolved 0 "a" "hi", .resolved 1 "b" "hi!"] := by cbv
  have hopening : q.opening = [.seeded "c" "$", .registered ⟨"x", "$y"⟩, .registered ⟨"c", "$$"⟩,
      .registered ⟨"y", "$x"⟩] := by cbv
  obtain ⟨-, hsuccess, -⟩ := events_replay_expand p
  obtain ⟨-, -, hstall⟩ := events_replay_expand q
  obtain ⟨-, hqevents, -, hreplay⟩ := hstall failure hfailure
  exact ⟨hvalues, hevents, (hsuccess values hvalues).2.2, hfailure, hqevents.trans hopening,
    hreplay⟩

end Plan

end Interpolation
