import Interpolation.Expansion.Outcome

/-!
# Events

What can be seen of an expansion while it runs. First every seeded value is reported, then every
variable, both in the order of the variables; then, if there is an order, the order itself and one
event for each of its names. A failed ordering ends the events.

Whoever wants to follow an expansion passes it an observer, a function that takes each event into a
state of its own as it happens.

## Main definitions

* `Event` — one thing that happened; `Event.text` says it in words.
* `Plan.expandObserved` — an expansion that reports each event to an observer.
* `Plan.walkEvents` — the events of settling the names of a list.
* `Plan.events` — the events of a whole expansion.
-/

namespace Interpolation

/-- One thing that happens in an expansion: a value is seeded, a variable is registered, the order
is found, the name at an index of the order has its final value, or a name cannot have one. -/
inductive Event where
  | seeded (name value : String)
  | registered (v : RawVariable)
  | ordered (names : List String)
  | resolved (index : Nat) (name value : String)
  | failed (name : String)
  deriving DecidableEq

/-- A list of dependencies in brackets, each name in double quotes. Dependencies are words, so no
character of theirs is escaped. -/
def Event.dependencyList (names : List String) : String :=
  "[" ++ ", ".intercalate (names.map fun name => "\"" ++ name ++ "\"") ++ "]"

/-- The event in words. -/
def Event.text : Event → String
  | .seeded name value => "seeded '" ++ name ++ "' with '" ++ value ++ "'"
  | .registered v =>
    "registered '" ++ v.name ++ "' with raw value '" ++ v.text ++ "' and deps " ++
      dependencyList v.dependencies
  | .ordered names => "resolve order: " ++ ", ".intercalate names
  | .resolved index name value =>
    "[" ++ toString index ++ "] resolved '" ++ name ++ "' with value '" ++ value ++ "'"
  | .failed name => "unable to resolve '" ++ name ++ "'"

namespace Plan

/-! ### Observed expansions -/

section Observed

variable {σ : Type} (observe : σ → Event → σ)

/-- Settle the names of a list in order, the first of which has the given index, and report to an
observer in the given state. -/
def walkObserved (p : Plan) (state : σ) (index : Nat) (reached : Variables) :
    List String → σ × Except Failure Variables
  | [] => (state, .ok reached)
  | name :: rest =>
    match p.settle reached name with
    | .error cause => (observe state (.failed name), .error ⟨cause, reached⟩)
    | .ok value =>
      p.walkObserved (observe state (.resolved index name value)) (index + 1)
        (reached.insert name value) rest

/-- Expand a plan and report to an observer: the state that it ends in, and the final values. -/
def expandObserved (p : Plan) (state : σ) : σ × Except Failure Variables :=
  let seeded := p.seeded.entries.foldl (fun s entry => observe s (.seeded entry.1 entry.2)) state
  let registered := p.raw.foldl (fun s v => observe s (.registered v)) seeded
  match p.order with
  | .error stall => (registered, .error ⟨.stalled stall, p.seeded⟩)
  | .ok names => p.walkObserved observe (observe registered (.ordered names)) 0 p.seeded names

end Observed

/-! ### The events themselves -/

/-- The events of settling the names of a list, the first of which has the given index. -/
def walkEvents (p : Plan) (index : Nat) (reached : Variables) : List String → List Event
  | [] => []
  | name :: rest =>
    match p.settle reached name with
    | .error _ => [.failed name]
    | .ok value =>
      .resolved index name value :: p.walkEvents (index + 1) (reached.insert name value) rest

/-- The events of a whole expansion. -/
def events (p : Plan) : List Event :=
  p.seeded.entries.map (fun entry => .seeded entry.1 entry.2) ++
    (p.raw.map .registered ++
      match p.order with
      | .error _ => []
      | .ok names => .ordered names :: p.walkEvents 0 p.seeded names)

@[simp] theorem walkEvents_nil (p : Plan) (index : Nat) (reached : Variables) :
    p.walkEvents index reached [] = [] := rfl

theorem walkEvents_cons (p : Plan) (index : Nat) (reached : Variables) (name : String)
    (rest : List String) :
    p.walkEvents index reached (name :: rest) =
      match p.settle reached name with
      | .error _ => [.failed name]
      | .ok value =>
        .resolved index name value :: p.walkEvents (index + 1) (reached.insert name value) rest :=
  rfl

end Plan

end Interpolation
