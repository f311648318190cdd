import Interpolation.Expansion.Plan

/-!
# Outcomes

The names of a plan are settled one after the other in the order of its graph. A name that has a
value keeps it; any other gets the text of its variable with the values reached so far put in. So
each text is substituted once, and never before its dependencies are final.

An expansion that fails says why, and keeps the values it had reached.

## Main definitions

* `Cause`, `Failure` — why an expansion failed, and the values reached by then.
* `Plan.settle` — the final value of one name, given the values reached so far.
* `Plan.walk` — all names of a list, in order.
* `Plan.expand` — the final values of a plan.
* `expand` — the final values of some variables, escapes preserved.
-/

namespace Interpolation

/-- Why an expansion failed: the names have no order, or a name was due that was no variable or had
a dependency without a value. -/
inductive Cause where
  | stalled (stall : Graph.Stall)
  | unresolvable (name : String)
  | unknownVariable (name : String)
  deriving DecidableEq

/-- The cause in words. -/
def Cause.message : Cause → String
  | .stalled stall => stall.message
  | .unresolvable name => "unable to resolve '" ++ name ++ "'"
  | .unknownVariable name => "unable to find variable '" ++ name ++ "'"

/-- A failed expansion: the cause, and the values that were final by then. -/
structure Failure where
  /-- Why the expansion failed. -/
  cause : Cause
  /-- The values that were final when it failed. -/
  reached : Variables
  deriving DecidableEq

namespace Plan

/-- The final value of a name, given the values reached so far. -/
def settle (p : Plan) (reached : Variables) (name : String) : Except Cause String :=
  match reached.get? name with
  | some value => .ok value
  | none =>
    match p.given.get? name with
    | none => .error (.unknownVariable name)
    | some text =>
      let v : RawVariable := ⟨name, text⟩
      if (v.missing reached).isEmpty then .ok (v.expand reached p.escapes)
      else .error (.unresolvable name)

/-- Settle the names of a list in order, starting from the values reached so far. -/
def walk (p : Plan) (reached : Variables) : List String → Except Failure Variables
  | [] => .ok reached
  | name :: rest =>
    match p.settle reached name with
    | .error cause => .error ⟨cause, reached⟩
    | .ok value => p.walk (reached.insert name value) rest

/-- The final values: first the seeded ones, then the others in the order of the graph. -/
def expand (p : Plan) : Except Failure Variables :=
  match p.order with
  | .error stall => .error ⟨.stalled stall, p.seeded⟩
  | .ok names => p.walk p.seeded names

@[simp] theorem walk_nil (p : Plan) (reached : Variables) : p.walk reached [] = .ok reached := rfl

theorem walk_cons (p : Plan) (reached : Variables) (name : String) (rest : List String) :
    p.walk reached (name :: rest) =
      match p.settle reached name with
      | .error cause => .error ⟨cause, reached⟩
      | .ok value => p.walk (reached.insert name value) rest := rfl

/-- A name that has a value keeps it. -/
theorem settle_of_get? {p : Plan} {reached : Variables} {name value : String}
    (h : reached.get? name = some value) : p.settle reached name = .ok value := by
  simp [settle, h]

end Plan

/-- The final values of some variables, with escapes preserved. -/
def expand (given : Variables) : Except Failure Variables := Plan.expand ⟨given, .preserve⟩

end Interpolation
