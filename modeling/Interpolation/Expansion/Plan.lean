import Interpolation.Graph.Order
import Interpolation.Template.RawVariable

/-!
# Plans

A plan is what an expansion starts from: the variables as given and the escape mode. It already
fixes everything that happens before the first reference is replaced. A variable whose text refers
to no name is *seeded*: its value is final at once. All variables together form a graph, whose
order is the order of the expansion.

## Main definitions

* `Plan` — the variables and the escape mode.
* `Plan.raw` — the variables, in order, as raw variables.
* `Plan.seed`, `Plan.seeded` — the values that need no substitution.
* `Plan.graph`, `Plan.order` — who waits for whom, and the names in an order that respects it.
-/

namespace Interpolation

/-- The variables to expand and what becomes of their escapes. -/
structure Plan where
  /-- The variables as given. -/
  given : Variables
  /-- What becomes of escapes. -/
  escapes : EscapeMode := .preserve
  deriving DecidableEq

namespace Plan

/-- The variables in order, as raw variables. -/
def raw (p : Plan) : List RawVariable :=
  p.given.entries.map fun entry => ⟨entry.1, entry.2⟩

/-- Seed a variable whose text refers to no name: it is written with the values seeded so far, and
what it is written as is final. Any other variable is passed over. -/
def seed (p : Plan) (reached : Variables) (v : RawVariable) : Variables :=
  if v.isExpanded then reached.insert v.name (v.expand reached p.escapes) else reached

/-- The values that need no substitution, in the order of the variables. -/
def seeded (p : Plan) : Variables := p.raw.foldl p.seed ∅

/-- The node of a variable: what is seeded waits for nothing. -/
def node (p : Plan) (v : RawVariable) : Graph.Node :=
  match p.seeded.contains v.name with
  | true => .leaf v.name
  | false => ⟨v.name, v.dependencies⟩

/-- One node for each variable, in order. -/
def graph (p : Plan) : Graph := .ofNodes (p.raw.map p.node)

/-- The names in the order in which they are expanded. -/
def order (p : Plan) : Except Graph.Stall (List String) :=
  p.graph.resolve.map fun nodes => nodes.map Graph.Node.name

end Plan

end Interpolation
