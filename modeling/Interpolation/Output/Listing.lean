import Interpolation.Graph.Basic
import Interpolation.OrderedMap

/-!
# Listings

What is written as JSON or YAML: names in order, each with a text or with a list of texts.

## Main definitions

* `Listing` — names with texts or lists of texts.
* `Listing.ofVariables` — every variable with its text.
* `Listing.ofGraph` — every node with its dependencies.
-/

namespace Interpolation

/-- What a name is listed with. -/
inductive Listing.Content where
  | text (text : String)
  | items (items : List String)
  deriving DecidableEq, Repr

/-- Names in order, each with its content. -/
abbrev Listing := List (String × Listing.Content)

namespace Listing

/-- Every variable with its text, in order. -/
def ofVariables (vars : Variables) : Listing :=
  vars.entries.map fun entry => (entry.1, .text entry.2)

/-- Every node with its dependencies, in order. -/
def ofGraph (g : Graph) : Listing :=
  g.nodes.map fun node => (node.name, .items node.dependencies)

end Listing

end Interpolation
