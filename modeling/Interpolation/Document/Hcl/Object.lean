import Interpolation.Document.Hcl.Token

/-!
# Objects

An object is written as its entries one after another. An entry takes the place of the first earlier
one whose key says the same, and otherwise stands after all of them.

## Main definitions

* `Entry.insert`, `Entry.ofList` — put an entry among others, and put them all together.
-/

namespace Interpolation.Hcl.Entry

/-- Put an entry among others: in the place of the first with its key, or after them all. -/
def insert (entry : Entry) : List Entry → List Entry
  | [] => [entry]
  | other :: others =>
    if Form.alike other.key entry.key then entry :: others else other :: insert entry others

/-- The entries of an object from those that are read, in their order. -/
def ofList (entries : List Entry) : List Entry :=
  entries.foldl (fun others entry => insert entry others) []

end Interpolation.Hcl.Entry
