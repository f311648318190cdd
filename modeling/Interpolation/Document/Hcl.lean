import Interpolation.Document.Fault
import Interpolation.Document.Hcl.Body
import Interpolation.OrderedMap

/-!
# Documents of attributes

A document in the HCL form has one attribute for each variable, at its top level. The whole text
must have that form before anything else is looked at. Then the structures are taken in order, and
the first that is a block or has a value that would have to be computed is the fault.

## Main definitions

* `Hcl.setStructure` — one structure added to some variables.
* `Hcl.readBody`, `Hcl.read` — the variables of a body, and those of a text.
-/

namespace Interpolation.Hcl

open Document

/-- Add what a structure sets to some variables, or say what is wrong with it. -/
def setStructure (vars : Variables) : Structure → Except Fault Variables
  | .block name => .error (.unexpectedBlock name)
  | .attribute key value =>
    match value.text? with
    | some text => .ok (vars.insert key text)
    | none => .error (.unsupportedValue key)

/-- The variables of a body, or its first fault. -/
def readBody (body : Body) : Except Fault Variables := body.foldlM setStructure ∅

/-- The variables of a document, or its first fault. -/
def read (text : String) : Except Fault Variables :=
  match Body.parse? text with
  | some body => readBody body
  | none => .error .unreadable

end Interpolation.Hcl
