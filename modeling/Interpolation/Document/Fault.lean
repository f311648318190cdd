/-!
# Faults of documents

What can be wrong with the text of a document of variables.

## Main definitions

* `Document.Fault` — the kinds of fault; `Document.Fault.message` says them in words.
-/

namespace Interpolation.Document

/-- What is wrong with the text of a document: the line with a number, counted from one, is no
assignment; or the text cannot be read at all, a key has a value that is neither text nor number nor
truth value, or a block stands where only attributes may. -/
inductive Fault where
  | malformedLine (line : Nat)
  | unreadable
  | unsupportedValue (key : String)
  | unexpectedBlock (name : String)
  deriving DecidableEq, Repr

/-- The fault in words. -/
def Fault.message : Fault → String
  | .malformedLine line => "Malformed line " ++ toString line ++ ", expected KEY=VALUE"
  | .unreadable => "Unable to parse hcl file"
  | .unsupportedValue key =>
    "Unsupported value for '" ++ key ++ "', expected a string, number or bool"
  | .unexpectedBlock name =>
    "Unexpected block '" ++ name ++ "', only attributes are allowed"

end Interpolation.Document
