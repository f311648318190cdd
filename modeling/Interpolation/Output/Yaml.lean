import Interpolation.Output.Listing
import Interpolation.Output.Yaml.Scalar

/-!
# Listings as YAML

A listing is written entry by entry, each as a name, a colon and what is listed with the name: a
text behind the colon, or items on lines of their own. A name of one line that is not too long
stands before its colon. Any other is introduced with a question mark, and its colon begins a
line.

## Main definitions

* `Yaml.isSimpleName` — the names that stand before their colon.
* `Yaml.entry`, `Yaml.write` — an entry, and a whole listing.
-/

namespace Interpolation.Yaml

/-- Whether a name stands before its colon: it has no line break, and at most 128 bytes. -/
def isSimpleName (name : List Char) : Bool :=
  !name.any isBreak && (String.ofList name).utf8ByteSize ≤ 128

/-- Items, one on a line, moved in by a margin. -/
def itemLines (margin : Nat) (items : List String) : List Char :=
  items.flatMap fun item =>
    List.replicate margin ' ' ++ '-' :: ' ' :: scalarLine (margin + 2) item.toList

/-- What follows the colon of a simple name. -/
def afterSimple : Listing.Content → List Char
  | .text text => ' ' :: scalarLine 2 text.toList
  | .items [] => " []\n".toList
  | .items items => '\n' :: itemLines 0 items

/-- What follows the colon that begins a line. The colon takes the place of the first blank. -/
def afterLong : Listing.Content → List Char
  | .text text => ' ' :: scalarLine 2 text.toList
  | .items [] => " []\n".toList
  | .items items => (itemLines 2 items).tail

/-- One entry with its line end. -/
def entry (name : String) (content : Listing.Content) : List Char :=
  if isSimpleName name.toList then scalar 2 name.toList ++ ':' :: afterSimple content
  else '?' :: ' ' :: scalarLine 2 name.toList ++ ':' :: afterLong content

/-- A listing; an empty one is written as an empty structure. -/
def write (listing : Listing) : String :=
  if listing.isEmpty then "\x7b\x7d\n"
  else String.ofList (listing.flatMap fun (name, content) => entry name content)

end Interpolation.Yaml
