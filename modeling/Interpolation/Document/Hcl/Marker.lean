/-!
# Markers

A dollar sign or a percent sign before an opening brace is a marker: in a text it begins a part
that must be computed. A marker with its sign doubled stands for the marker itself.

A text on lines, and a text in quotes with parts to compute, is kept in its written form, in which
the markers of its literal parts have their signs doubled. Its literal text, if it has one, is what
the written form reads as. From the first marker on, the written form takes a sign together with
the character after it, so there a marker directly after another sign is not doubled: such a text
does not read back as what it was.

## Main definitions

* `isSign`, `atMarker`, `atDoubledMarker` — signs and markers.
* `writeLiteral` — the written form of a literal text.
* `readLiteral?` — the literal text of a written form, if nothing in it must be computed.
-/

namespace Interpolation.Hcl

/-- The signs of markers. -/
def isSign (c : Char) : Bool := c == '$' || c == '%'

/-- Whether a text begins with a marker. -/
def atMarker : List Char → Bool
  | sign :: brace :: _ => isSign sign && brace == '\x7b'
  | _ => false

/-- Whether a text begins with a marker that has its sign doubled. -/
def atDoubledMarker : List Char → Bool
  | sign :: rest => rest.head? == some sign && atMarker rest
  | [] => false

/-- Double the signs of markers, taking each sign together with the character after it. -/
def doubleSigns : List Char → List Char
  | [] => []
  | [c] => [c]
  | c :: next :: rest =>
    if !isSign c then c :: doubleSigns (next :: rest)
    else if next == '\x7b' then c :: c :: next :: doubleSigns rest
    else c :: next :: doubleSigns rest

/-- The written form of a literal text: signs are doubled from the first marker on. -/
def writeLiteral : List Char → List Char
  | [] => []
  | c :: rest => if atMarker (c :: rest) then doubleSigns (c :: rest) else c :: writeLiteral rest

/-- The literal text of a written form. There is none if a marker in it has a single sign. -/
def readLiteral? : List Char → Option (List Char)
  | [] => some []
  | '$' :: '$' :: '\x7b' :: rest => (readLiteral? rest).map ('$' :: '\x7b' :: ·)
  | '%' :: '%' :: '\x7b' :: rest => (readLiteral? rest).map ('%' :: '\x7b' :: ·)
  | c :: rest => if atMarker (c :: rest) then none else (readLiteral? rest).map (c :: ·)

end Interpolation.Hcl
