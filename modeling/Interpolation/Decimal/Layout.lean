import Interpolation.Decimal.Shortest

/-!
# The layout of decimals

A decimal is written out while its point lies near its digits, and otherwise with one digit before
the point and a power of ten behind an `e`. How far the point may lie is what a layout says.

## Main definitions

* `Layout` — the places of the point between which a decimal is written out.
* `Layout.write` — the text of a decimal.
-/

namespace Interpolation.Decimal

/-- The places of the decimal point, counted from before the first digit, between which a decimal
is written out. -/
structure Layout where
  /-- The leftmost place; below zero, zeros follow the point. -/
  leastPoint : Int
  /-- The rightmost place. -/
  greatestPoint : Int

namespace Layout

/-- So many zeros. -/
def zeros (n : Int) : List Char := List.replicate n.toNat '0'

/-- Digits with the point at a place, written out. -/
def positional (digits : List Char) (point : Int) : List Char :=
  if point ≤ 0 then ['0', '.'] ++ zeros (-point) ++ digits
  else if (digits.length : Int) ≤ point then digits ++ zeros (point - digits.length)
  else digits.take point.toNat ++ '.' :: digits.drop point.toNat

/-- Digits with the point after the first, and the power of ten that puts it at a place. -/
def exponential (digits : List Char) (point : Int) : List Char :=
  let power := (toString (point - 1)).toList
  match digits with
  | [] => []
  | [digit] => digit :: 'e' :: power
  | digit :: rest => digit :: '.' :: rest ++ 'e' :: power

/-- The text of a decimal. -/
def write (layout : Layout) (decimal : Shortest.Scientific) : String :=
  let digits := Nat.toDigits 10 decimal.digits
  let point := digits.length + decimal.exponent
  String.ofList
    (if layout.leastPoint ≤ point ∧ point ≤ layout.greatestPoint then positional digits point
    else exponential digits point)

end Layout

end Interpolation.Decimal
