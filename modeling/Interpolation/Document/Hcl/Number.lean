import Interpolation.Decimal.Layout

/-!
# Numbers

A number is an integer of at most sixty-four bits, or a binary number of double precision. A number
that is written with a point or a power of ten is taken to the nearest binary number, and becomes
an integer again if it is one of that size.

## Main definitions

* `Number` — an integer, or a binary number with a sign.
* `Number.ofWhole?`, `Number.ofDecimal?` — the number of its written parts.
* `Number.negate` — the number with the other sign.
* `Number.alike` — whether two numbers count as equal.
* `Number.text` — the number as text.
-/

namespace Interpolation.Hcl

open Decimal

/-- A number of a document: an integer, or a binary number with its sign. -/
inductive Number where
  | integer (value : Int)
  | binary (negative : Bool) (magnitude : Binary64)
  deriving DecidableEq, Repr

namespace Number

/-- The integer that a row of decimal digits denotes. -/
def ofDigits (digits : List Char) : Nat :=
  digits.foldl (fun n c => 10 * n + (c.toNat - '0'.toNat)) 0

/-- A binary number, as an integer if it is one of at most sixty-four bits. -/
def ofBinary64 (x : Binary64) : Number :=
  match x.whole? with
  | some n => if n < Nat.pow 2 64 then .integer n else .binary false x
  | none => .binary false x

/-- The integer of its digits. There is none of more than sixty-four bits. -/
def ofWhole? (digits : List Char) : Option Number :=
  let n := ofDigits digits
  if n < Nat.pow 2 64 then some (.integer n) else none

/-- The number of the digits before and after its point, and its power of ten. There is none beyond
double precision. -/
def ofDecimal? (whole fraction : List Char) (power : Int) : Option Number :=
  (Binary64.ofDecimal? (ofDigits (whole ++ fraction)) (power - fraction.length)).map ofBinary64

/-- The number with the other sign. An integer that then no longer fits sixty-four bits becomes a
binary number. -/
def negate : Number → Number
  | .integer value =>
    if value ≤ Nat.pow 2 63 then .integer (-value)
    else
      match Binary64.ofNat? value.toNat with
      | some magnitude => .binary true magnitude
      | none => .integer (-value)
  | .binary negative magnitude => .binary (!negative) magnitude

/-- The nearest binary number, with its sign. -/
def nearest : Number → Bool × Option Binary64
  | .integer value => (decide (value < 0), Binary64.ofNat? value.natAbs)
  | .binary negative magnitude => (negative, some magnitude)

/-- Whether two numbers count as equal. An integer and a binary number do if the binary number is
the nearest one to the integer. -/
def alike : Number → Number → Bool
  | .integer value, .integer other => value == other
  | n, other => n.nearest == other.nearest

/-- Numbers are written out while the point lies within sixteen digits, or at most four zeros
before them. -/
def layout : Layout := ⟨-4, 16⟩

/-- The number as text, with the fewest digits that denote it. -/
def text : Number → String
  | .integer value => toString value
  | .binary negative magnitude =>
    (if negative then "-" else "") ++ layout.write (Shortest.ofBinary64 magnitude)

end Number

end Interpolation.Hcl
