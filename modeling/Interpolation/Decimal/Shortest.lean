import Interpolation.Decimal.Binary64

/-!
# The shortest decimal of a binary number

Every binary number has an interval of reals around it that are rounded to it. The number is
written with the fewest decimal digits that lie in this interval; of two decimals with that many
digits the one nearer to the number is taken.

Fewest digits means the coarsest decimal grid with a point in the interval. If a grid has a point
there, so has it one next to the number, so two points of each grid are tried, from coarse to fine.
All comparisons are between integers, after multiplying out the denominators.

## Main definitions

* `Shortest.Scientific` — an integer times a power of ten.
* `Shortest.Interval` — the reals that are rounded to a number, in quarters of its last place.
* `Shortest.onGrid?` — the best point of one decimal grid, if it lies in the interval.
* `Shortest.ofBinary64` — the shortest decimal.
-/

namespace Interpolation.Decimal.Shortest

/-- The number `digits * 10 ^ exponent`. -/
structure Scientific where
  /-- The digits, read as an integer. -/
  digits : Nat
  /-- The exponent of the power of ten. -/
  exponent : Int
  deriving DecidableEq, Repr

/-- The reals that are rounded to a number, with all ends multiples of one power of two. -/
structure Interval where
  /-- The lower end. -/
  lower : Nat
  /-- The number itself. -/
  middle : Nat
  /-- The upper end. -/
  upper : Nat
  /-- Whether the ends are rounded to the number too. -/
  closed : Bool
  /-- The exponent of the power of two that multiplies the other fields. -/
  exponent : Int

/-- The interval of a number: half a place to either side, but only a quarter below the least
mantissa of an exponent, where the places change. The ends belong to even mantissas. -/
def Interval.of (x : Binary64) : Interval where
  lower :=
    4 * x.mantissa -
      (if x.mantissa = Nat.pow 2 52 ∧ Binary64.leastExponent < x.exponent then 1 else 2)
  middle := 4 * x.mantissa
  upper := 4 * x.mantissa + 2
  closed := x.mantissa % 2 = 0
  exponent := x.exponent - 2

/-- The point of the grid of multiples of `10 ^ k` that lies in the interval and nearest to its
middle; of two equally near points the one with the even multiplier. -/
def onGrid? (interval : Interval) (k : Int) : Option Scientific :=
  let place := scale 2 interval.exponent * scale 10 (-k)
  let grid := scale 2 (-interval.exponent) * scale 10 k
  let inside (c : Nat) : Bool :=
    c != 0 &&
      if interval.closed then
        decide (interval.lower * place ≤ c * grid) && decide (c * grid ≤ interval.upper * place)
      else
        decide (interval.lower * place < c * grid) && decide (c * grid < interval.upper * place)
  let middle := interval.middle * place
  let below := middle / grid
  let above := below + 1
  let nearer :=
    let twice := 2 * (middle % grid)
    if twice < grid ∨ (twice = grid ∧ below % 2 = 0) then below else above
  if inside nearer then some ⟨nearer, k⟩
  else if inside below then some ⟨below, k⟩
  else if inside above then some ⟨above, k⟩
  else none

/-- The best point of the first grid that has one, going from coarse to fine. -/
def firstOnGrid (interval : Interval) (k : Int) : Nat → Scientific
  | 0 => ⟨0, 0⟩
  | n + 1 => (onGrid? interval k).getD (firstOnGrid interval (k - 1) n)

/-- The shortest decimal that is rounded to a number, nearest to it among the shortest.

The search starts at a power of ten beyond the number, which exceeds it by less than two decimal
places; seventeen digits always do, so twenty grids are enough. -/
def ofBinary64 (x : Binary64) : Scientific :=
  if x.mantissa = 0 then ⟨0, 0⟩
  else
    let bits : Int := x.mantissa.log2 + 1 + x.exponent
    firstOnGrid (.of x) (Int.fdiv (bits * 30103) 100000 + 1) 20

end Interpolation.Decimal.Shortest
