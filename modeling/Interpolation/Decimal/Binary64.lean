/-!
# Binary numbers of double precision

The finite numbers that sixty-four bits can hold, without a sign: an integer below `2 ^ 53` times a
power of two, the exponent of which is at least `-1074` and at most `971`. A decimal number is
taken to the nearest of them, a half to the one with the even integer. Everything is computed with
integers, so nothing depends on the arithmetic of a machine.

## Main definitions

* `Binary64` — an integer and the exponent of a power of two.
* `roundDiv` — a quotient rounded to the nearest integer.
* `scale` — powers with integer exponents on both sides of a fraction line.
* `Binary64.ofRatio?` — the nearest number to a quotient, if it is not too large.
* `Binary64.ofDecimal?` — the nearest number to an integer times a power of ten.
* `Binary64.whole?` — the number as an integer, if it is one.
-/

namespace Interpolation.Decimal

/-- The number `mantissa * 2 ^ exponent`. -/
structure Binary64 where
  /-- The integer factor, less than `2 ^ 53`. -/
  mantissa : Nat
  /-- The exponent of the power of two, from `-1074` to `971`. -/
  exponent : Int
  deriving DecidableEq, Repr

/-- A quotient rounded to the nearest integer, a half to the even one. -/
def roundDiv (num den : Nat) : Nat :=
  let quotient := num / den
  let twice := 2 * (num % den)
  if den < twice ∨ (twice = den ∧ quotient % 2 = 1) then quotient + 1 else quotient

/-- A power with an integer exponent, as far as it is a natural number: one for an exponent that is
not positive. A factor `base ^ exponent` is thus `scale base exponent` above the fraction line and
`scale base (-exponent)` below it. -/
def scale (base : Nat) (exponent : Int) : Nat := Nat.pow base exponent.toNat

/-- The quotient `num / (den * 2 ^ exponent)` as a numerator and a denominator. -/
def divPowTwo (num den : Nat) (exponent : Int) : Nat × Nat :=
  (num * scale 2 (-exponent), den * scale 2 exponent)

namespace Binary64

/-- The exponent of the smallest positive number. -/
def leastExponent : Int := -1074

/-- The exponent of the largest numbers. -/
def greatestExponent : Int := 971

/-- The exponent at which a positive quotient has a mantissa of fifty-three bits, or the least
exponent if that is greater. -/
def exponentOf (num den : Nat) : Int :=
  let guess : Int := (num.log2 : Int) - den.log2 - 52
  let scaled := divPowTwo num den guess
  max leastExponent (if scaled.1 / scaled.2 < Nat.pow 2 52 then guess - 1 else guess)

/-- The nearest number to a quotient, or nothing if that number would be too large. -/
def ofRatio? (num den : Nat) : Option Binary64 :=
  if num = 0 then some ⟨0, leastExponent⟩
  else
    let exponent := exponentOf num den
    let scaled := divPowTwo num den exponent
    let mantissa := roundDiv scaled.1 scaled.2
    let rounded : Binary64 :=
      if mantissa = Nat.pow 2 53 then ⟨Nat.pow 2 52, exponent + 1⟩ else ⟨mantissa, exponent⟩
    if greatestExponent < rounded.exponent then none else some rounded

/-- The nearest number to a natural number, or nothing if it is too large. -/
def ofNat? (n : Nat) : Option Binary64 := ofRatio? n 1

/-- The nearest number to `digits * 10 ^ exponent`, or nothing if it is too large.

Exponents far outside the range of the format are decided by the number of digits alone, so that
no huge power of ten is computed. -/
def ofDecimal? (digits : Nat) (exponent : Int) : Option Binary64 :=
  let point := exponent + (Nat.toDigits 10 digits).length
  if digits = 0 ∨ point < -330 then some ⟨0, leastExponent⟩
  else if 310 < point then none
  else ofRatio? (digits * scale 10 exponent) (scale 10 (-exponent))

/-- The number as an integer, if it is one. -/
def whole? (x : Binary64) : Option Nat :=
  let den := scale 2 (-x.exponent)
  if x.mantissa % den = 0 then some (x.mantissa / den * scale 2 x.exponent) else none

end Binary64

end Interpolation.Decimal
