import Interpolation.Decimal.Binary64

/-!
# Texts that denote something else

A text that stands as it is can be read as something else than a text: as nothing, as a truth value
or as a number. A row of digits behind a zero is no number, but readers do not agree on it.

## Main definitions

* `Yaml.isWordValue` — texts that are read as nothing or as a truth value.
* `Yaml.isIntegerText`, `Yaml.isFloatText`, `Yaml.isSpecialNumber` — texts that are read as numbers.
* `Yaml.isDigitRow` — texts that some readers take for numbers.
* `Yaml.denotesOther` — all of these.
-/

namespace Interpolation.Yaml

open Decimal

/-- Whether a text is read as nothing or as a truth value. -/
def isWordValue (cs : List Char) : Bool :=
  ["", "~", "null", "Null", "NULL", "true", "True", "TRUE", "false", "False", "FALSE"].contains
    (String.ofList cs)

/-! ### Numbers -/

/-- A text without the sign that it may begin with. -/
def unsigned : List Char → List Char
  | '+' :: rest => rest
  | '-' :: rest => rest
  | cs => cs

/-- The number that a row of digits denotes in some base, if it is such a row and not empty. -/
def digitsValue? (base : Nat) (cs : List Char) : Option Nat :=
  let digit? (c : Char) : Option Nat :=
    let value :=
      if c.isDigit then c.toNat - '0'.toNat
      else if c.isLower then c.toNat - 'a'.toNat + 10
      else if c.isUpper then c.toNat - 'A'.toNat + 10
      else base
    if value < base then some value else none
  if cs.isEmpty then none
  else (cs.mapM digit?).map fun values => values.foldl (fun n value => base * n + value) 0

/-- The integer that a text without sign denotes: decimal, or hexadecimal, octal or binary after
`0x`, `0o` or `0b`. -/
def magnitude? : List Char → Option Nat
  | '0' :: 'x' :: rest => digitsValue? 16 rest
  | '0' :: 'o' :: rest => digitsValue? 8 rest
  | '0' :: 'b' :: rest => digitsValue? 2 rest
  | cs => digitsValue? 10 cs

/-- Whether a text is read as an integer of at most 128 bits, without or with a sign. -/
def isIntegerText (cs : List Char) : Bool :=
  match magnitude? (unsigned cs) with
  | none => false
  | some n => if cs.head? = some '-' then decide (n ≤ Nat.pow 2 127) else decide (n < Nat.pow 2 128)

/-- The digits at the start of a text, and the rest. -/
def spanDigits (cs : List Char) : List Char × List Char := cs.span Char.isDigit

/-- The power of ten that a text denotes: nothing at all, or a letter `e`, perhaps a sign, and
digits to the end. -/
def power? : List Char → Option Int
  | [] => some 0
  | c :: rest =>
    if c == 'e' || c == 'E' then
      (digitsValue? 10 (unsigned rest)).map fun n =>
        if rest.head? = some '-' then -(n : Int) else n
    else none

/-- Whether a text is read as a finite binary number: a sign, digits with or without a point, and
a power of ten, of which only some digits must be there. -/
def isFloatText (cs : List Char) : Bool :=
  let whole := spanDigits (unsigned cs)
  let fraction := match whole.2 with
    | '.' :: rest => spanDigits rest
    | rest => ([], rest)
  let digits := whole.1 ++ fraction.1
  match power? fraction.2, digitsValue? 10 digits with
  | some power, some n => (Binary64.ofDecimal? n (power - fraction.1.length)).isSome
  | _, _ => false

/-- Whether a text names an infinite number, without or with a sign, or what is not a number. -/
def isSpecialNumber (cs : List Char) : Bool :=
  [".inf".toList, ".Inf".toList, ".INF".toList].contains (unsigned cs) ||
    [".nan".toList, ".NaN".toList, ".NAN".toList].contains cs

/-- Whether a text is a zero and further digits, without or with a sign. -/
def isDigitRow (cs : List Char) : Bool :=
  match unsigned cs with
  | '0' :: c :: rest => (c :: rest).all Char.isDigit
  | _ => false

/-- Whether a text that stands as it is would not be read as that text. -/
def denotesOther (cs : List Char) : Bool :=
  isWordValue cs || isIntegerText cs || isFloatText cs || isSpecialNumber cs || isDigitRow cs

end Interpolation.Yaml
