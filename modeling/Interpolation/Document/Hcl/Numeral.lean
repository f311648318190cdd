import Interpolation.Document.Hcl.Blank

/-!
# Numerals

A number is written with digits, then perhaps a point and digits, then perhaps a power of ten.
Without the last two it is an integer. If with them it lies beyond double precision, only its first
digits are taken. A minus sign before a number belongs to it, and between them blanks may stand.

## Main definitions

* `Reader.number`, `Reader.negativeNumber` — a number without a sign, and one with a minus sign.
-/

namespace Interpolation.Hcl.Reader

/-- Take a point and the digits after it, if both follow. -/
def fraction : Reader (List Char) := do
  match ← ahead with
  | '.' :: digit :: _ =>
    if digit.isDigit then
      skip 1
      takeWhile Char.isDigit
    else return []
  | _ => return []

/-- The sign of a power of ten, with how many characters it takes. -/
def powerSign : List Char → Bool × Nat
  | '+' :: _ => (false, 1)
  | '-' :: _ => (true, 1)
  | _ => (false, 0)

/-- Take a power of ten, if one follows: a letter `e`, perhaps a sign, and digits. -/
def power : Reader (Option Int) := do
  match ← ahead with
  | [] => return none
  | c :: rest =>
    let (negative, width) := powerSign rest
    let digits := (rest.drop width).takeWhile Char.isDigit
    if (c == 'e' || c == 'E') && !digits.isEmpty then
      skip (1 + width + digits.length)
      let magnitude : Int := Number.ofDigits digits
      return some (if negative then -magnitude else magnitude)
    else return none

/-- Give a number, or refuse if there is none. -/
def given : Option Number → Reader Number
  | some n => return n
  | none => refuse

/-- Take digits alone. -/
def wholeNumber : Reader Number := do given (Number.ofWhole? (← takeSome Char.isDigit))

/-- Take digits with a fraction, a power of ten, or both. -/
def decimalNumber : Reader Number := do
  let whole ← takeSome Char.isDigit
  let fraction ← fraction
  let power ← power
  require (!fraction.isEmpty || power.isSome)
  given (Number.ofDecimal? whole fraction (power.getD 0))

/-- Write what a reader of numbers takes as one token. -/
def numeral (reader : Reader Number) : Reader Number := do
  let (n, form) ← captured reader
  write (.number n form.written)
  return n

/-- Take a number without a sign. -/
def number : Reader Number := numeral do
  match ← attempt decimalNumber with
  | some n => return n
  | none => wholeNumber

/-- Take a minus sign and a number. -/
def negativeNumber : Reader Number := numeral do
  expect "-"
  skipInline
  return (← number).negate

/-- Whether a minus sign and a number follow. -/
def atNegativeNumber : Reader Bool := peek do
  if ← accept "-" then
    skipInline
    return ((← ahead).head?.map Char.isDigit).getD false
  else return false

end Interpolation.Hcl.Reader
