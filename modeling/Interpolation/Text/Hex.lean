/-!
# Hexadecimal digits

A character that cannot stand for itself is written as its code point, in a fixed number of
hexadecimal digits. Digits are read in upper and in lower case, and written in one of the two.

## Main definitions

* `Text.hexValue?`, `Text.ofHexDigits?` — the value of a digit, and the number of a row of them.
* `Text.upperHexDigit`, `Text.lowerHexDigit` — the digit of a value.
* `Text.hexDigits` — so many digits of a number.
* `Text.ofCodePoint?` — the character of a code point.

## Main results

* `Text.ofHexDigits?_hexDigits` — the digits of a number denote it.
* `Text.ofCodePoint?_hexDigits` — the digits of a code point denote its character.
-/

namespace Interpolation.Text

/-- The value of a hexadecimal digit. -/
def hexValue? (c : Char) : Option Nat :=
  if c.isDigit then some (c.toNat - '0'.toNat)
  else if 'a' ≤ c ∧ c ≤ 'f' then some (c.toNat - 'a'.toNat + 10)
  else if 'A' ≤ c ∧ c ≤ 'F' then some (c.toNat - 'A'.toNat + 10)
  else none

/-- The upper-case digit of a number below sixteen. -/
def upperHexDigit (n : Nat) : Char := "0123456789ABCDEF".toList.getD n '0'

/-- The lower-case digit of a number below sixteen. -/
def lowerHexDigit (n : Nat) : Char := "0123456789abcdef".toList.getD n '0'

/-- The last digits of a number, as many as the width says. -/
def hexDigits (digit : Nat → Char) : Nat → Nat → List Char
  | 0, _ => []
  | width + 1, n => hexDigits digit width (n / 16) ++ [digit (n % 16)]

/-- The number that a row of digits denotes. -/
def ofHexDigits? (cs : List Char) : Option Nat :=
  cs.foldlM (fun n c => (hexValue? c).map (16 * n + ·)) 0

/-- The character whose code point a row of digits denotes. -/
def ofCodePoint? (cs : List Char) : Option Char :=
  match ofHexDigits? cs with
  | some n => if n.isValidChar then some (Char.ofNat n) else none
  | none => none

theorem hexValue?_upperHexDigit {n : Nat} (h : n < 16) : hexValue? (upperHexDigit n) = some n := by
  revert n
  decide

theorem hexValue?_lowerHexDigit {n : Nat} (h : n < 16) : hexValue? (lowerHexDigit n) = some n := by
  revert n
  decide

/-- The digits of a number denote it, if there are enough of them. -/
theorem ofHexDigits?_hexDigits {digit : Nat → Char}
    (hdigit : ∀ n < 16, hexValue? (digit n) = some n) {width n : Nat} (h : n < Nat.pow 16 width) :
    ofHexDigits? (hexDigits digit width n) = some n := by
  induction width generalizing n with
  | zero =>
    obtain rfl : n = 0 := Nat.lt_one_iff.mp h
    rfl
  | succ width ih =>
    have hrest : n / 16 < Nat.pow 16 width := (Nat.div_lt_iff_lt_mul (by decide)).mpr h
    have hlast : 16 * (n / 16) + n % 16 = n := Nat.div_add_mod n 16
    have hread := ih hrest
    rw [ofHexDigits?] at hread ⊢
    rw [hexDigits, List.foldlM_append, hread, Option.bind_eq_bind, Option.bind_some,
      List.foldlM_cons, hdigit (n % 16) (Nat.mod_lt n (by decide)), Option.map_some, hlast]
    rfl

/-- The digits of the code point of a character denote the character. -/
theorem ofCodePoint?_hexDigits {digit : Nat → Char}
    (hdigit : ∀ n < 16, hexValue? (digit n) = some n) {width : Nat} {c : Char}
    (h : c.toNat < Nat.pow 16 width) : ofCodePoint? (hexDigits digit width c.toNat) = some c := by
  have hvalid : c.toNat.isValidChar := c.valid
  simp only [ofCodePoint?, ofHexDigits?_hexDigits hdigit h, if_pos hvalid, Char.ofNat_toNat]

end Interpolation.Text
