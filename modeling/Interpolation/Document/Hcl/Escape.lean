import Interpolation.Text.Hex

/-!
# Escapes

Within quotes a backslash begins an escape: a letter that stands for one character, or the code
point of a character in four or eight hexadecimal digits. A quote, a backslash and the control
characters cannot be written otherwise, and are written with the shortest escape that they have.

## Main definitions

* `escapeLetters` — the characters that have a letter.
* `escaped` — how a character is written within quotes.
* `letterValue?` — the character that a letter stands for.
-/

namespace Interpolation.Hcl

open Text

/-- The characters that are escaped with a letter, each with its letter. -/
def escapeLetters : List (Char × Char) :=
  [('\x08', 'b'), ('\t', 't'), ('\n', 'n'), ('\x0c', 'f'), ('\r', 'r'), ('"', '"'), ('\\', '\\')]

/-- The character that an escape with this letter alone stands for. A slash may be escaped too, and
stands for itself. -/
def letterValue? (letter : Char) : Option Char :=
  if letter == '/' then some letter
  else (escapeLetters.find? fun entry => entry.2 == letter).map Prod.fst

/-- How a character is written within quotes. -/
def escaped (c : Char) : List Char :=
  match escapeLetters.lookup c with
  | some letter => ['\\', letter]
  | none =>
    if c.toNat < 0x20 || c.toNat == 0x7f then
      '\\' :: 'u' :: hexDigits upperHexDigit 4 c.toNat
    else [c]

end Interpolation.Hcl
