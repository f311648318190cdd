import Interpolation.Document.Hcl.Reader

/-!
# Names

A name begins with an ASCII letter or an underscore and goes on with letters, digits, underscores
and hyphens. Words such as `for` or `if` are names too, except where the form of an expression asks
for the word.

## Main definitions

* `isNameStart`, `isNameChar` — the characters of a name.
* `Reader.name` — the longest name ahead.

## Main results

* `Reader.ne_empty_of_name` — a name that is taken is not empty.
-/

namespace Interpolation.Hcl

/-- A name begins with an ASCII letter or an underscore. -/
def isNameStart (c : Char) : Bool := c.isAlpha || c == '_'

/-- A name goes on with ASCII letters, ASCII digits, underscores and hyphens. -/
def isNameChar (c : Char) : Bool := c.isAlphanum || c == '_' || c == '-'

/-- Whether a name follows. -/
def atName : List Char → Bool
  | [] => false
  | c :: _ => isNameStart c

/-- What may begin a name may also go on with it. -/
theorem isNameChar_of_isNameStart {c : Char} (h : isNameStart c = true) : isNameChar c = true := by
  simp only [isNameStart, isNameChar, Char.isAlphanum, Bool.or_eq_true] at h ⊢
  rcases h with h | h <;> simp [h]

namespace Reader

/-- Take the longest name. -/
def name : Reader String := do
  require (atName (← ahead))
  return String.ofList (← takeWhile isNameChar)

/-- A name that is taken is not empty. -/
theorem ne_empty_of_name {start cursor : Cursor} {taken : String}
    (h : name start = .ok (taken, cursor)) : taken ≠ "" := by
  obtain ⟨rest, form⟩ := start
  cases rest with
  | nil => simp [name, atName] at h
  | cons c tail =>
    by_cases hc : isNameStart c = true
    · intro he
      have := congrArg String.toList he
      simp_all [name, atName, isNameChar_of_isNameStart]
    · simp [name, atName, hc] at h

end Reader

end Interpolation.Hcl
