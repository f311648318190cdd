/-!
# Words

A name in a template and a key of a line of assignments are words over the ASCII letters, the
ASCII digits and the underscore. Letters and digits of other scripts end a word.

## Main definitions

* `Text.isWordChar` — the characters of a word.
* `Text.InWord` — the same, by the ranges in which they stand.
* `Text.leadingWord`, `Text.afterWord` — the longest word at the start of a text, and the rest.
-/

namespace Interpolation.Text

/-- A word character is an ASCII letter, an ASCII digit or an underscore. -/
def isWordChar (c : Char) : Bool := c.isAlphanum || c == '_'

/-- The characters of a word, by the ranges in which they stand. -/
def InWord (c : Char) : Prop :=
  ('A' ≤ c ∧ c ≤ 'Z') ∨ ('a' ≤ c ∧ c ≤ 'z') ∨ ('0' ≤ c ∧ c ≤ '9') ∨ c = '_'

instance : DecidablePred InWord := fun _ => inferInstanceAs (Decidable (_ ∨ _))

theorem isWordChar_iff {c : Char} : isWordChar c = true ↔ InWord c := by
  have hupper : c.isUpper = true ↔ 'A' ≤ c ∧ c ≤ 'Z' := decide_eq_true_iff
  have hlower : c.isLower = true ↔ 'a' ≤ c ∧ c ≤ 'z' :=
    (Bool.and_eq_true_iff).trans (and_congr decide_eq_true_iff decide_eq_true_iff)
  have hdigit : c.isDigit = true ↔ '0' ≤ c ∧ c ≤ '9' :=
    (Bool.and_eq_true_iff).trans (and_congr decide_eq_true_iff decide_eq_true_iff)
  have hletter : c.isAlphanum = true ↔ (c.isUpper = true ∨ c.isLower = true) ∨ c.isDigit = true :=
    (Bool.or_eq_true_iff).trans (or_congr Bool.or_eq_true_iff Iff.rfl)
  rw [isWordChar, Bool.or_eq_true, beq_iff_eq, hletter, hupper, hlower, hdigit, InWord, or_assoc,
    or_assoc]

theorem isWordChar_eq_false_iff {c : Char} : isWordChar c = false ↔ ¬InWord c := by
  rw [← isWordChar_iff, Bool.not_eq_true]

/-- The longest word at the start of a text; it may be empty. -/
def leadingWord (cs : List Char) : List Char := cs.takeWhile isWordChar

/-- What follows the longest word at the start of a text. -/
def afterWord (cs : List Char) : List Char := cs.dropWhile isWordChar

@[simp] theorem leadingWord_append_afterWord (cs : List Char) :
    leadingWord cs ++ afterWord cs = cs :=
  List.takeWhile_append_dropWhile

theorem isWordChar_of_mem_leadingWord {cs : List Char} {c : Char} (h : c ∈ leadingWord cs) :
    isWordChar c = true :=
  List.all_eq_true.1 List.all_takeWhile c h

/-- What follows the longest word at the start of a text does not begin with a word character. -/
theorem isWordChar_eq_false_of_afterWord {cs rest : List Char} {c : Char}
    (h : afterWord cs = c :: rest) : isWordChar c = false := by
  change cs.dropWhile isWordChar = c :: rest at h
  have hhead := List.head_dropWhile_not isWordChar (l := cs) (by simp [h])
  simpa [h] using hhead

theorem inWord_of_mem_leadingWord {cs : List Char} {c : Char} (h : c ∈ leadingWord cs) :
    InWord c :=
  isWordChar_iff.mp (isWordChar_of_mem_leadingWord h)

theorem not_inWord_of_head?_afterWord {cs : List Char} {c : Char}
    (h : (afterWord cs).head? = some c) : ¬InWord c := by
  obtain ⟨rest, hrest⟩ := List.head?_eq_some_iff.mp h
  exact isWordChar_eq_false_iff.mp (isWordChar_eq_false_of_afterWord hrest)

section Append

variable {word rest : List Char} (hword : ∀ c ∈ word, isWordChar c = true)
  (hrest : ∀ c, rest.head? = some c → isWordChar c = false)

include hword hrest

/-- A word is the longest at the start of a text if the text does not go on with it. -/
theorem leadingWord_append : leadingWord (word ++ rest) = word := by
  have hnone : rest.takeWhile isWordChar = [] := by
    cases rest with
    | nil => rfl
    | cons c tail => exact List.takeWhile_cons_of_neg (by simp [hrest c rfl])
  rw [leadingWord, List.takeWhile_append_of_pos hword, hnone, List.append_nil]

theorem afterWord_append : afterWord (word ++ rest) = rest := by
  have hwhole := leadingWord_append_afterWord (word ++ rest)
  rw [leadingWord_append hword hrest] at hwhole
  exact List.append_cancel_left hwhole

end Append

section AppendInWord

variable {word rest : List Char} (hword : ∀ c ∈ word, InWord c)
  (hrest : ∀ c, rest.head? = some c → ¬InWord c)

include hword hrest

theorem leadingWord_append_of_inWord : leadingWord (word ++ rest) = word :=
  leadingWord_append (fun c hc => isWordChar_iff.mpr (hword c hc))
    fun c hc => isWordChar_eq_false_iff.mpr (hrest c hc)

theorem afterWord_append_of_inWord : afterWord (word ++ rest) = rest :=
  afterWord_append (fun c hc => isWordChar_iff.mpr (hword c hc))
    fun c hc => isWordChar_eq_false_iff.mpr (hrest c hc)

end AppendInWord

theorem length_afterWord_le (cs : List Char) : (afterWord cs).length ≤ cs.length :=
  (List.dropWhile_sublist _).length_le

end Interpolation.Text
