import Mathlib
import Interpolation.Document.Dotenv

/-!
# What a line of assignments says

A line gives up characters at its ends only: blanks around it, blanks around its key and its value,
one pair of quotes around the value. What is left of the value stands in the line as one piece, and
what is left of the key is a word. In the other direction, a line that holds a word, an equals sign
and any text assigns to the word what is left of the text. The word `export` is no obstacle, for it
is taken as an introduction only before a space.

## Main definitions

* `Dotenv.Enclosed` — a text between two quotes of the same kind.

## Main results

* `Text.trim_eq_self_iff`, `Dotenv.unquote_eq_self_iff` — the texts that lose nothing.
* `Dotenv.read_assignment` — what a line says that holds a key, an equals sign and a text.
* `Dotenv.isKey_and_sublist_of_read` — every assignment has a word for its key and a value from
  its line.
* `Dotenv.get?_of_readLines` — what holds of the assignments of all lines holds of the variables.
-/

namespace Interpolation

/-! ### Blanks at the ends of a text -/

namespace Text

variable {cs : List Char} {c : Char}

theorem isBlank_eq_false_of_isWordChar (h : isWordChar c = true) : isBlank c = false := by
  simp only [isWordChar, Char.isAlphanum, Char.isAlpha, Char.isUpper, Char.isLower, Char.isDigit,
    Bool.or_eq_true, Bool.and_eq_true, decide_eq_true_eq, beq_iff_eq, UInt32.le_iff_toNat_le,
    ge_iff_le, Char.reduceVal, UInt32.reduceToNat] at h
  have hrange : 48 ≤ c.toNat ∧ c.toNat ≤ 122 := by
    change 48 ≤ c.val.toNat ∧ c.val.toNat ≤ 122
    rcases h with h | rfl
    · omega
    · decide
  simp only [isBlank, blankRanges, List.any_cons, List.any_nil, Bool.or_false,
    Bool.or_eq_false_iff, decide_eq_false_iff_not]
  omega

theorem isBlank_eq_false_of_trimStart {rest : List Char} (h : trimStart cs = c :: rest) :
    isBlank c = false := by
  change cs.dropWhile isBlank = c :: rest at h
  have hhead := List.head_dropWhile_not isBlank (l := cs) (by simp [h])
  simpa [h] using hhead

theorem trimStart_cons_of_not_blank (h : isBlank c = false) : trimStart (c :: cs) = c :: cs :=
  List.dropWhile_cons_of_neg (by simp [h])

/-- What stands before a character that is no blank is not touched from the end. -/
theorem trimEnd_append_cons (h : isBlank c = false) (before after : List Char) :
    trimEnd (before ++ c :: after) = before ++ c :: trimEnd after := by
  have hstop : (after.reverse ++ c :: before.reverse).dropWhile isBlank =
      after.reverse.dropWhile isBlank ++ c :: before.reverse := by
    rw [List.dropWhile_append, List.dropWhile_cons_of_neg (by simp [h])]
    split
    · next hnil => rw [List.isEmpty_iff.mp hnil, List.nil_append]
    · rfl
  simp [trimEnd, hstop]

/-- It does not matter from which end the blanks are taken first. -/
theorem trimStart_trimEnd (cs : List Char) : trimStart (trimEnd cs) = trim cs := by
  have hsplit : cs.takeWhile isBlank ++ trimStart cs = cs := List.takeWhile_append_dropWhile
  have hblank : ∀ c ∈ cs.takeWhile isBlank, isBlank c = true := fun c hmem =>
    List.mem_takeWhile_imp hmem
  rw [trim]
  generalize cs.takeWhile isBlank = blanks at hsplit hblank
  cases hrest : trimStart cs with
  | nil =>
    rw [hrest, List.append_nil] at hsplit
    have hall : trimEnd cs = [] := List.rdropWhile_eq_nil_iff.mpr (hsplit ▸ hblank)
    rw [hall, trimStart_nil, trimEnd_nil]
  | cons c rest =>
    have hc : isBlank c = false := isBlank_eq_false_of_trimStart hrest
    rw [hrest] at hsplit
    calc trimStart (trimEnd cs)
        = trimStart (blanks ++ c :: trimEnd rest) := by rw [← hsplit, trimEnd_append_cons hc]
      _ = trimStart (c :: trimEnd rest) := List.dropWhile_append_of_pos hblank
      _ = c :: trimEnd rest := trimStart_cons_of_not_blank hc
      _ = trimEnd (c :: rest) := (trimEnd_append_cons hc [] rest).symm

theorem trimEnd_trimEnd (cs : List Char) : trimEnd (trimEnd cs) = trimEnd cs :=
  List.rdropWhile_idempotent isBlank cs

theorem trim_trimEnd (cs : List Char) : trim (trimEnd cs) = trim cs := by
  rw [← trimStart_trimEnd, trimEnd_trimEnd, trimStart_trimEnd]

section Append

variable {blanks : List Char} (h : ∀ c ∈ blanks, isBlank c = true)

include h

theorem trim_append_left (cs : List Char) : trim (blanks ++ cs) = trim cs := by
  rw [trim, trimStart, List.dropWhile_append_of_pos h]
  rfl

theorem trim_append_right (cs : List Char) : trim (cs ++ blanks) = trim cs := by
  have hreverse : ∀ c ∈ blanks.reverse, isBlank c = true := fun c hmem =>
    h c (List.mem_reverse.mp hmem)
  have hend : trimEnd (cs ++ blanks) = trimEnd cs := by
    rw [trimEnd, List.reverse_append, List.dropWhile_append_of_pos hreverse, trimEnd]
  rw [← trimStart_trimEnd, hend, trimStart_trimEnd]

theorem trim_eq_nil : trim blanks = [] := by
  rw [← List.append_nil blanks, trim_append_left h, trim_nil]

end Append

theorem trimStart_suffix (cs : List Char) : trimStart cs <:+ cs := List.dropWhile_suffix isBlank

theorem trimEnd_prefix_self (cs : List Char) : trimEnd cs <+: cs :=
  List.rdropWhile_prefix isBlank cs

theorem trim_sublist (cs : List Char) : (trim cs).Sublist cs :=
  (trimEnd_prefix_self _).sublist.trans (trimStart_suffix cs).sublist

/-- A text loses nothing to trimming if neither its first nor its last character is a blank. -/
theorem trim_eq_self_iff :
    trim cs = cs ↔
      (∀ c, cs.head? = some c → isBlank c = false) ∧
        ∀ c, cs.getLast? = some c → isBlank c = false := by
  have hstart : trimStart cs = cs ↔ ∀ c, cs.head? = some c → isBlank c = false := by
    rw [trimStart, List.dropWhile_eq_self_iff]
    cases cs <;> simp
  have hend : trimEnd cs = cs ↔ ∀ c, cs.getLast? = some c → isBlank c = false := by
    refine List.rdropWhile_eq_self_iff.trans ?_
    rcases List.eq_nil_or_concat cs with rfl | ⟨init, last, rfl⟩
    · simp
    · simp
  rw [← hstart, ← hend]
  constructor
  · intro h
    -- Neither end can lose anything, since the whole text is as long as before.
    have hlength : cs.length ≤ (trimStart cs).length := by
      calc cs.length = (trim cs).length := by rw [h]
        _ ≤ (trimStart cs).length := (trimEnd_prefix_self _).length_le
    have hs : trimStart cs = cs := (trimStart_suffix cs).eq_of_length_le hlength
    exact ⟨hs, by rwa [trim, hs] at h⟩
  · rintro ⟨hs, he⟩
    rw [trim, hs, he]

end Text

namespace Dotenv

open Document Text

variable {cs front key rest value : List Char}

/-! ### Quotes around a text -/

/-- A text between two quotes of the same kind, both of which belong to it. -/
def Enclosed (cs : List Char) : Prop :=
  ∃ quote inner, (quote = '"' ∨ quote = '\'') ∧ cs = quote :: (inner ++ [quote])

theorem between?_eq_some_iff {quote : Char} {inner : List Char} :
    between? quote cs = some inner ↔ cs = quote :: (inner ++ [quote]) := by
  cases cs with
  | nil => simp [between?]
  | cons c rest =>
    rw [between?, Option.ite_none_right_eq_some, List.cons.injEq, and_assoc]
    refine and_congr_right fun _ => ⟨?_, ?_⟩
    · rintro ⟨hlast, hinner⟩
      obtain ⟨init, rfl⟩ := List.getLast?_eq_some_iff.mp hlast
      rw [List.dropLast_concat] at hinner
      rw [Option.some.inj hinner]
    · rintro rfl
      exact ⟨List.getLast?_concat, by rw [List.dropLast_concat]⟩

/-- A text that is enclosed in quotes loses them, and any other text stays as it is. -/
theorem unquote_cases (cs : List Char) :
    (∃ quote, (quote = '"' ∨ quote = '\'') ∧ cs = quote :: (unquote cs ++ [quote])) ∨
      (¬ Enclosed cs ∧ unquote cs = cs) := by
  rw [unquote]
  cases hdouble : between? '"' cs with
  | some inner => exact Or.inl ⟨'"', Or.inl rfl, between?_eq_some_iff.mp hdouble⟩
  | none =>
    cases hsingle : between? '\'' cs with
    | some inner => exact Or.inl ⟨'\'', Or.inr rfl, between?_eq_some_iff.mp hsingle⟩
    | none =>
      refine Or.inr ⟨?_, rfl⟩
      rintro ⟨quote, inner, rfl | rfl, hcs⟩
      · rw [between?_eq_some_iff.mpr hcs] at hdouble
        cases hdouble
      · rw [between?_eq_some_iff.mpr hcs] at hsingle
        cases hsingle

theorem unquote_sublist (cs : List Char) : (unquote cs).Sublist cs := by
  rcases unquote_cases cs with ⟨quote, -, hcs⟩ | ⟨-, hcs⟩
  · conv_rhs => rw [hcs]
    exact (List.sublist_append_left _ _).cons _
  · rw [hcs]

/-- Only what is not enclosed in quotes stays as it is. -/
theorem unquote_eq_self_iff : unquote cs = cs ↔ ¬ Enclosed cs := by
  rcases unquote_cases cs with ⟨quote, hquote, hcs⟩ | ⟨hnot, hcs⟩
  · refine iff_of_false (fun hself => ?_) (not_not_intro ⟨quote, _, hquote, hcs⟩)
    have hlength := congrArg List.length hcs
    simp only [hself, List.length_cons, List.length_append, List.length_nil] at hlength
    omega
  · exact iff_of_true hcs hnot

/-- Nothing is lost of a value that has no blanks at its ends and is not enclosed in quotes. -/
theorem unquote_trim_eq_self_iff : unquote (trim cs) = cs ↔ trim cs = cs ∧ ¬ Enclosed cs := by
  constructor
  · intro h
    have hlength : cs.length ≤ (trim cs).length := by
      calc cs.length = (unquote (trim cs)).length := by rw [h]
        _ ≤ (trim cs).length := (unquote_sublist _).length_le
    have htrim : trim cs = cs := (trim_sublist cs).eq_of_length_le hlength
    rw [htrim] at h
    exact ⟨htrim, unquote_eq_self_iff.mp h⟩
  · rintro ⟨htrim, hnot⟩
    rw [htrim, unquote_eq_self_iff.mpr hnot]

/-! ### The line of an assignment -/

theorem isKey_iff : isKey cs = true ↔ cs ≠ [] ∧ ∀ c ∈ cs, isWordChar c = true := by
  simp [isKey]

/-- The key of a line is a word that is not empty. -/
theorem isKey_toList_iff {name : String} :
    isKey name.toList = true ↔ name ≠ "" ∧ ∀ c ∈ name.toList, isWordChar c = true := by
  rw [isKey_iff, ne_eq, String.toList_eq_nil_iff]

theorem equals_not_word : isWordChar '=' = false := by decide

theorem trim_of_isKey (hkey : isKey key = true) : trim key = key := by
  have hword := (isKey_iff.mp hkey).2
  refine trim_eq_self_iff.mpr ⟨fun c hhead => ?_, fun c hlast => ?_⟩
  · exact isBlank_eq_false_of_isWordChar (hword c (List.mem_of_mem_head? hhead))
  · exact isBlank_eq_false_of_isWordChar (hword c (List.mem_of_mem_getLast? hlast))

theorem equals_notMem_of_isKey (hkey : isKey key = true) : '=' ∉ key := fun hmem =>
  Bool.false_ne_true (equals_not_word.symm.trans ((isKey_iff.mp hkey).2 _ hmem))

/-- What stands before the first equals sign is the key, blanks aside, and it has to be a word. -/
theorem readAssignment_append (hfront : '=' ∉ front) (value : List Char) :
    Line.readAssignment (front ++ '=' :: value) =
      if isKey (trim front) then
        .assignment (String.ofList (trim front)) (String.ofList (unquote (trim value)))
      else .malformed := by
  have hother : ∀ c ∈ front, (c != '=') = true := by
    intro c hmem
    have hne : c ≠ '=' := fun heq => hfront (heq ▸ hmem)
    simpa using hne
  have hdrop : (front ++ '=' :: value).dropWhile (· != '=') = '=' :: value := by
    rw [List.dropWhile_append_of_pos hother]
    rfl
  have htake : (front ++ '=' :: value).takeWhile (· != '=') = front := by
    rw [List.takeWhile_append_of_pos hother, List.takeWhile_cons_of_neg (by simp), List.append_nil]
  simp only [Line.readAssignment, hdrop, htake]

/-- A word is followed by an introduction only if it is `export` and a space stands behind it. -/
theorem isPrefixOf_export_iff (hkey : isKey key = true)
    (hrest : ∀ c, rest.head? = some c → isWordChar c = false) :
    "export ".toList.isPrefixOf (key ++ rest) = true ↔
      key = "export".toList ∧ rest.head? = some ' ' := by
  have hexport : "export ".toList = "export".toList ++ [' '] := by decide
  rw [List.isPrefixOf_iff_prefix, hexport]
  constructor
  · rintro ⟨others, hothers⟩
    rw [List.append_assoc, List.singleton_append] at hothers
    -- Both sides are cut where their first word ends.
    have hword := (isKey_iff.mp hkey).2
    have hexport : ∀ c ∈ "export".toList, isWordChar c = true := by simp [isWordChar]
    have hspace : ∀ c, (' ' :: others).head? = some c → isWordChar c = false := by
      rintro c ⟨⟩
      decide
    have hkey : key = "export".toList := by
      rw [← leadingWord_append hword hrest, ← hothers, leadingWord_append hexport hspace]
    have htail : rest = ' ' :: others := by
      rw [← afterWord_append hword hrest, ← hothers, afterWord_append hexport hspace]
    exact ⟨hkey, by rw [htail, List.head?_cons]⟩
  · rintro ⟨rfl, hspace⟩
    obtain ⟨others, rfl⟩ := List.head?_eq_some_iff.mp hspace
    exact ⟨others, by rw [List.append_assoc, List.singleton_append]⟩

theorem afterExport_export (cs : List Char) : afterExport ("export ".toList ++ cs) = cs := by
  rw [afterExport, if_pos (List.isPrefixOf_iff_prefix.mpr (List.prefix_append _ _))]
  exact List.drop_left

/-- What a line says depends on what is left of it without blanks around it. -/
theorem read_congr {line other : List Char} (h : trim line = trim other) :
    Line.read line = Line.read other := by
  rw [Line.read, Line.read, h]

/-- A line with an equals sign is an assignment, if it is one at all, unless it is a comment. -/
theorem read_of_head {c : Char} (hblank : isBlank c = false) (hcomment : c ≠ '#')
    (front value : List Char) :
    Line.read (c :: front ++ '=' :: value) =
      .readAssignment (afterExport (c :: front ++ '=' :: trimEnd value)) := by
  have htrim : trim (c :: front ++ '=' :: value) = c :: front ++ '=' :: trimEnd value := by
    rw [trim, List.cons_append, trimStart_cons_of_not_blank hblank, ← List.cons_append,
      trimEnd_append_cons (by decide)]
  rw [Line.read, htrim, List.cons_append]
  split
  · next h => cases h
  · next h => exact absurd (List.cons.inj h).1 hcomment
  · rfl

/-- A word is neither blank nor a comment. -/
theorem exists_head_of_isKey (hkey : isKey key = true) :
    ∃ c rest, key = c :: rest ∧ isBlank c = false ∧ c ≠ '#' := by
  obtain ⟨hne, hword⟩ := isKey_iff.mp hkey
  obtain ⟨c, rest, rfl⟩ := List.exists_cons_of_ne_nil hne
  have hc : isWordChar c = true := hword c List.mem_cons_self
  refine ⟨c, rest, rfl, isBlank_eq_false_of_isWordChar hc, ?_⟩
  rintro rfl
  exact absurd hc (by decide)

/-- A line that holds a key, an equals sign and a text assigns to the key what is left of the text
without blanks and quotes around it. -/
theorem read_assignment (hkey : isKey key = true) (value : List Char) :
    Line.read (key ++ '=' :: value) =
      .assignment (String.ofList key) (String.ofList (unquote (trim value))) := by
  have hrest : ∀ c, ('=' :: trimEnd value).head? = some c → isWordChar c = false := by
    rintro c ⟨⟩
    exact equals_not_word
  have hplain : afterExport (key ++ '=' :: trimEnd value) = key ++ '=' :: trimEnd value := by
    rw [afterExport, if_neg]
    rw [isPrefixOf_export_iff hkey hrest]
    rintro ⟨-, ⟨⟩⟩
  obtain ⟨c, front, rfl, hblank, hcomment⟩ := exists_head_of_isKey hkey
  rw [read_of_head hblank hcomment, hplain, readAssignment_append (equals_notMem_of_isKey hkey),
    trim_of_isKey hkey, if_pos hkey, trim_trimEnd]

/-! ### What assignments have in common -/

theorem afterExport_sublist (cs : List Char) : (afterExport cs).Sublist cs := by
  rw [afterExport]
  split
  · exact List.drop_sublist _ _
  · exact List.Sublist.refl _

theorem isKey_and_sublist_of_readAssignment {key value : String}
    (h : Line.readAssignment cs = .assignment key value) :
    isKey key.toList = true ∧ value.toList.Sublist cs := by
  rw [Line.readAssignment] at h
  cases hdrop : cs.dropWhile (· != '=') with
  | nil =>
    rw [hdrop] at h
    cases h
  | cons equals rest =>
    rw [hdrop] at h
    dsimp only at h
    split at h
    · next hkey =>
      obtain ⟨rfl, rfl⟩ := Line.assignment.inj h
      have hrest : rest.Sublist cs :=
        (List.sublist_cons_self equals rest).trans (hdrop ▸ List.dropWhile_sublist _)
      rw [String.toList_ofList, String.toList_ofList]
      exact ⟨hkey, (unquote_sublist _).trans ((trim_sublist rest).trans hrest)⟩
    · cases h

/-- A key is a word that is not empty, and the characters of a value are those of its line. -/
theorem isKey_and_sublist_of_read {key value : String}
    (h : Line.read cs = .assignment key value) :
    isKey key.toList = true ∧ value.toList.Sublist cs := by
  rw [Line.read] at h
  split at h
  · cases h
  · cases h
  · obtain ⟨hkey, hvalue⟩ := isKey_and_sublist_of_readAssignment h
    exact ⟨hkey, hvalue.trans ((afterExport_sublist _).trans (trim_sublist cs))⟩

/-- No line of a text holds a line feed. -/
theorem newline_notMem_of_mem_splitOn {text line : List Char} (h : line ∈ text.splitOn '\n') :
    '\n' ∉ line := by
  induction text generalizing line with
  | nil =>
    rw [List.splitOn_nil, List.mem_singleton] at h
    simp [h]
  | cons c rest ih =>
    rw [List.splitOn_cons_eq_if_modifyHead] at h
    split at h
    · rcases List.mem_cons.mp h with rfl | hmem
      · exact List.not_mem_nil
      · exact ih hmem
    -- The character goes in front of the first line of the rest.
    · next hc =>
      obtain ⟨first, others, hsplit⟩ := List.exists_cons_of_ne_nil (List.splitOn_ne_nil '\n' rest)
      rw [hsplit, List.modifyHead_cons] at h
      rcases List.mem_cons.mp h with rfl | hmem
      · have hfirst : '\n' ∉ first := ih (hsplit ▸ List.mem_cons_self)
        have hne : '\n' ≠ c := fun heq => hc (by rw [← heq]; rfl)
        exact List.not_mem_cons_of_ne_of_not_mem hne hfirst
      · exact ih (hsplit ▸ List.mem_cons_of_mem _ hmem)

/-- What holds of the assignments of all lines holds of the variables of a document. -/
theorem get?_of_readLines {P : String → String → Prop} {lines : List (List Char)}
    (hlines : ∀ line ∈ lines, ∀ key value, Line.read line = .assignment key value → P key value)
    {number : Nat} {vars result : Variables}
    (hvars : ∀ key value, vars.get? key = some value → P key value)
    (h : readLines number vars lines = .ok result) :
    ∀ key value, result.get? key = some value → P key value := by
  induction lines generalizing number vars with
  | nil => exact Except.ok.inj h ▸ hvars
  | cons line rest ih =>
    have hrest := fun line hmem => hlines line (List.mem_cons_of_mem _ hmem)
    cases hline : Line.read line with
    | silent =>
      rw [readLines_cons_silent hline] at h
      exact ih hrest hvars h
    | assignment key value =>
      rw [readLines_cons_assignment hline] at h
      refine ih hrest (fun other text hget => ?_) h
      rw [OrderedMap.get?_insert] at hget
      split at hget
      · next heq =>
        subst heq
        exact Option.some.inj hget ▸ hlines line List.mem_cons_self _ _ hline
      · exact hvars other text hget
    | malformed =>
      rw [readLines_cons_malformed hline] at h
      cases h

end Dotenv

end Interpolation
