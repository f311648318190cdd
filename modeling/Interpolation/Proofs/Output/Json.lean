import Mathlib
import Interpolation.Output.Json

/-!
# Reading JSON back

What is written as JSON can be read back, by a reader that knows nothing of how it was written. The
reader takes an object whose members are texts, with blanks wherever the form allows them. It
knows all escapes of the form, and refuses control characters that are not escaped. Read this way,
variables that are written on many lines are the same variables in the same order.

## Main definitions

* `Json.readQuoted?` — the text before the closing quote, and what follows the quote.
* `Json.readMembers?`, `Json.readEntries?` — the members of an object, in order.

## Main results

* `Json.readQuoted?_flatMap_escaped` — an escaped text is read as the text.
* `Json.readEntries?_pretty` — written variables are read as their entries.
-/

namespace Interpolation.Json

open Text

variable {rest : List Char}

/-! ### The reader -/

/-- The character that a letter behind a backslash stands for. -/
def letterValue? : Char → Option Char
  | '"' => some '"'
  | '\\' => some '\\'
  | '/' => some '/'
  | 'b' => some '\x08'
  | 'f' => some '\x0c'
  | 'n' => some '\n'
  | 'r' => some '\r'
  | 't' => some '\t'
  | _ => none

/-- The text before the closing quote, and what follows the quote. -/
def readQuoted? : List Char → Option (List Char × List Char)
  | [] => none
  | '"' :: rest => some ([], rest)
  | '\\' :: 'u' :: a :: b :: c :: d :: rest =>
    match ofCodePoint? [a, b, c, d] with
    | some c => (readQuoted? rest).map (Prod.map (c :: ·) id)
    | none => none
  | '\\' :: letter :: rest =>
    match letterValue? letter with
    | some c => (readQuoted? rest).map (Prod.map (c :: ·) id)
    | none => none
  | c :: rest => if c.toNat < 0x20 then none else (readQuoted? rest).map (Prod.map (c :: ·) id)

/-- The blanks between the parts of a text. -/
def blanks : List Char := [' ', '\t', '\n', '\r']

/-- A text without the blanks at its start. -/
def skipBlank (cs : List Char) : List Char := cs.dropWhile (blanks.contains ·)

/-- A text in quotes behind blanks, and what follows it. -/
def readString? (cs : List Char) : Option (String × List Char) :=
  match skipBlank cs with
  | '"' :: rest => (readQuoted? rest).map fun taken => (String.ofList taken.1, taken.2)
  | _ => none

/-- A name, a colon and a text, and what follows them. -/
def readMember? (cs : List Char) : Option ((String × String) × List Char) :=
  match readString? cs with
  | none => none
  | some (name, rest) =>
    match skipBlank rest with
    | ':' :: rest => (readString? rest).map fun taken => ((name, taken.1), taken.2)
    | _ => none

/-- The members behind an opening brace, to the end of the text. -/
def readMembers? (cs : List Char) : Option (List (String × String)) :=
  match readMember? cs with
  | none => none
  | some (member, rest) =>
    match skipBlank rest with
    | ',' :: others =>
      if others.length < cs.length then (readMembers? others).map (member :: ·) else none
    | '\x7d' :: others => if (skipBlank others).isEmpty then some [member] else none
    | _ => none
termination_by cs.length

/-- The entries of an object whose members are texts. -/
def readEntries? (text : String) : Option (List (String × String)) :=
  match skipBlank text.toList with
  | '\x7b' :: rest =>
    match skipBlank rest with
    | '\x7d' :: others => if (skipBlank others).isEmpty then some [] else none
    | _ => readMembers? rest
  | _ => none

/-! ### Texts -/

/-- A character is read from what it is written as. -/
theorem readQuoted?_escaped (c : Char) (rest : List Char) :
    readQuoted? (escaped c ++ rest) = (readQuoted? rest).map (Prod.map (c :: ·) id) := by
  unfold escaped
  split
  · rfl
  · rfl
  · rfl
  · rfl
  · rfl
  · rfl
  · rfl
  · next hquote hbackslash _ _ _ _ _ =>
    split
    · next hcontrol =>
      have hread : ofCodePoint? (hexDigits lowerHexDigit 4 c.toNat) = some c :=
        ofCodePoint?_hexDigits (fun n => hexValue?_lowerHexDigit)
          (hcontrol.trans (by decide))
      simp only [hexDigits, List.nil_append, List.cons_append] at hread ⊢
      simp only [readQuoted?, hread]
    · next hprintable =>
      rw [List.singleton_append, readQuoted?, if_neg hprintable]
      · exact hquote
      · exact fun _ _ _ _ _ hc _ => hbackslash hc
      · exact fun _ _ hc _ => hbackslash hc

/-- An escaped text is read as the text, up to the closing quote. -/
theorem readQuoted?_flatMap_escaped (cs rest : List Char) :
    readQuoted? (cs.flatMap escaped ++ '"' :: rest) = some (cs, rest) := by
  induction cs with
  | nil => rw [List.flatMap_nil, List.nil_append, readQuoted?]
  | cons c cs ih =>
    rw [List.flatMap_cons, List.append_assoc, readQuoted?_escaped, ih]
    rfl

theorem toList_quoted (text : String) :
    (quoted text).toList = '"' :: text.toList.flatMap escaped ++ ['"'] := by
  rw [quoted, String.toList_append, String.toList_append]
  simp

/-- Blanks before a mark are passed over. -/
theorem skipBlank_append_cons {gap : List Char} {mark : Char} (hgap : ∀ c ∈ gap, c ∈ blanks)
    (hmark : mark ∉ blanks) : skipBlank (gap ++ mark :: rest) = mark :: rest := by
  rw [skipBlank, List.dropWhile_append_of_pos fun c hc => List.contains_iff_mem.mpr (hgap c hc)]
  exact List.dropWhile_cons_of_neg fun h => hmark (List.contains_iff_mem.mp h)

theorem skipBlank_cons {mark : Char} (hmark : mark ∉ blanks) (rest : List Char) :
    skipBlank (mark :: rest) = mark :: rest :=
  skipBlank_append_cons (List.forall_mem_nil _) hmark

/-- A text in quotes is read behind blanks. -/
theorem readString?_quoted {gap : List Char} (hgap : ∀ c ∈ gap, c ∈ blanks) (text : String)
    (rest : List Char) :
    readString? (gap ++ ((quoted text).toList ++ rest)) = some (text, rest) := by
  have hskip : skipBlank (gap ++ ((quoted text).toList ++ rest)) =
      '"' :: (text.toList.flatMap escaped ++ '"' :: rest) := by
    rw [toList_quoted, List.append_assoc, List.cons_append, skipBlank_append_cons hgap (by decide)]
    rfl
  rw [readString?, hskip]
  simp only [readQuoted?_flatMap_escaped, Option.map_some, String.ofList_toList]

/-! ### Members -/

/-- A member on a line of its own, moved in by two blanks. -/
def memberLine (entry : String × String) : List Char :=
  ['\n', ' ', ' '] ++ ((quoted entry.1).toList ++ ':' :: ' ' :: (quoted entry.2).toList)

theorem readMember?_memberLine (entry : String × String) (rest : List Char) :
    readMember? (memberLine entry ++ rest) = some (entry, rest) := by
  have hname : readString? (memberLine entry ++ rest) =
      some (entry.1, ':' :: ' ' :: ((quoted entry.2).toList ++ rest)) := by
    rw [memberLine, List.append_assoc, List.append_assoc, readString?_quoted (by simp [blanks])]
    rfl
  have hcolon : skipBlank (':' :: ' ' :: ((quoted entry.2).toList ++ rest)) =
      ':' :: ' ' :: ((quoted entry.2).toList ++ rest) :=
    skipBlank_cons (by decide) _
  have htext : readString? (' ' :: ((quoted entry.2).toList ++ rest)) = some (entry.2, rest) :=
    readString?_quoted (List.forall_mem_singleton.mpr (by decide)) entry.2 rest
  rw [readMember?, hname]
  simp only [hcolon, htext, Option.map_some]

/-- Members with commas between them are read in order, to the closing brace. -/
theorem readMembers?_intercalate (entry : String × String) (entries : List (String × String)) :
    readMembers? ([','].intercalate ((entry :: entries).map memberLine) ++ ['\n', '\x7d']) =
      some (entry :: entries) := by
  induction entries generalizing entry with
  | nil =>
    rw [List.map_singleton, List.intercalate_singleton, readMembers?, readMember?_memberLine]
    rfl
  | cons next entries ih =>
    -- Behind the first member stands a comma, and behind the comma what the others are written as.
    let others := [','].intercalate ((next :: entries).map memberLine) ++ ['\n', '\x7d']
    have hwhole : [','].intercalate ((entry :: next :: entries).map memberLine) ++ ['\n', '\x7d'] =
        memberLine entry ++ ',' :: others := by
      rw [List.map_cons, List.map_cons, List.intercalate_cons_cons, List.append_assoc,
        List.append_assoc, ← List.map_cons]
      rfl
    have hshorter (rest : List Char) : rest.length < (memberLine entry ++ ',' :: rest).length := by
      rw [List.length_append, List.length_cons]
      omega
    rw [hwhole, readMembers?, readMember?_memberLine]
    simp only [skipBlank_cons (show ',' ∉ blanks by decide), if_pos (hshorter others)]
    rw [ih, Option.map_some]

theorem toList_pretty (values : Variables) :
    (pretty (.ofVariables values)).toList =
      if values.entries.isEmpty then ['\x7b', '\x7d']
      else '\x7b' :: ([','].intercalate (values.entries.map memberLine) ++ ['\n', '\x7d']) := by
  have hparts : (Listing.ofVariables values).map (fun entry =>
      quoted entry.1 ++ ": " ++ prettyContent 1 entry.2) =
        values.entries.map fun entry => quoted entry.1 ++ ": " ++ quoted entry.2 := by
    rw [Listing.ofVariables, List.map_map]
    rfl
  rw [pretty, hparts, block, List.isEmpty_map]
  split
  · rfl
  · have hline : ∀ entry : String × String,
        ("\n" ++ String.ofList (List.replicate (2 * 1) ' ') ++
          (quoted entry.1 ++ ": " ++ quoted entry.2)).toList = memberLine entry := by
      intro entry
      simp [memberLine, String.toList_append]
    rw [String.toList_append, String.toList_append, String.toList_append, String.toList_intercalate,
      List.map_map, List.map_map]
    simp only [Function.comp_def, hline]
    simp

/-- The first thing behind an opening brace is the quote of a name. -/
theorem exists_skipBlank_intercalate (entry : String × String) (entries : List (String × String))
    (rest : List Char) :
    ∃ tail, skipBlank ([','].intercalate ((entry :: entries).map memberLine) ++ rest) =
      '"' :: tail := by
  obtain ⟨others, hothers⟩ : ∃ others,
      [','].intercalate ((entry :: entries).map memberLine) = memberLine entry ++ others := by
    cases entries with
    | nil => exact ⟨[], by rw [List.map_singleton, List.intercalate_singleton, List.append_nil]⟩
    | cons next entries =>
      rw [List.map_cons, List.map_cons, List.intercalate_cons_cons, List.append_assoc]
      exact ⟨_, rfl⟩
  rw [hothers, memberLine, toList_quoted, List.append_assoc, List.append_assoc]
  exact ⟨_, skipBlank_append_cons (by simp [blanks]) (by decide)⟩

/-- **What is written as JSON can be read back.** An object with one member on a line is read as
the names and texts of the variables, in order. -/
theorem readEntries?_pretty (values : Variables) :
    readEntries? (pretty (.ofVariables values)) = some values.entries := by
  rw [readEntries?, toList_pretty]
  cases hentries : values.entries with
  | nil => rfl
  | cons entry entries =>
    obtain ⟨tail, htail⟩ := exists_skipBlank_intercalate entry entries ['\n', '\x7d']
    rw [List.isEmpty_cons, if_neg Bool.false_ne_true, skipBlank_cons (by decide)]
    simp only [htail]
    exact readMembers?_intercalate entry entries

end Interpolation.Json
