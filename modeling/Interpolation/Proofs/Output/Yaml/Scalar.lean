import Mathlib
import Interpolation.Output.Yaml.Scalar
import Interpolation.Proofs.Output.Yaml.Reader

/-!
# Reading scalars back

A text is written in the style in which it can be read back: whatever its characters are, a reader
takes what was written for the text, and stops where it ends. For each style this needs what the
choice of the style has checked. A plain text holds no line break and no mark of structure; in
single quotes no line break stands before a blank; a block has no blank before a line break. Only
double quotes can hold any text.

## Main results

* `Yaml.readPlain_append`, `Yaml.readSingle?_indented`, `Yaml.readDouble?_flatMap_escaped`,
  `Yaml.readLines?_indented` — the four styles.
* `Yaml.readInline?_scalar` — a text on one line is read as the text.
* `Yaml.readValue?_scalarLine` — any text is read, with its line end.
-/

namespace Interpolation.Yaml

open Text

variable {cs rest : List Char} {c : Char}

/-! ### Characters -/

theorem isBreak_eq_true_iff : isBreak c = true ↔ IsKept c ∨ c = '\r' ∨ c = '\x85' := by
  rw [isBreak, List.contains_iff_mem]
  simp only [List.mem_cons, List.not_mem_nil, or_false, IsKept]
  tauto

/-- A character that is written as itself is taken as it is. -/
theorem not_isChanged_of_isPrintable (h : isPrintable c = true) : ¬IsChanged c := by
  rintro (rfl | rfl | rfl) <;> exact absurd h (by decide)

/-- A line break that is written as itself is kept. -/
theorem isBreak_eq_of_isPrintable (h : isPrintable c = true) :
    isBreak c = decide (IsKept c) := by
  have hnot := not_isChanged_of_isPrintable h
  rw [Bool.eq_iff_iff, isBreak_eq_true_iff, decide_eq_true_eq]
  refine or_iff_left ?_
  rintro (rfl | rfl)
  · exact hnot (.inr (.inl rfl))
  · exact hnot (.inr (.inr rfl))

theorem toNat_lt_of_not_isPrintable (h : isPrintable c = false) : c.toNat < 0x10000 := by
  by_contra hlarge
  have hlist : ['\ufeff', '\ufffe', '\uffff'].contains c = false := by
    rw [Bool.eq_false_iff, Ne, List.contains_iff_mem]
    intro hmem
    simp only [List.mem_cons, List.not_mem_nil, or_false] at hmem
    rcases hmem with rfl | rfl | rfl <;> exact hlarge (by decide)
  have hle : '\xa0' ≤ c := by
    change (0xa0 : Nat) ≤ c.toNat
    omega
  have hprintable : isPrintable c = true := by
    rw [isPrintable, hlist, decide_eq_true hle]
    simp
  rw [h] at hprintable
  cases hprintable

/-! ### Double quotes -/

theorem letterValue?_of_mem_escapeLetters :
    ∀ entry ∈ escapeLetters,
      letterValue? entry.2 = some entry.1 ∧ entry.2 ≠ 'x' ∧ entry.2 ≠ 'u' := by
  simp [escapeLetters, letterValue?]

/-- The characters that have no letter are neither marks of the quotes nor line breaks. -/
theorem lookup_escapeLetters_eq_none (h : escapeLetters.lookup c = none) :
    c ≠ '"' ∧ c ≠ '\\' ∧ ¬IsKept c ∧ ¬IsChanged c := by
  refine ⟨?_, ?_, ?_, ?_⟩
  · rintro rfl
    exact absurd h (by decide)
  · rintro rfl
    exact absurd h (by decide)
  · rintro (rfl | rfl | rfl) <;> exact absurd h (by decide)
  · rintro (rfl | rfl | rfl) <;> exact absurd h (by decide)

/-- A character is read from what it is written as. -/
theorem readDouble?_escaped (c : Char) (rest : List Char) :
    readDouble? (escaped c ++ rest) = (readDouble? rest).map (Prod.map (c :: ·) id) := by
  rw [escaped]
  cases hlookup : escapeLetters.lookup c with
  | some letter =>
    obtain ⟨before, after, hsplit, -⟩ := List.lookup_eq_some_iff.mp hlookup
    obtain ⟨hvalue, hx, hu⟩ :=
      letterValue?_of_mem_escapeLetters (c, letter) (hsplit ▸ List.mem_append_cons_self)
    simp only [List.cons_append, List.nil_append]
    rw [readDouble?]
    · simp only [hvalue]
    · exact fun _ _ _ h _ => hx h
    · exact fun _ _ _ _ _ h _ => hu h
  | none =>
    obtain ⟨hquote, hbackslash, hkept, hchanged⟩ := lookup_escapeLetters_eq_none hlookup
    simp only
    split
    · rw [List.singleton_append, readDouble?, if_neg (not_or.mpr ⟨hkept, hchanged⟩)]
      · exact hquote
      · exact fun _ _ _ h _ => hbackslash h
      · exact fun _ _ _ _ _ h _ => hbackslash h
      · exact fun _ _ h _ => hbackslash h
    · next hprintable =>
      split
      · next hsmall =>
        have hread : ofCodePoint? (hexDigits upperHexDigit 2 c.toNat) = some c :=
          ofCodePoint?_hexDigits (fun n => hexValue?_upperHexDigit) hsmall
        simp only [hexDigits, List.nil_append, List.cons_append] at hread ⊢
        simp only [readDouble?, hread]
      · have hlarge := toNat_lt_of_not_isPrintable (Bool.not_eq_true _ ▸ hprintable)
        have hread : ofCodePoint? (hexDigits upperHexDigit 4 c.toNat) = some c :=
          ofCodePoint?_hexDigits (fun n => hexValue?_upperHexDigit) hlarge
        simp only [hexDigits, List.nil_append, List.cons_append] at hread ⊢
        simp only [readDouble?, hread]

/-- Any text is read as it was, up to the closing double quote. -/
theorem readDouble?_flatMap_escaped (cs rest : List Char) :
    readDouble? (cs.flatMap escaped ++ '"' :: rest) = some (cs, rest) := by
  induction cs with
  | nil => rw [List.flatMap_nil, List.nil_append, readDouble?]
  | cons c cs ih =>
    rw [List.flatMap_cons, List.append_assoc, readDouble?_escaped, ih]
    rfl

/-! ### Lines -/

theorem indented_of_break {fresh : Bool} (hbreak : isBreak c = true) (indent : Nat) :
    indented indent fresh (c :: cs) = c :: indented indent true cs := by
  rw [indented, if_pos hbreak]

theorem indented_of_not_break {fresh : Bool} (hbreak : isBreak c = false) (indent : Nat) :
    indented indent fresh (c :: cs) =
      (if fresh then List.replicate indent ' ' else []) ++ c :: indented indent false cs := by
  rw [indented, if_neg (Bool.eq_false_iff.mp hbreak)]

theorem holdsPair_cons (first second : Char → Bool) (c : Char) (cs : List Char) :
    holdsPair first second (c :: cs) =
      (first c && cs.head?.any second || holdsPair first second cs) := by
  cases cs with
  | nil => simp [holdsPair]
  | cons d cs => simp [holdsPair]

/-! ### Single quotes -/

/-- The blanks before a line say nothing. -/
theorem readSingle?_margin (fresh : Bool) (indent : Nat) (rest : List Char) :
    readSingle? fresh ((if fresh then List.replicate indent ' ' else []) ++ rest) =
      readSingle? fresh rest := by
  cases fresh with
  | false => rfl
  | true =>
    rw [if_pos rfl]
    induction indent with
    | zero => rfl
    | succ indent ih =>
      rw [List.replicate_succ, List.cons_append, readSingle?, if_neg (by decide),
        if_pos (by decide), ih]
      · exact fun _ h _ => absurd h (by decide)
      · decide

theorem readSingle?_cons {fresh : Bool} (hquote : c ≠ '\'') (hfeed : c ≠ '\n')
    (hchanged : ¬IsChanged c) (hblank : fresh = true → c ≠ ' ') (rest : List Char) :
    readSingle? fresh (c :: rest) =
      (readSingle? (decide (IsKept c)) rest).map (Prod.map (c :: ·) id) := by
  rw [readSingle?, if_neg (not_or.mpr ⟨hfeed, hchanged⟩), if_neg fun h => hblank h.1 h.2]
  · exact fun _ h _ => hquote h
  · exact hquote

/-- A text in single quotes is read as the text if no line break in it stands before a blank: such a
blank would pass for one of those that the line is moved in by. -/
theorem readSingle?_indented (fresh : Bool) (indent : Nat) (hprintable : cs.all isPrintable = true)
    (hfeed : '\n' ∉ cs) (hpair : holdsPair isBreak (· == ' ') cs = false)
    (hblank : fresh = true → cs.head? ≠ some ' ') (hrest : rest.head? ≠ some '\'') :
    readSingle? fresh (indented indent fresh (doubled cs ++ ['\'']) ++ rest) = some (cs, rest) := by
  induction cs generalizing fresh with
  | nil =>
    change readSingle? fresh (indented indent fresh ['\''] ++ rest) = _
    rw [indented_of_not_break (by decide), List.append_assoc, readSingle?_margin, indented,
      List.cons_append, List.nil_append, readSingle?]
    rintro tail rfl
    exact hrest rfl
  | cons c cs ih =>
    rw [List.all_cons, Bool.and_eq_true] at hprintable
    rw [List.mem_cons, not_or] at hfeed
    rw [holdsPair_cons, Bool.or_eq_false_iff] at hpair
    by_cases hquote : c = '\''
    · subst hquote
      -- A quote is written twice, and the second stands on the line of the first.
      have hnext := ih false hprintable.2 hfeed.2 hpair.2 nofun
      change readSingle? fresh
        (indented indent fresh ('\'' :: '\'' :: (doubled cs ++ ['\''])) ++ rest) = _
      rw [indented_of_not_break (by decide), indented_of_not_break (by decide), List.append_assoc,
        readSingle?_margin, if_neg Bool.false_ne_true, List.nil_append, List.cons_append,
        List.cons_append, readSingle?, hnext]
      rfl
    · have hdoubled : doubled (c :: cs) ++ ['\''] = c :: (doubled cs ++ ['\'']) := by
        rw [doubled, List.flatMap_cons, if_neg (by simpa using hquote)]
        rfl
      have hcons (fresh : Bool) (hblank : fresh = true → c ≠ ' ') :=
        readSingle?_cons hquote (Ne.symm hfeed.1) (not_isChanged_of_isPrintable hprintable.1) hblank
      have hkept : isBreak c = decide (IsKept c) := isBreak_eq_of_isPrintable hprintable.1
      have hblank' : fresh = true → c ≠ ' ' := fun h hc => hblank h (congrArg some hc)
      rw [hdoubled]
      cases hbreak : isBreak c with
      | true =>
        have hnext := ih true hprintable.2 hfeed.2 hpair.2 fun _ hhead => by
          simp [hbreak, hhead] at hpair
        rw [indented_of_break hbreak, List.cons_append, hcons fresh hblank', ← hkept, hbreak, hnext]
        rfl
      | false =>
        have hnext := ih false hprintable.2 hfeed.2 hpair.2 nofun
        rw [indented_of_not_break hbreak, List.append_assoc, readSingle?_margin, List.cons_append,
          hcons fresh hblank', ← hkept, hbreak, hnext]
        rfl

/-! ### Blocks -/

/-- Whether a line begins behind a text, if it began before the text as is said. -/
def endsFresh (fresh : Bool) (cs : List Char) : Bool := (cs.getLast?.map isBreak).getD fresh

theorem endsFresh_cons (fresh : Bool) (c : Char) (cs : List Char) :
    endsFresh fresh (c :: cs) = endsFresh (isBreak c) cs := by
  rw [endsFresh, endsFresh, List.getLast?_cons]
  cases cs.getLast? <;> rfl

theorem readLines?_break {indent left : Nat} (hchanged : ¬IsChanged c) (hkept : IsKept c)
    (rest : List Char) :
    readLines? indent left (c :: rest) =
      (readLines? indent indent rest).map (Prod.map (c :: ·) id) := by
  cases left <;> rw [readLines?, if_neg hchanged, if_pos hkept]

theorem readLines?_inside {indent : Nat} (hchanged : ¬IsChanged c) (hkept : ¬IsKept c)
    (rest : List Char) :
    readLines? indent 0 (c :: rest) = (readLines? indent 0 rest).map (Prod.map (c :: ·) id) := by
  rw [readLines?, if_neg hchanged, if_neg hkept]

theorem readLines?_margin (indent left : Nat) (rest : List Char) :
    readLines? indent left (List.replicate left ' ' ++ rest) = readLines? indent 0 rest := by
  induction left with
  | zero => rfl
  | succ left ih =>
    rw [List.replicate_succ, List.cons_append, readLines?, if_neg (by decide), if_neg (by decide)]
    exact ih

/-- Lines that are moved in are read as the text, and reading goes on where they end. -/
theorem readLines?_indented (fresh : Bool) (indent : Nat) (hprintable : cs.all isPrintable = true) :
    readLines? indent (if fresh then indent else 0) (indented indent fresh cs ++ rest) =
      (readLines? indent (if endsFresh fresh cs then indent else 0) rest).map
        (Prod.map (cs ++ ·) id) := by
  induction cs generalizing fresh with
  | nil =>
    change readLines? indent (if fresh then indent else 0) rest = _
    rw [show endsFresh fresh [] = fresh from rfl]
    cases readLines? indent (if fresh then indent else 0) rest <;> rfl
  | cons c cs ih =>
    rw [List.all_cons, Bool.and_eq_true] at hprintable
    have hchanged := not_isChanged_of_isPrintable hprintable.1
    have hkept := isBreak_eq_of_isPrintable hprintable.1
    have hkeep (taken : Option (List Char × List Char)) :
        (taken.map (Prod.map (cs ++ ·) id)).map (Prod.map (c :: ·) id) =
          taken.map (Prod.map (c :: cs ++ ·) id) := Option.map_map _ _ _
    rw [endsFresh_cons]
    cases hbreak : isBreak c with
    | true =>
      rw [hbreak] at hkept
      rw [indented_of_break hbreak, List.cons_append,
        readLines?_break hchanged (of_decide_eq_true hkept.symm), ← hkeep, ← ih true hprintable.2,
        if_pos rfl]
    | false =>
      rw [hbreak] at hkept
      have hstart : readLines? indent (if fresh then indent else 0)
          ((if fresh then List.replicate indent ' ' else []) ++
            c :: (indented indent false cs ++ rest)) =
            readLines? indent 0 (c :: (indented indent false cs ++ rest)) := by
        cases fresh with
        | false => rfl
        | true => exact readLines?_margin indent indent _
      rw [indented_of_not_break hbreak, List.append_assoc, List.cons_append, hstart,
        readLines?_inside hchanged (of_decide_eq_false hkept.symm), ← hkeep,
        ← ih false hprintable.2, if_neg Bool.false_ne_true]

/-- What stands at the margin: the end, or a character that is neither a blank nor a line break. -/
def AtMargin (rest : List Char) : Prop :=
  ∀ c, rest.head? = some c → c ≠ ' ' ∧ ¬IsKept c ∧ ¬IsChanged c

/-- A line that is not moved in ends a block. -/
theorem readLines?_atMargin {indent : Nat} (hindent : indent ≠ 0) (h : AtMargin rest) :
    readLines? indent indent rest = some ([], rest) := by
  obtain ⟨n, rfl⟩ := Nat.exists_eq_succ_of_ne_zero hindent
  cases rest with
  | nil => rw [readLines?]
  | cons c rest =>
    obtain ⟨hblank, hkept, hchanged⟩ := h c rfl
    rw [readLines?, if_neg hchanged, if_neg hkept]
    exact (if_neg hblank).trans (if_pos rfl)

/-! ### Headers -/

theorem readIndent_header (body : List Char) :
    readIndent (header cs ++ '\n' :: body) =
      (if cs.head?.any fun c => c == ' ' || isBreak c then some 2 else none,
        chomping cs ++ '\n' :: body) := by
  rw [header]
  split
  · rfl
  · have hsign : chomping cs = ['-'] ∨ chomping cs = ['+'] ∨ chomping cs = [] := by
      rw [chomping]
      split
      · exact .inl rfl
      · split
        · exact .inr (.inl rfl)
        · exact .inr (.inr rfl)
    rcases hsign with h | h | h <;> rw [h] <;> rfl

/-- Line breaks at the end of a text are stripped, and no others. -/
theorem stripped_append {kept : List Char} (hkept : ∀ c ∈ kept, IsKept c)
    (hlast : ∀ c, cs.getLast? = some c → ¬IsKept c) : stripped (cs ++ kept) = cs := by
  induction kept using List.reverseRecOn with
  | nil =>
    rw [List.append_nil, stripped]
    cases cs using List.reverseRecOn with
    | nil => rfl
    | append_singleton before last =>
      exact List.rdropWhile_concat_neg _ _ _ (by simpa using hlast last (by simp))
  | append_singleton kept c ih =>
    rw [← List.append_assoc, stripped,
      List.rdropWhile_concat_pos _ _ _ (by simpa using hkept c (by simp))]
    exact ih fun d hd => hkept d (List.mem_append_left _ hd)

/-- The line end that a block adds to a text without one. -/
def addedEnd (cs : List Char) : List Char := if cs.getLast?.any isBreak then [] else ['\n']

/-- The sign of a header says what must become of the line breaks at the end. -/
theorem readChomping_chomping (hprintable : cs.all isPrintable = true) (body : List Char) :
    ∃ chomp, readChomping (chomping cs ++ '\n' :: body) = (chomp, '\n' :: body) ∧
      chomp (cs ++ addedEnd cs) = cs := by
  have hbreak : ∀ c ∈ cs, isBreak c = decide (IsKept c) := fun c hmem =>
    isBreak_eq_of_isPrintable (List.all_eq_true.mp hprintable c hmem)
  rw [chomping, addedEnd]
  cases hlast : cs.getLast?.any isBreak with
  | false =>
    refine ⟨stripped, rfl, stripped_append (by simp [IsKept]) fun c hc hkept => ?_⟩
    rw [hc, Option.any_some, hbreak c (List.mem_of_getLast? hc), decide_eq_true hkept] at hlast
    cases hlast
  | true =>
    rw [if_pos rfl, List.append_nil]
    cases hmany : cs.dropLast.getLast?.all isBreak with
    | true => exact ⟨id, rfl, rfl⟩
    | false =>
      refine ⟨clipped, rfl, ?_⟩
      cases cs using List.reverseRecOn with
      | nil => cases hlast
      | append_singleton before last =>
        rw [List.dropLast_concat] at hmany
        rw [List.getLast?_concat, Option.any_some, hbreak last (by simp)] at hlast
        have hbefore : stripped (before ++ [last]) = before := by
          refine stripped_append (by simpa using of_decide_eq_true hlast) fun c hc hkept => ?_
          rw [hc, Option.all_some, hbreak c (by simp [List.mem_of_getLast? hc]),
            decide_eq_true hkept] at hmany
          cases hmany
        rw [clipped, hbefore, List.drop_left]
        rfl

/-- The first line of a block shows how far its lines are moved in, unless it begins with a blank or
is empty. -/
theorem length_takeWhile_indented (indent : Nat) (hne : cs ≠ [])
    (hhead : (cs.head?.any fun c => c == ' ' || isBreak c) = false) :
    ((indented indent true cs ++ rest).takeWhile (· == ' ')).length = indent := by
  obtain ⟨c, cs, rfl⟩ := List.exists_cons_of_ne_nil hne
  rw [List.head?_cons, Option.any_some, Bool.or_eq_false_iff] at hhead
  rw [indented_of_not_break hhead.2, if_pos rfl, List.append_assoc,
    List.takeWhile_append_of_pos (by simp), List.cons_append,
    List.takeWhile_cons_of_neg (by simpa using hhead.1), List.append_nil, List.length_replicate]

/-- Behind a block and the line end that it needs, reading stops at the next line. -/
theorem readLines?_addedEnd {indent : Nat} (hindent : indent ≠ 0) (hne : cs ≠ [])
    (hrest : AtMargin rest) :
    readLines? indent (if endsFresh true cs then indent else 0) (addedEnd cs ++ rest) =
      some (addedEnd cs, rest) := by
  have hmargin := readLines?_atMargin hindent hrest
  rw [endsFresh, addedEnd, List.getLast?_eq_getLast_of_ne_nil hne, Option.map_some,
    Option.getD_some, Option.any_some]
  cases isBreak (cs.getLast hne) with
  | true => exact hmargin
  | false =>
    change readLines? indent 0 ('\n' :: rest) = _
    rw [readLines?_break (by decide) (by decide), hmargin]
    rfl

/-- A block that is moved in by two blanks is read as its text. -/
theorem readBlock?_header (hprintable : cs.all isPrintable = true) (hne : cs ≠ [])
    (hrest : AtMargin rest) :
    readBlock? (header cs ++ '\n' :: (indented 2 true cs ++ (addedEnd cs ++ rest))) =
      some (cs, rest) := by
  obtain ⟨chomp, hchomp, htext⟩ := readChomping_chomping hprintable
    (indented 2 true cs ++ (addedEnd cs ++ rest))
  have hindent : (if cs.head?.any fun c => c == ' ' || isBreak c then some 2 else none).getD
      ((indented 2 true cs ++ (addedEnd cs ++ rest)).takeWhile (· == ' ')).length = 2 := by
    cases hhead : cs.head?.any fun c => c == ' ' || isBreak c with
    | true => rfl
    | false => exact length_takeWhile_indented 2 hne hhead
  have hlines : readLines? 2 2 (indented 2 true cs ++ (addedEnd cs ++ rest)) =
      some (cs ++ addedEnd cs, rest) := by
    refine (readLines?_indented true 2 hprintable).trans ?_
    rw [readLines?_addedEnd (by decide) hne hrest]
    rfl
  rw [readBlock?, readIndent_header]
  simp only [hchomp, hindent, hlines]
  rw [Option.map_some, Prod.map_apply, htext]
  rfl

/-! ### Plain texts -/

/-- What follows a text on one line: the colon of a name, or the line end of a scalar. -/
def EndsInline (rest : List Char) : Prop :=
  (∃ tail, rest = ':' :: ' ' :: tail) ∨ ∃ tail, rest = '\n' :: tail

/-- Behind a text that goes on, no gap comes about. -/
theorem atGap_append (hprintable : cs.all isPrintable = true) (hbreak : cs.any isBreak = false)
    (h : atBlankOrEnd cs = false) (rest : List Char) : atGap (cs ++ rest) = false := by
  cases cs with
  | nil => cases h
  | cons c cs =>
    rw [List.all_cons, Bool.and_eq_true] at hprintable
    rw [List.any_cons, Bool.or_eq_false_iff] at hbreak
    rw [atGap, List.cons_append, List.head?_cons, Option.all_some,
      ← isBreak_eq_of_isPrintable hprintable.1, hbreak.1, Bool.or_false]
    exact h

/-- A mark of structure that is not in a text does not come about by what follows the text. -/
theorem endsPlain_append (hprintable : (c :: cs).all isPrintable = true)
    (hbreak : (c :: cs).any isBreak = false) (hmark : holdsMark (c :: cs) = false)
    (hlast : (c :: cs).getLast? ≠ some ' ') (rest : List Char) :
    endsPlain c (cs ++ rest) = false := by
  rw [List.any_cons, Bool.or_eq_false_iff] at hbreak
  rw [holdsMark, Bool.or_eq_false_iff, Bool.or_eq_false_iff] at hmark
  obtain ⟨⟨hcolon, hsign⟩, -⟩ := hmark
  rw [List.all_cons, Bool.and_eq_true] at hprintable
  have hkept : decide (IsKept c) = false :=
    (isBreak_eq_of_isPrintable hprintable.1).symm.trans hbreak.1
  have hchanged : decide (IsChanged c) = false :=
    decide_eq_false (not_isChanged_of_isPrintable hprintable.1)
  -- Behind a colon and behind a blank stands a character of the text.
  have hgap : (c == ':' && atGap (cs ++ rest)) = false := by
    cases hc : c == ':' with
    | false => rfl
    | true =>
      rw [hc, Bool.true_and] at hcolon
      exact atGap_append hprintable.2 hbreak.2 hcolon rest
  have hnumber : (c == ' ' && (cs ++ rest).head? == some '#') = false := by
    cases hc : c == ' ' with
    | false => rfl
    | true =>
      rw [hc, Bool.true_and] at hsign
      cases cs with
      | nil => exact absurd (congrArg some (beq_iff_eq.mp hc)) hlast
      | cons next cs => simpa using hsign
  rw [endsPlain, hkept, hchanged, hgap, hnumber]
  rfl

/-- A text without marks of structure is read to its end. -/
theorem readPlain_append (hprintable : cs.all isPrintable = true) (hbreak : cs.any isBreak = false)
    (hmark : holdsMark cs = false) (hlast : cs.getLast? ≠ some ' ') (hrest : EndsInline rest) :
    readPlain (cs ++ rest) = (cs, rest) := by
  induction cs with
  | nil => rcases hrest with ⟨tail, rfl⟩ | ⟨tail, rfl⟩ <;> rfl
  | cons c cs ih =>
    have hgoes := endsPlain_append hprintable hbreak hmark hlast rest
    rw [List.all_cons, Bool.and_eq_true] at hprintable
    rw [List.any_cons, Bool.or_eq_false_iff] at hbreak
    rw [holdsMark, Bool.or_eq_false_iff] at hmark
    have hlast' : cs.getLast? ≠ some ' ' := fun h => hlast (by rw [List.getLast?_cons, h]; rfl)
    rw [List.cons_append, readPlain, if_neg (Bool.eq_false_iff.mp hgoes),
      ih hprintable.2 hbreak.2 hmark.2 hlast']
    rfl

/-! ### Styles -/

/-- What the choice of a style has checked of a text. -/
def Style.Suits (cs : List Char) : Style → Prop
  | .plain => cs.all isPrintable = true ∧ denotesOther cs = false ∧ readsAsStructure cs = false
  | .single => cs.all isPrintable = true ∧ '\n' ∉ cs ∧ holdsPair isBreak (· == ' ') cs = false
  | .block => cs.all isPrintable = true ∧ '\n' ∈ cs
  | .double => True

/-- The style in which a text is written suits it. -/
theorem suits_style (cs : List Char) : (style cs).Suits cs := by
  rw [style]
  split
  · trivial
  next hdouble =>
  have hprintable : cs.all isPrintable = true := by
    by_contra hnot
    exact hdouble (by rw [Bool.eq_false_iff.mpr hnot]; rfl)
  split
  next hfeed =>
    split
    · trivial
    · exact ⟨hprintable, List.contains_iff_mem.mp hfeed⟩
  next hfeed =>
  split
  · trivial
  next hpair =>
  split
  · exact ⟨hprintable, mt List.contains_iff_mem.mpr hfeed, Bool.eq_false_iff.mpr hpair⟩
  next hplain =>
  obtain ⟨hother, hstructure⟩ := Bool.or_eq_false_iff.mp (Bool.eq_false_iff.mpr hplain)
  exact ⟨hprintable, hother, hstructure⟩

/-- The empty text denotes something else, so it is not written plainly. -/
theorem Style.Suits.ne_nil (h : Style.plain.Suits cs) : cs ≠ [] := by
  rintro rfl
  exact absurd h.2.1 (by decide)

/-! ### Scalars -/

/-- A text that does not begin like a structure begins a plain text, whatever follows it. -/
theorem startsPlain_append (hprintable : cs.all isPrintable = true) (hne : cs ≠ [])
    (h : readsAsStructure cs = false) (rest : List Char) : startsPlain (cs ++ rest) = true := by
  obtain ⟨c, cs, rfl⟩ := List.exists_cons_of_ne_nil hne
  rw [List.all_cons, Bool.and_eq_true] at hprintable
  simp only [readsAsStructure, beginsLikeStructure, Bool.or_eq_false_iff, List.any_cons,
    List.head?_cons, decide_eq_false_iff_not] at h
  obtain ⟨⟨⟨⟨⟨⟨⟨hindicator, hmark⟩, -⟩, -⟩, hblank⟩, -⟩, -⟩, hbreak, hbreaks⟩ := h
  have hgap : (['-', '?', ':'].contains c && atGap (cs ++ rest)) = false := by
    cases hc : ['-', '?', ':'].contains c with
    | false => rfl
    | true =>
      have hsame : (c == '-' || c == '?' || c == ':') = ['-', '?', ':'].contains c := by
        rw [Bool.eq_iff_iff]
        simp [or_assoc]
      rw [hsame, hc, Bool.true_and] at hmark
      exact atGap_append hprintable.2 hbreaks hmark rest
  have hblank' : (c != ' ') = true := by simpa using hblank
  have hindicator' : indicators.contains c = false := hindicator
  rw [List.cons_append, startsPlain, hblank', ← isBreak_eq_of_isPrintable hprintable.1, hbreak,
    hindicator', hgap]
  rfl

/-- A text on one line is read as the text. -/
theorem readInline?_scalar (hstyle : style cs ≠ .block) (indent : Nat) (hrest : EndsInline rest) :
    readInline? (scalar indent cs ++ rest) = some (cs, rest) := by
  rw [scalar]
  cases h : style cs with
  | plain =>
    have hsuits : Style.plain.Suits cs := h ▸ suits_style cs
    have hne := hsuits.ne_nil
    obtain ⟨hprintable, -, hstructure⟩ := hsuits
    have hstarts := startsPlain_append hprintable hne hstructure rest
    simp only [readsAsStructure, Bool.or_eq_false_iff, decide_eq_false_iff_not] at hstructure
    obtain ⟨⟨⟨-, hlast⟩, hmark⟩, hbreak⟩ := hstructure
    have hread := readPlain_append hprintable hbreak hmark hlast hrest
    have hplain : readInline? (cs ++ rest) =
        if startsPlain (cs ++ rest) ∧ (readPlain (cs ++ rest)).1.getLast? ≠ some ' '
          then some (readPlain (cs ++ rest)) else none := by
      rw [readInline?]
      · rintro tail htail
        rw [htail] at hstarts
        cases hstarts
      · rintro tail htail
        rw [htail] at hstarts
        cases hstarts
    change readInline? (cs ++ rest) = _
    rw [hplain, hread, if_pos ⟨hstarts, hlast⟩]
  | single =>
    obtain ⟨hprintable, hfeed, hpair⟩ : Style.single.Suits cs := h ▸ suits_style cs
    have hquote : rest.head? ≠ some '\'' := by
      rcases hrest with ⟨tail, rfl⟩ | ⟨tail, rfl⟩ <;> simp
    exact readSingle?_indented false indent hprintable hfeed hpair nofun hquote
  | double =>
    change readDouble? (cs.flatMap escaped ++ ['"'] ++ rest) = _
    rw [List.append_assoc]
    exact readDouble?_flatMap_escaped cs rest
  | block => exact absurd h hstyle

/-- What is read on one line is no block. -/
theorem readValue?_of_readInline? {text : List Char}
    (h : readInline? cs = some (text, '\n' :: rest)) : readValue? cs = some (text, rest) := by
  rw [readValue?, h]
  · rfl
  · rintro tail rfl
    cases h

/-- Any text is read with its line end. -/
theorem readValue?_scalarLine (cs : List Char) (hrest : AtMargin rest) :
    readValue? (scalarLine 2 cs ++ rest) = some (cs, rest) := by
  by_cases hstyle : style cs = .block
  · obtain ⟨hprintable, hfeed⟩ : Style.block.Suits cs := hstyle ▸ suits_style cs
    have hne : cs ≠ [] := List.ne_nil_of_mem hfeed
    have hline : scalarLine 2 cs ++ rest =
        '|' :: (header cs ++ '\n' :: (indented 2 true cs ++ (addedEnd cs ++ rest))) := by
      simp [scalarLine, scalar, hstyle, addedEnd]
    rw [hline]
    exact readBlock?_header hprintable hne hrest
  · have hline : scalarLine 2 cs ++ rest = scalar 2 cs ++ '\n' :: rest := by
      simp [scalarLine, hstyle]
    rw [hline]
    exact readValue?_of_readInline? (readInline?_scalar hstyle 2 (.inr ⟨rest, rfl⟩))

end Interpolation.Yaml
