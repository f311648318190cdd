import Mathlib.Data.List.Basic
import Interpolation.Proofs.CommandLine.Interleaving

/-!
# Arguments without changes of directory

A list of arguments may change the directory at every level of its commands, by a letter or by a
word, with the directory attached or as the next argument. Without these changes it is a list of
arguments that says the same of everything else.

## Main definitions

* `withoutChanges` — arguments without the changes of directory.
* `unchanging` — the items that change no directory.

## Main results

* `readLetters_dropLetters`, `saysOthers_dropSettings` — what is left of one argument.
* `readItems_withoutChanges` — arguments without their changes say the same of everything else.
-/

namespace Interpolation.CommandLine

variable {level last : Level} {arguments : List String} {items : List Item}
  {waiting : Option Setting} {setting : Setting}

/-! ### Arguments without changes -/

/-- The letters behind one hyphen without the one that changes the directory, and whether its value
is the next argument. What follows the letter of another setting with a value is that value. -/
def dropLetters : List Char → List Char × Bool
  | [] => ([], false)
  | letter :: rest =>
    match Setting.ofLetter? letter with
    | none => (letter :: rest, false)
    | some setting =>
      if setting = .changeDirectory then ([], rest.isEmpty)
      else if setting.takesValue then (letter :: rest, false)
      else (letter :: (dropLetters rest).1, (dropLetters rest).2)

/-- What is left of an argument that looks like a setting without a change of directory, and whether
the value of the change is the next argument. -/
def dropSettings (argument : String) : Option String × Bool :=
  match argument.toList with
  | '-' :: '-' :: word =>
    if Setting.ofWord? (String.ofList (word.takeWhile (· != '='))) = some .changeDirectory then
      (none, (word.dropWhile (· != '=')).isEmpty)
    else (some argument, false)
  | '-' :: letters =>
    (if (dropLetters letters).1.isEmpty then none
      else some (String.ofList ('-' :: (dropLetters letters).1)), (dropLetters letters).2)
  | _ => (some argument, false)

/-- Arguments without the changes of directory, and without the first one if it is the value of a
change. Behind two hyphens alone nothing is a change. -/
def dropChanges (skipping : Bool) : List String → List String
  | [] => []
  | argument :: rest =>
    if skipping then dropChanges false rest
    else if argument = "--" then argument :: rest
    else if looksLikeSetting argument then
      (dropSettings argument).1.toList ++ dropChanges (dropSettings argument).2 rest
    else argument :: dropChanges false rest

/-- Arguments without the changes of directory. -/
def withoutChanges (arguments : List String) : List String := dropChanges false arguments

example : withoutChanges ["-C", "d", "expand", "-eCe", "--directory=f", "-f", "C", "--", "-Cg"] =
    ["expand", "-e", "-f", "C", "--", "-Cg"] := by decide

/-- The items that change no directory. -/
def unchanging (items : List Item) : List Item :=
  items.filter fun item => !item.isSet .changeDirectory

/-- A setting that waits for its value, unless it changes the directory. -/
def otherThanChange (waiting : Option Setting) : Option Setting :=
  waiting.filter fun setting => decide (setting ≠ .changeDirectory)

theorem unchanging_append (first second : List Item) :
    unchanging (first ++ second) = unchanging first ++ unchanging second :=
  List.filter_append first second

theorem unchanging_set_cons (hne : setting ≠ .changeDirectory) (value : String)
    (items : List Item) :
    unchanging (.set level setting value :: items) =
      .set level setting value :: unchanging items :=
  List.filter_cons_of_pos (by simpa [Item.isSet] using hne)

theorem unchanging_change_cons (value : String) (items : List Item) :
    unchanging (.set level .changeDirectory value :: items) = unchanging items :=
  List.filter_cons_of_neg (by simp [Item.isSet])

theorem unchanging_assignment_cons (text : String) (items : List Item) :
    unchanging (.assignment text :: items) = .assignment text :: unchanging items :=
  List.filter_cons_of_pos rfl

theorem otherThanChange_of_ne (h : setting ≠ .changeDirectory) :
    otherThanChange (some setting) = some setting :=
  Option.filter_some_pos (by simpa using h)

/-- What is said of one setting with a value: it waits for the value, or has it. -/
inductive SaysOf (level : Level) (setting : Setting) : List Item → Option Setting → Prop
  | waits : SaysOf level setting [] (some setting)
  | has (value : String) : SaysOf level setting [.set level setting value] none

/-- Of a change nothing is left. -/
theorem SaysOf.change (h : SaysOf level .changeDirectory items waiting) :
    unchanging items = [] ∧ otherThanChange waiting = none := by
  cases h with
  | waits => exact ⟨rfl, rfl⟩
  | has value => exact ⟨unchanging_change_cons value [], rfl⟩

/-- What is said of another setting is left as it is. -/
theorem SaysOf.other (h : SaysOf level setting items waiting) (hne : setting ≠ .changeDirectory) :
    unchanging items = items ∧ otherThanChange waiting = waiting ∧
      waiting ≠ some .changeDirectory := by
  cases h with
  | waits => exact ⟨rfl, otherThanChange_of_ne hne, by simpa using hne⟩
  | has value => exact ⟨unchanging_set_cons hne value [], rfl, by simp⟩

/-! ### Letters and words -/

/-- A letter of a setting with a value waits for it exactly when nothing follows. -/
theorem saysOf_of_readLetters {letter : Char} {rest : List Char}
    (hletter : level.settingOfLetter? letter = some setting) (hvalue : setting.takesValue = true)
    (h : readLetters level (letter :: rest) = some (items, waiting)) :
    SaysOf level setting items waiting ∧ (rest.isEmpty = true ↔ waiting = some setting) := by
  rw [readLetters, hletter] at h
  simp only [hvalue, if_true] at h
  split at h <;> cases h
  · exact ⟨.waits, by simp⟩
  · exact ⟨.has _, by simp⟩
  · next hne _ => exact ⟨.has _, by simpa using hne⟩

/-- A word speaks of its setting, and if the setting has a value, waits for it exactly when no
equals sign follows. -/
theorem saysOf_of_readWord {word : List Char}
    (hword : level.settingOfWord? (word.takeWhile (· != '=')) = some setting)
    (h : readWord level word = some (items, waiting)) :
    SaysOf level setting items waiting ∧ (setting.takesValue = true →
      ((word.dropWhile (· != '=')).isEmpty = true ↔ waiting = some setting)) := by
  rw [readWord, hword] at h
  cases hrest : word.dropWhile (· != '=') with
  | nil =>
    rw [hrest] at h
    dsimp only at h
    split at h <;> cases h
    · exact ⟨.waits, by simp⟩
    · next hflag => exact ⟨.has "", fun hvalue => absurd hvalue hflag⟩
  | cons c value =>
    rw [hrest] at h
    dsimp only at h
    split at h <;> cases h
    exact ⟨.has _, by simp⟩

/-- What letters say without a change, and how the change is read: its value is the next argument
exactly when the change waits for one. -/
theorem readLetters_dropLetters {letters : List Char}
    (h : readLetters level letters = some (items, waiting)) :
    readLetters level (dropLetters letters).1 = some (unchanging items, otherThanChange waiting) ∧
      ((dropLetters letters).2 = true ↔ waiting = some .changeDirectory) := by
  induction letters generalizing items waiting with
  | nil =>
    cases h
    exact ⟨rfl, by simp [dropLetters]⟩
  | cons letter rest ih =>
    cases hletter : level.settingOfLetter? letter with
    | none =>
      rw [readLetters, hletter] at h
      cases h
    | some setting =>
      have hof : Setting.ofLetter? letter = some setting := (Option.filter_eq_some_iff.mp hletter).1
      rw [dropLetters, hof]
      dsimp only
      by_cases hvalue : setting.takesValue = true
      · obtain ⟨hspoken, hwaits⟩ := saysOf_of_readLetters hletter hvalue h
        by_cases hchange : setting = .changeDirectory
        · subst hchange
          rw [if_pos rfl, hspoken.change.1, hspoken.change.2]
          exact ⟨rfl, hwaits⟩
        · obtain ⟨hitems, hother, hne⟩ := hspoken.other hchange
          rw [if_neg hchange, if_pos hvalue, hitems, hother]
          exact ⟨h, by simpa using hne⟩
      · have hchange : setting ≠ .changeDirectory := by
          rintro rfl
          exact hvalue rfl
        rw [if_neg hchange, if_neg hvalue]
        rw [readLetters, hletter] at h
        simp only [hvalue, Bool.false_eq_true, if_false, Option.map_eq_some_iff] at h
        obtain ⟨⟨later, left⟩, hlater, hread⟩ := h
        cases hread
        obtain ⟨hrest, hnext⟩ := ih hlater
        refine ⟨?_, hnext⟩
        rw [readLetters, hletter]
        simp only [hvalue, Bool.false_eq_true, if_false]
        rw [hrest, unchanging_set_cons hchange]
        rfl

/-! ### Arguments that look like settings -/

theorem looksLikeSetting_of_toList {argument : String} {c : Char} {rest : List Char}
    (h : argument.toList = '-' :: c :: rest) : looksLikeSetting argument = true := by
  have hne : argument ≠ "-" := by
    rintro rfl
    cases h
  simp [looksLikeSetting, h, hne]

theorem dropSettings_of_letters {argument : String} {letters : List Char}
    (h : argument.toList = '-' :: letters) (hshort : letters.head? ≠ some '-') :
    dropSettings argument =
      (if (dropLetters letters).1.isEmpty then none
        else some (String.ofList ('-' :: (dropLetters letters).1)), (dropLetters letters).2) := by
  rw [dropSettings, h]
  split <;> simp_all

theorem readSettings_of_letters {argument : String} {letters : List Char}
    (h : argument.toList = '-' :: letters) (hshort : letters.head? ≠ some '-') :
    readSettings level argument = readLetters level letters := by
  rw [readSettings, h]
  split <;> simp_all

/-- A hyphen is the letter of no setting. -/
theorem ne_hyphen_of_readLetters {c : Char} {rest : List Char} {read : List Item × Option Setting}
    (h : readLetters level (c :: rest) = some read) : c ≠ '-' := by
  rintro rfl
  rw [readLetters] at h
  cases h

/-- What is left of an argument says what the argument does, except for changes: it is a setting
again, or nothing where the argument said nothing else. -/
def SaysOthers (level : Level) (items : List Item) (waiting : Option Setting) :
    Option String → Prop
  | none => unchanging items = [] ∧ otherThanChange waiting = none
  | some kept => kept ≠ "--" ∧ looksLikeSetting kept = true ∧
    readSettings level kept = some (unchanging items, otherThanChange waiting)

theorem saysOthers_of_word {argument : String} {word : List Char}
    (hword : argument.toList = '-' :: '-' :: word)
    (h : readSettings level argument = some (items, waiting)) :
    SaysOthers level items waiting (dropSettings argument).1 ∧
      ((dropSettings argument).2 = true ↔ waiting = some .changeDirectory) := by
  have hread : readWord level word = some (items, waiting) := by rwa [readSettings, hword] at h
  cases hsetting : level.settingOfWord? (word.takeWhile (· != '=')) with
  | none =>
    rw [readWord, hsetting] at hread
    cases hread
  | some setting =>
    have hof : Setting.ofWord? (String.ofList (word.takeWhile (· != '='))) = some setting :=
      (Option.filter_eq_some_iff.mp hsetting).1
    obtain ⟨hspoken, hwaits⟩ := saysOf_of_readWord hsetting hread
    rw [dropSettings, hword]
    simp only [hof, Option.some.injEq]
    by_cases hchange : setting = .changeDirectory
    · subst hchange
      rw [if_pos rfl]
      exact ⟨hspoken.change, hwaits rfl⟩
    · obtain ⟨hitems, hother, hne⟩ := hspoken.other hchange
      rw [if_neg hchange]
      refine ⟨⟨?_, looksLikeSetting_of_toList hword, by rw [h, hitems, hother]⟩, by simpa using hne⟩
      rintro rfl
      cases hword
      cases hsetting

theorem saysOthers_of_letters {argument : String} {letters : List Char}
    (hletters : argument.toList = '-' :: letters) (hshort : letters.head? ≠ some '-')
    (h : readSettings level argument = some (items, waiting)) :
    SaysOthers level items waiting (dropSettings argument).1 ∧
      ((dropSettings argument).2 = true ↔ waiting = some .changeDirectory) := by
  rw [readSettings_of_letters hletters hshort] at h
  obtain ⟨hkept, hnext⟩ := readLetters_dropLetters h
  rw [dropSettings_of_letters hletters hshort]
  refine ⟨?_, hnext⟩
  dsimp only
  cases hdrop : (dropLetters letters).1 with
  | nil =>
    rw [hdrop] at hkept
    obtain ⟨hitems, hother⟩ := Prod.mk.inj (Option.some.inj hkept)
    exact ⟨hitems.symm, hother.symm⟩
  | cons c rest =>
    rw [hdrop] at hkept
    have hc : c ≠ '-' := ne_hyphen_of_readLetters hkept
    have hlist : (String.ofList ('-' :: c :: rest)).toList = '-' :: c :: rest :=
      String.toList_ofList
    refine ⟨fun hdashes => ?_, looksLikeSetting_of_toList hlist, ?_⟩
    · rw [hdashes] at hlist
      cases hlist
      exact hc rfl
    · rw [readSettings_of_letters hlist (by simpa using hc), hkept]

/-- What is left of an argument says what the argument does, except for changes. The value of a
change is the next argument exactly when the change waits for one. -/
theorem saysOthers_dropSettings {argument : String}
    (h : readSettings level argument = some (items, waiting)) :
    SaysOthers level items waiting (dropSettings argument).1 ∧
      ((dropSettings argument).2 = true ↔ waiting = some .changeDirectory) := by
  have hread := h
  rw [readSettings] at hread
  split at hread
  · next word hword => exact saysOthers_of_word hword h
  · next letters hshort hletters =>
    refine saysOthers_of_letters hletters (fun hhead => ?_) h
    obtain ⟨word, rfl⟩ := List.head?_eq_some_iff.mp hhead
    exact hshort word rfl
  · cases hread

/-! ### Lists of arguments -/

section Equations

variable {argument : String} {rest : List String}

theorem readItems_waiting (level : Level) (setting : Setting)
    (h : looksLikeSetting argument = false) :
    readItems level (some setting) (argument :: rest) =
      (readItems level none rest).map fun read =>
        (.set level setting argument :: read.1, read.2) := by
  rw [readItems, h]
  rfl

theorem readItems_dashes (level : Level) (rest : List String) :
    readItems level none ("--" :: rest) =
      if level.takesAssignments then some (rest.map .assignment, level) else none := by
  rw [readItems, if_pos rfl]

theorem readItems_setting (level : Level) (hne : argument ≠ "--")
    (h : looksLikeSetting argument = true) :
    readItems level none (argument :: rest) =
      (readSettings level argument).bind fun said =>
        (readItems level said.2 rest).map fun read => (said.1 ++ read.1, read.2) := by
  rw [readItems, if_neg hne, if_pos h]
  cases readSettings level argument <;> rfl

theorem readItems_word (level : Level) (h : looksLikeSetting argument = false) :
    readItems level none (argument :: rest) =
      if level.takesAssignments then
        (readItems level none rest).map fun read => (.assignment argument :: read.1, read.2)
      else (level.below? argument).bind fun below => readItems below none rest := by
  have hne : argument ≠ "--" := by
    rintro rfl
    cases h
  rw [readItems, if_neg hne, if_neg (by simp [h])]
  cases level.below? argument <;> rfl

theorem dropChanges_word (h : looksLikeSetting argument = false) :
    dropChanges false (argument :: rest) = argument :: dropChanges false rest := by
  have hne : argument ≠ "--" := by
    rintro rfl
    cases h
  simp [dropChanges, h, hne]

theorem dropChanges_setting (hne : argument ≠ "--") (h : looksLikeSetting argument = true) :
    dropChanges false (argument :: rest) =
      (dropSettings argument).1.toList ++ dropChanges (dropSettings argument).2 rest := by
  simp [dropChanges, h, hne]

end Equations

theorem unchanging_map_assignment (texts : List String) :
    unchanging (texts.map .assignment) = texts.map .assignment :=
  List.filter_eq_self.mpr fun item hmem => by
    obtain ⟨text, -, rfl⟩ := List.mem_map.mp hmem
    rfl

/-- What is left of an argument is read before the arguments behind it. -/
theorem SaysOthers.readItems_append {kept : Option String} {rest : List String}
    {others : List Item} (h : SaysOthers level items waiting kept)
    (hrest : readItems level (otherThanChange waiting) rest = some (others, last)) :
    readItems level none (kept.toList ++ rest) = some (unchanging items ++ others, last) := by
  cases kept with
  | none =>
    obtain ⟨hitems, hother⟩ := h
    rw [hother] at hrest
    rw [hitems]
    exact hrest
  | some argument =>
    obtain ⟨hne, hlooks, hread⟩ := h
    rw [Option.toList_some, List.singleton_append, readItems_setting level hne hlooks, hread]
    exact congrArg (Option.map _) hrest

/-- What arguments say from some level on is said without the changes as well, if the value that a
change waits for is dropped with it. -/
theorem readItems_dropChanges (h : readItems level waiting arguments = some (items, last)) :
    readItems level (otherThanChange waiting)
      (dropChanges (decide (waiting = some .changeDirectory)) arguments) =
        some (unchanging items, last) := by
  induction arguments generalizing level waiting items with
  | nil =>
    cases waiting with
    | none =>
      cases h
      rfl
    | some setting => cases h
  | cons argument rest ih =>
    cases hlooks : looksLikeSetting argument with
    | false =>
      cases waiting with
      | some setting =>
        rw [readItems_waiting level setting hlooks] at h
        obtain ⟨⟨others, _⟩, hrest, hread⟩ := Option.map_eq_some_iff.mp h
        cases hread
        by_cases hchange : setting = .changeDirectory
        -- The argument is the value of a change, and is dropped with it.
        · subst hchange
          rw [unchanging_change_cons]
          exact ih hrest
        · rw [otherThanChange_of_ne hchange, unchanging_set_cons hchange,
            decide_eq_false (by simpa using hchange), dropChanges_word hlooks,
            readItems_waiting level setting hlooks]
          exact congrArg (Option.map _) (ih hrest)
      | none =>
        change readItems level none (dropChanges false (argument :: rest)) = _
        rw [dropChanges_word hlooks]
        rw [readItems_word level hlooks] at h ⊢
        split at h
        · next htakes =>
          obtain ⟨⟨others, _⟩, hrest, hread⟩ := Option.map_eq_some_iff.mp h
          cases hread
          rw [if_pos htakes, unchanging_assignment_cons]
          exact congrArg (Option.map _) (ih hrest)
        · next htakes =>
          obtain ⟨below, hbelow, hrest⟩ := Option.bind_eq_some_iff.mp h
          rw [if_neg htakes, hbelow]
          exact ih hrest
    | true =>
      cases waiting with
      | some setting =>
        rw [readItems, hlooks] at h
        cases h
      | none =>
        change readItems level none (dropChanges false (argument :: rest)) = _
        by_cases hdashes : argument = "--"
        · subst hdashes
          change readItems level none ("--" :: rest) = _
          rw [readItems_dashes] at h ⊢
          split at h
          · next htakes =>
            cases h
            rw [if_pos htakes, unchanging_map_assignment]
          · cases h
        · rw [readItems_setting level hdashes hlooks] at h
          obtain ⟨⟨said, left⟩, hsaid, hmap⟩ := Option.bind_eq_some_iff.mp h
          obtain ⟨⟨others, _⟩, hrest, hread⟩ := Option.map_eq_some_iff.mp hmap
          cases hread
          obtain ⟨hkept, hnext⟩ := saysOthers_dropSettings hsaid
          have hlater := ih hrest
          rw [← Bool.eq_iff_iff.mpr (hnext.trans decide_eq_true_iff.symm)] at hlater
          rw [dropChanges_setting hdashes hlooks, unchanging_append]
          exact hkept.readItems_append hlater

/-- Arguments without their changes of directory say the same of everything else. -/
theorem readItems_withoutChanges
    (h : readItems .program none arguments = some (items, last)) :
    readItems .program none (withoutChanges arguments) = some (unchanging items, last) :=
  readItems_dropChanges h

end Interpolation.CommandLine
