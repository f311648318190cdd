import Mathlib
import Interpolation.Output.Yaml
import Interpolation.Proofs.Output.Yaml.Scalar

/-!
# Reading mappings back

Variables that are written as YAML are read as the same variables in the same order. An entry begins
with a character that neither continues the block before it nor opens a brace, so the reader finds
where each entry ends, whatever names and texts are made of.

## Main results

* `Yaml.readPair?_entry` — an entry is read as its name and text.
* `Yaml.readEntries?_write` — written variables are read as their entries.
-/

namespace Interpolation.Yaml

variable {rest : List Char}

/-! ### Names -/

theorem style_ne_block_of_isSimpleName {name : List Char} (h : isSimpleName name = true) :
    style name ≠ .block := by
  intro hstyle
  rw [isSimpleName, Bool.and_eq_true, Bool.not_eq_true', List.any_eq_false] at h
  have hsuits : Style.block.Suits name := hstyle ▸ suits_style name
  exact h.1 '\n' hsuits.2 (by decide)

/-- What begins an entry: a character that is no blank, no line break and no brace. -/
def BeginsEntry (c : Char) : Prop := c ≠ ' ' ∧ ¬IsKept c ∧ ¬IsChanged c ∧ c ≠ '\x7b'

instance : DecidablePred BeginsEntry := fun _ => inferInstanceAs (Decidable (_ ∧ _))

/-- A text on one line begins like an entry. -/
theorem exists_scalar_eq_cons {name : List Char} (hstyle : style name ≠ .block) (indent : Nat) :
    ∃ c tail, scalar indent name = c :: tail ∧ BeginsEntry c := by
  rw [scalar]
  cases h : style name with
  | plain =>
    have hsuits : Style.plain.Suits name := h ▸ suits_style name
    have hne := hsuits.ne_nil
    obtain ⟨hprintable, -, hstructure⟩ := hsuits
    have hstarts := startsPlain_append hprintable hne hstructure []
    obtain ⟨c, tail, rfl⟩ := List.exists_cons_of_ne_nil hne
    rw [List.all_cons, Bool.and_eq_true] at hprintable
    rw [List.append_nil, startsPlain] at hstarts
    simp only [Bool.and_eq_true, bne_iff_ne, Bool.not_eq_true', decide_eq_false_iff_not] at hstarts
    obtain ⟨⟨⟨hblank, hkept⟩, hindicator⟩, -⟩ := hstarts
    refine ⟨c, tail, rfl, hblank, hkept, not_isChanged_of_isPrintable hprintable.1, ?_⟩
    rintro rfl
    exact absurd hindicator (by decide)
  | single => exact ⟨_, _, rfl, by decide⟩
  | double => exact ⟨_, _, rfl, by decide⟩
  | block => exact absurd h hstyle

theorem exists_entry_eq_cons (name : String) (content : Listing.Content) :
    ∃ c tail, entry name content = c :: tail ∧ BeginsEntry c := by
  rw [entry]
  split
  · next hsimple =>
    obtain ⟨c, tail, hscalar, hbegins⟩ :=
      exists_scalar_eq_cons (style_ne_block_of_isSimpleName hsimple) 2
    exact ⟨c, _, by rw [hscalar]; rfl, hbegins⟩
  · exact ⟨_, _, rfl, by decide⟩

/-- What is read on one line does not begin with a question mark and a blank. -/
theorem readName?_of_readInline? {cs : List Char} {taken : List Char × List Char}
    (h : readInline? cs = some taken) : readName? cs = some taken := by
  rw [readName?, h]
  rintro tail rfl
  cases h

/-- A name is read up to the colon behind it, wherever the colon stands. -/
theorem readName?_name (name : String) (after : List Char) :
    readName? ((if isSimpleName name.toList then scalar 2 name.toList
      else '?' :: ' ' :: scalarLine 2 name.toList) ++ ':' :: ' ' :: after) =
        some (name.toList, ':' :: ' ' :: after) := by
  split
  · next hsimple =>
    exact readName?_of_readInline?
      (readInline?_scalar (style_ne_block_of_isSimpleName hsimple) 2 (.inl ⟨after, rfl⟩))
  · refine readValue?_scalarLine name.toList fun c hc => ?_
    rw [← Option.some.inj hc]
    decide

/-! ### Entries -/

theorem entry_text (name text : String) :
    entry name (.text text) =
      (if isSimpleName name.toList then scalar 2 name.toList
        else '?' :: ' ' :: scalarLine 2 name.toList) ++ ':' :: ' ' :: scalarLine 2 text.toList := by
  rw [entry]
  split <;> rfl

/-- An entry is read as its name and text. -/
theorem readPair?_entry (name text : String) (hrest : AtMargin rest) :
    readPair? (entry name (.text text) ++ rest) = some ((name, text), rest) := by
  have hname : readName? (entry name (.text text) ++ rest) =
      some (name.toList, ':' :: ' ' :: (scalarLine 2 text.toList ++ rest)) := by
    rw [entry_text, List.append_assoc, List.cons_append, List.cons_append, readName?_name]
  rw [readPair?, hname]
  simp only [readValue?_scalarLine text.toList hrest, Option.map_some, String.ofList_toList]

theorem flatMap_entry_cons (pair : String × String) (pairs : List (String × String)) :
    ∃ c tail, ((pair :: pairs).flatMap fun pair => entry pair.1 (.text pair.2)) = c :: tail ∧
      BeginsEntry c := by
  obtain ⟨c, tail, hentry, hbegins⟩ := exists_entry_eq_cons pair.1 (.text pair.2)
  exact ⟨c, _, by rw [List.flatMap_cons, hentry]; rfl, hbegins⟩

/-- Entries one after the other are read in order. -/
theorem readPairs?_flatMap_entry (pair : String × String) (pairs : List (String × String)) :
    readPairs? ((pair :: pairs).flatMap fun pair => entry pair.1 (.text pair.2)) =
      some (pair :: pairs) := by
  induction pairs generalizing pair with
  | nil =>
    have hread := readPair?_entry pair.1 pair.2 (show AtMargin [] from nofun)
    rw [List.append_nil] at hread
    rw [List.flatMap_singleton, readPairs?, hread]
  | cons next pairs ih =>
    obtain ⟨c, tail, hothers, hbegins⟩ := flatMap_entry_cons next pairs
    obtain ⟨first, before, hentry, -⟩ := exists_entry_eq_cons pair.1 (.text pair.2)
    have hmargin : AtMargin (c :: tail) := by
      rintro d hd
      rw [← Option.some.inj hd]
      exact ⟨hbegins.1, hbegins.2.1, hbegins.2.2.1⟩
    have hshorter : (c :: tail).length < (entry pair.1 (.text pair.2) ++ c :: tail).length := by
      rw [hentry, List.length_append, Nat.lt_add_left_iff_pos, List.length_cons]
      omega
    rw [List.flatMap_cons, hothers, readPairs?, readPair?_entry _ _ hmargin]
    simp only [if_pos hshorter]
    rw [← hothers, ih, Option.map_some]

/-- **What is written as YAML can be read back.** A mapping is read as the names and texts of the
variables, in order, whatever characters they are made of. -/
theorem readEntries?_write (values : Variables) :
    readEntries? (write (.ofVariables values)) = some values.entries := by
  cases hentries : values.entries with
  | nil =>
    rw [Listing.ofVariables, hentries]
    rfl
  | cons pair pairs =>
    have hwrite : (write (.ofVariables values)).toList =
        (pair :: pairs).flatMap fun pair => entry pair.1 (.text pair.2) := by
      rw [Listing.ofVariables, hentries, write, if_neg (by simp), String.toList_ofList,
        List.flatMap_map]
    obtain ⟨c, tail, hcons, hbegins⟩ := flatMap_entry_cons pair pairs
    have hbrace : write (.ofVariables values) ≠ "\x7b\x7d\n" := by
      intro heq
      rw [heq, hcons] at hwrite
      obtain ⟨rfl, -⟩ := List.cons.inj hwrite
      exact hbegins.2.2.2 rfl
    rw [readEntries?, if_neg hbrace, hwrite, readPairs?_flatMap_entry]

/-- One text in each of the styles. -/
example : write (.ofVariables (.ofList [("A", "x"), ("B", "true"), ("C", "1\n2"), ("D", "x\ty")])) =
    "A: x\nB: 'true'\nC: |-\n  1\n  2\nD: \"x\\ty\"\n" := by
  decide +kernel

end Interpolation.Yaml
