import Interpolation.Proofs.Document.Outcome

/-!
# Documents that are read back

Rendering writes each value behind its key as it is and escapes nothing, so not every map comes
back from the text that it is written as. As long as the keys are words and no value holds a line
feed, there is one line for each entry, and reading gives the same keys in the same order, each with
what is left of its value. If that is all of each value, the map comes back. There is no other way:
whatever a document assigns has a word for its key and no line feed in its value, so a map that
comes back is of that kind.

## Main definitions

* `Dotenv.Verbatim` — the values that a line keeps as they are.

## Main results

* `Dotenv.read_render` — what reading makes of a rendered map.
* `Dotenv.read_render_eq_self_iff` — which maps come back.
-/

namespace Interpolation.Dotenv

open Document Text

variable {values : Variables} {entries : List (String × String)}

/-- A value that stands on one line, has no blanks at its ends and is not enclosed in quotes. -/
structure Verbatim (value : String) : Prop where
  newline_notMem : '\n' ∉ value.toList
  head_not_blank : ∀ c, value.toList.head? = some c → isBlank c = false
  last_not_blank : ∀ c, value.toList.getLast? = some c → isBlank c = false
  not_enclosed : ¬ Enclosed value.toList

/-- What is left of a value without blanks and quotes around it. -/
def stripped (value : String) : String := String.ofList (unquote (trim value.toList))

/-- The line of an entry. -/
def lineOf (entry : String × String) : List Char := entry.1.toList ++ '=' :: entry.2.toList

theorem stripped_eq_self_iff {value : String} (hline : '\n' ∉ value.toList) :
    stripped value = value ↔ Verbatim value := by
  rw [stripped, ← String.toList_inj, String.toList_ofList, unquote_trim_eq_self_iff,
    trim_eq_self_iff]
  constructor
  · rintro ⟨⟨hhead, hlast⟩, hquotes⟩
    exact ⟨hline, hhead, hlast, hquotes⟩
  · intro h
    exact ⟨⟨h.head_not_blank, h.last_not_blank⟩, h.not_enclosed⟩

theorem verbatim_iff {value : String} :
    Verbatim value ↔ '\n' ∉ value.toList ∧ stripped value = value := by
  constructor
  · exact fun h => ⟨h.newline_notMem, (stripped_eq_self_iff h.newline_notMem).mpr h⟩
  · rintro ⟨hline, hself⟩
    exact (stripped_eq_self_iff hline).mp hself

instance (value : String) : Decidable (Verbatim value) := decidable_of_iff _ verbatim_iff.symm

/-! ### The lines of a rendered map -/

theorem toList_render (values : Variables) :
    (render values).toList = values.entries.flatMap fun entry => lineOf entry ++ ['\n'] := by
  rw [render, String.toList_join, List.flatMap_map]
  refine congrArg values.entries.flatMap (funext fun entry => ?_)
  simp [renderEntry, lineOf]

/-- The text of some entries is cut into their lines and an empty rest. -/
theorem splitOn_flatMap_lineOf (h : ∀ entry ∈ entries, '\n' ∉ lineOf entry) :
    (entries.flatMap fun entry => lineOf entry ++ ['\n']).splitOn '\n' =
      entries.map lineOf ++ [[]] := by
  have hlines : ∀ line ∈ entries.map lineOf, '\n' ∉ line := by
    intro line hmem
    obtain ⟨entry, hentry, rfl⟩ := List.mem_map.mp hmem
    exact h entry hentry
  rw [← splitOn_flatMap_append hlines List.not_mem_nil, List.flatMap_map, List.append_nil]

theorem newline_notMem_lineOf {entry : String × String} (hkey : isKey entry.1.toList = true)
    (hline : '\n' ∉ entry.2.toList) : '\n' ∉ lineOf entry := by
  have hword : '\n' ∉ entry.1.toList := fun hmem =>
    absurd ((isKey_iff.mp hkey).2 _ hmem) (by decide)
  simp [lineOf, hword, hline]

theorem read_lineOf {entry : String × String} (hkey : isKey entry.1.toList = true) :
    Line.read (lineOf entry) = .assignment entry.1 (stripped entry.2) := by
  rw [lineOf, read_assignment hkey, String.ofList_toList, stripped]

theorem said_render (h : ∀ entry ∈ values.entries, isKey entry.1.toList = true ∧
      '\n' ∉ entry.2.toList) :
    said (render values).toList =
      values.entries.map (fun entry => .assignment entry.1 (stripped entry.2)) ++ [.silent] := by
  rw [said, toList_render, splitOn_flatMap_lineOf fun entry hmem =>
    newline_notMem_lineOf (h entry hmem).1 (h entry hmem).2, List.map_append, List.map_map]
  refine congrArg (· ++ [Line.silent]) (List.map_congr_left fun entry hmem => ?_)
  exact read_lineOf (h entry hmem).1

/-! ### What comes back -/

/-- A rendered map comes back with its keys in order and with what is left of its values. -/
theorem read_render
    (h : ∀ entry ∈ values.entries, isKey entry.1.toList = true ∧ '\n' ∉ entry.2.toList) :
    read (render values) = .ok (values.filterMap fun _ value => some (stripped value)) := by
  have hnone : ∀ line ∈ said (render values).toList, line.isMalformed = false := by
    intro line hmem
    rw [said_render h, List.mem_append, List.mem_map] at hmem
    rcases hmem with ⟨entry, -, rfl⟩ | hlast
    · rfl
    · rw [List.mem_singleton.mp hlast]
      rfl
  have hentries : (said (render values).toList).filterMap Line.entry? =
      (values.filterMap fun _ value => some (stripped value)).entries := by
    rw [said_render h, OrderedMap.entries_filterMap_some, List.filterMap_append, List.filterMap_map]
    exact (List.append_nil _).trans (congrFun List.filterMap_eq_map' _)
  rw [read_eq_outcome, Line.outcome_of_forall hnone, hentries]
  exact congrArg Except.ok (OrderedMap.ofList_entries _)

/-- Whatever a document assigns has a word for its key and a value on one line. -/
theorem isKey_and_newline_notMem_of_read {text : String} (h : read text = .ok values)
    {key value : String} (hget : values.get? key = some value) :
    isKey key.toList = true ∧ '\n' ∉ value.toList := by
  refine get?_of_readLines (P := fun key value => isKey key.toList = true ∧ '\n' ∉ value.toList)
    (fun line hmem key value hread => ?_) (fun key value hget => ?_) h key value hget
  · obtain ⟨hkey, hvalue⟩ := isKey_and_sublist_of_read hread
    exact ⟨hkey, fun hnew => newline_notMem_of_mem_splitOn hmem (hvalue.mem hnew)⟩
  · cases hget

/-- **Which maps are read back from their text.** Reading what a map is rendered as gives the same
map, with its entries in the same order, exactly when every key is a word that is not empty and
every value stands on one line, neither begins nor ends with a blank and is not enclosed in a pair
of quotes. -/
theorem read_render_eq_self_iff (values : Variables) :
    read (render values) = .ok values ↔
      ∀ entry ∈ values.entries,
        (entry.1 ≠ "" ∧ ∀ c ∈ entry.1.toList, isWordChar c = true) ∧ Verbatim entry.2 := by
  constructor
  · intro h entry hmem
    have hassigned : ∀ entry ∈ values.entries,
        isKey entry.1.toList = true ∧ '\n' ∉ entry.2.toList := fun entry hmem =>
      isKey_and_newline_notMem_of_read h (OrderedMap.get?_eq_some_iff.mpr hmem)
    obtain ⟨hword, hline⟩ := hassigned entry hmem
    -- What came back under the key is what is left of the value, and also the value itself.
    have hvalues := Except.ok.inj ((read_render hassigned).symm.trans h)
    have hget := OrderedMap.get?_filterMap (fun _ value => some (stripped value)) values entry.1
    rw [hvalues, OrderedMap.get?_eq_some_iff.mpr hmem] at hget
    exact ⟨isKey_toList_iff.mp hword,
      (stripped_eq_self_iff hline).mp (Option.some.inj hget).symm⟩
  · intro h
    have hassigned : ∀ entry ∈ values.entries,
        isKey entry.1.toList = true ∧ '\n' ∉ entry.2.toList := fun entry hmem =>
      ⟨isKey_toList_iff.mpr (h entry hmem).1, (h entry hmem).2.newline_notMem⟩
    rw [read_render hassigned]
    have hself : ∀ entry ∈ values.entries, (entry.1, stripped entry.2) = entry := by
      intro entry hmem
      have hverbatim := (h entry hmem).2
      rw [(stripped_eq_self_iff hverbatim.newline_notMem).mpr hverbatim]
    refine congrArg Except.ok (OrderedMap.ext ?_)
    rw [OrderedMap.entries_filterMap_some, List.map_congr_left hself, List.map_id']

end Interpolation.Dotenv
