import Interpolation.Expansion.Outcome

/-!
# Sources

Variables usually come from several documents. The sources keep the documents in the order in
which they were added, in two columns: the *origins*, one for each document, say which path it came
from, if any; the *rows*, one for each variable of each document, say what the variable is and which
document it belongs to, by number. Together they give the *entries*. The place of an entry never
changes, since documents are only ever added at the end.

When a name occurs in several documents, the last one wins, and the name keeps the place of its
first entry.

## Main definitions

* `Sources` — origins and rows, with the proof that every row belongs to a document.
* `Sources.add` — sources with a document added.
* `Sources.entries`, `Sources.entry?` — the variables of all documents, and the one at a place.
* `Sources.originOf?` — where the winning value of a name came from.
* `Sources.toVariables` — the winning values.

## Main results

* `Sources.entry?_eq_getElem?` — looking up a place of the two columns never fails halfway.
* `Sources.entries_add` — adding a document adds its entries at the end.
* `Sources.toVariables_add` — adding a document overrides the variables so far.
-/

namespace Interpolation

/-- A document of variables, with the path it came from if it came from a file. -/
structure Source where
  /-- The path of the file. -/
  origin : Option String
  /-- The variables of the document. -/
  content : Variables
  deriving DecidableEq

/-- A variable with the number of its document. -/
structure Sources.Row where
  /-- The number of the document, counted from zero. -/
  source : Nat
  /-- The name of the variable. -/
  key : String
  /-- The text of the variable. -/
  value : String
  deriving DecidableEq, Repr

/-- A variable with the number and the origin of its document. -/
structure Sources.Entry where
  /-- The number of the document, counted from zero. -/
  source : Nat
  /-- Where the document came from. -/
  origin : Option String
  /-- The name of the variable. -/
  key : String
  /-- The text of the variable. -/
  value : String
  deriving DecidableEq, Repr

/-- Documents in the order in which they were added. -/
structure Sources where
  /-- Where each document came from. -/
  origins : List (Option String)
  /-- The variables of all documents, one document after the other. -/
  rows : List Sources.Row
  /-- Every row has the number of a document. -/
  source_lt : ∀ row ∈ rows, row.source < origins.length
  deriving DecidableEq

namespace Sources

/-- No documents. -/
def empty : Sources := ⟨[], [], by simp⟩

instance : EmptyCollection Sources := ⟨empty⟩

instance : Inhabited Sources := ⟨empty⟩

/-- The number of documents. -/
def size (s : Sources) : Nat := s.origins.length

/-! ### Adding documents -/

/-- The rows of a document with a number. -/
def rowsOf (number : Nat) (document : Source) : List Row :=
  document.content.entries.map fun entry => ⟨number, entry.1, entry.2⟩

theorem source_of_mem_rowsOf {number : Nat} {document : Source} {row : Row}
    (h : row ∈ rowsOf number document) : row.source = number := by
  obtain ⟨entry, -, rfl⟩ := List.mem_map.mp h
  rfl

/-- Add a document at the end. -/
def add (s : Sources) (document : Source) : Sources where
  origins := s.origins ++ [document.origin]
  rows := s.rows ++ rowsOf s.size document
  source_lt row hmem := by
    rw [List.length_append, List.length_singleton]
    rcases List.mem_append.mp hmem with hold | hnew
    · exact Nat.lt_succ_of_lt (s.source_lt row hold)
    · rw [source_of_mem_rowsOf hnew]
      exact Nat.lt_succ_self _

/-- The sources that hold one document, which came from no file. -/
def ofVariables (content : Variables) : Sources := empty.add ⟨none, content⟩

/-! ### Entries -/

/-- The entry of a row that belongs to a document. -/
def entryOf (s : Sources) (row : Row) (h : row.source < s.origins.length) : Entry :=
  ⟨row.source, s.origins[row.source], row.key, row.value⟩

/-- The variables of all documents, one after the other. -/
def entries (s : Sources) : List Entry := s.rows.pmap s.entryOf s.source_lt

/-- The entry of a row, if there is a document with the number of the row. -/
def entryOf? (s : Sources) (row : Row) : Option Entry :=
  (s.origins[row.source]?).map fun origin => ⟨row.source, origin, row.key, row.value⟩

/-- The entry at a place, if there is a row at that place and a document for the row. -/
def entry? (s : Sources) (index : Nat) : Option Entry := (s.rows[index]?).bind s.entryOf?

/-- Where the winning value of a name came from: nothing if no entry has the name, and otherwise
the origin of the last that does. -/
def originOf? (s : Sources) (key : String) : Option (Option String) :=
  ((s.entries.filter fun entry => decide (entry.key = key)).getLast?).map Entry.origin

/-- The winning values: later entries override earlier ones. -/
def toVariables (s : Sources) : Variables :=
  .ofList (s.entries.map fun entry => (entry.key, entry.value))

theorem origins_add (s : Sources) (document : Source) :
    (s.add document).origins = s.origins ++ [document.origin] := rfl

theorem rows_add (s : Sources) (document : Source) :
    (s.add document).rows = s.rows ++ rowsOf s.size document := rfl

/-- Every row has an entry. -/
theorem map_some_entries (s : Sources) : s.entries.map some = s.rows.map s.entryOf? := by
  have hsome : ∀ row (h : row.source < s.origins.length),
      some (s.entryOf row h) = s.entryOf? row := by
    intro row h
    rw [entryOf?, List.getElem?_eq_getElem h]
    rfl
  rw [entries, List.map_pmap]
  simp only [hsome]
  exact List.pmap_eq_map _

/-- The entry at a place of the rows is the one at that place of the entries. -/
theorem entry?_eq_getElem? (s : Sources) (index : Nat) : s.entry? index = s.entries[index]? := by
  have hplace : s.entries[index]?.map some = s.rows[index]?.map s.entryOf? := by
    rw [← List.getElem?_map, ← List.getElem?_map, map_some_entries]
  unfold entry?
  cases hrow : s.rows[index]? with
  | none =>
    rw [hrow] at hplace
    exact (Option.map_eq_none_iff.mp hplace).symm
  | some row =>
    rw [hrow] at hplace
    obtain ⟨entry, hentry, hsome⟩ := Option.map_eq_some_iff.mp hplace
    rw [hentry]
    exact hsome.symm

/-- An entry has the origin of the document that it has the number of. -/
theorem origin_of_mem_entries {s : Sources} {entry : Entry} (h : entry ∈ s.entries) :
    s.origins[entry.source]? = some entry.origin := by
  have hmem : some entry ∈ s.rows.map s.entryOf? := by
    rw [← map_some_entries]
    exact List.mem_map_of_mem h
  obtain ⟨row, -, hrow⟩ := List.mem_map.mp hmem
  obtain ⟨origin, horigin, rfl⟩ := Option.map_eq_some_iff.mp hrow
  exact horigin

/-- Adding a document adds its entries at the end. -/
theorem entries_add (s : Sources) (document : Source) :
    (s.add document).entries =
      s.entries ++ document.content.entries.map fun entry =>
        ⟨s.size, document.origin, entry.1, entry.2⟩ := by
  have hold : ∀ row ∈ s.rows, (s.add document).entryOf? row = s.entryOf? row := by
    intro row hmem
    rw [entryOf?, entryOf?, origins_add, List.getElem?_append_left (s.source_lt row hmem)]
  have hnew : ∀ key value, (s.add document).entryOf? ⟨s.size, key, value⟩ =
      some ⟨s.size, document.origin, key, value⟩ := by
    intro key value
    rw [entryOf?, origins_add, size, List.getElem?_concat_length]
    rfl
  refine List.map_inj_right (fun _ _ => Option.some.inj) |>.mp ?_
  rw [map_some_entries, rows_add, List.map_append, List.map_append, map_some_entries,
    List.map_congr_left hold, rowsOf, List.map_map, List.map_map]
  exact congrArg _ (List.map_congr_left fun entry _ => hnew entry.1 entry.2)

/-- Adding a document overrides the variables so far. -/
theorem toVariables_add (s : Sources) (document : Source) :
    (s.add document).toVariables = s.toVariables.override document.content := by
  simp only [toVariables, entries_add, List.map_append, List.map_map, OrderedMap.ofList,
    OrderedMap.insertAll_append, OrderedMap.override]
  congr 1
  exact List.map_id _

end Sources

end Interpolation
