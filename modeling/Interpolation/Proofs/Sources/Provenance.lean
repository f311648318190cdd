import Interpolation.Sources.Basic

/-!
# Where the winning values come from

The winning value of a name and the origin of that value are found in two ways that do not know of
each other. The values are put into a map one after the other, where a later one replaces an earlier
one and takes over its place; the origin is that of the last entry left when all others are sorted
out. Both find the last entry of the name, since the entries behind it neither change its value in
the map nor are left beside it.

## Main definitions

* `Sources.IsLast` — the last entry of a name.

## Main results

* `Sources.exists_isLast` — a name that occurs has a last entry.
* `Sources.IsLast.originOf?`, `Sources.IsLast.get?_toVariables` — both ways find it.
* `Sources.winning_entries` — names, values and origins of the winning entries.
-/

namespace Interpolation.Sources

variable {s : Sources} {key : String} {entry : Entry}

/-- The entry has the name, and no entry behind it has. -/
def IsLast (entries : List Entry) (key : String) (entry : Entry) : Prop :=
  ∃ before after, entries = before ++ entry :: after ∧ entry.key = key ∧
    ∀ other ∈ after, other.key ≠ key

/-- A name that occurs among entries has a last entry. -/
theorem exists_isLast {entries : List Entry} (h : key ∈ entries.map Entry.key) :
    ∃ entry, IsLast entries key entry := by
  induction entries with
  | nil => cases h
  | cons first rest ih =>
    by_cases hrest : key ∈ rest.map Entry.key
    · obtain ⟨entry, before, after, rfl, hkey, hafter⟩ := ih hrest
      exact ⟨entry, first :: before, after, rfl, hkey, hafter⟩
    · have hfirst : first.key = key := by
        rw [List.map_cons, List.mem_cons] at h
        exact (h.resolve_right hrest).symm
      exact ⟨first, [], rest, rfl, hfirst, fun other hmem heq =>
        hrest (heq ▸ List.mem_map_of_mem hmem)⟩

/-- What is left of entries without the name is nothing. -/
theorem filter_key_eq_nil {entries : List Entry} (h : ∀ entry ∈ entries, entry.key ≠ key) :
    entries.filter (fun entry => decide (entry.key = key)) = [] := by
  rw [List.filter_eq_nil_iff]
  intro entry hmem
  simpa using h entry hmem

theorem IsLast.originOf? (h : IsLast s.entries key entry) :
    s.originOf? key = some entry.origin := by
  obtain ⟨before, after, hentries, hkey, hafter⟩ := h
  rw [Sources.originOf?, hentries, List.filter_append,
    List.filter_cons_of_pos (by simpa using hkey), filter_key_eq_nil hafter, List.getLast?_concat,
    Option.map_some]

theorem IsLast.get?_toVariables (h : IsLast s.entries key entry) :
    s.toVariables.get? key = some entry.value := by
  obtain ⟨before, after, hentries, rfl, hafter⟩ := h
  rw [toVariables, hentries, List.map_append, List.map_cons]
  refine OrderedMap.get?_insertAll_append_cons _ _ _ ?_
  rw [List.map_map]
  intro hmem
  obtain ⟨other, hother, heq⟩ := List.mem_map.mp hmem
  exact hafter other hother heq

theorem keys_toVariables (s : Sources) :
    s.toVariables.keys = (s.entries.map Entry.key).eraseDups := by
  rw [toVariables, OrderedMap.keys_ofList, List.map_map]
  rfl

theorem mem_keys_toVariables : key ∈ s.toVariables.keys ↔ key ∈ s.entries.map Entry.key := by
  rw [keys_toVariables, List.mem_eraseDups]

/-- **The origin of a name is the origin of its winning value.** A name has no origin exactly when
it is no name of the winning values. Any other name has a last entry, and its winning value and its
origin are those of that entry. The winning values have the names of the entries, each once, in the
order in which they first occur. -/
theorem winning_entries (s : Sources) :
    (∀ key, s.originOf? key = none ↔ key ∉ s.toVariables.keys) ∧
    (∀ key ∈ s.toVariables.keys, ∃ entry, IsLast s.entries key entry ∧
      s.toVariables.get? key = some entry.value ∧ s.originOf? key = some entry.origin) ∧
    s.toVariables.keys = (s.entries.map Entry.key).eraseDups := by
  have hlast : ∀ key ∈ s.toVariables.keys, ∃ entry, IsLast s.entries key entry := fun key hmem =>
    exists_isLast (mem_keys_toVariables.mp hmem)
  refine ⟨fun key => ⟨fun hnone hmem => ?_, fun hnot => ?_⟩, fun key hmem => ?_,
    keys_toVariables s⟩
  · obtain ⟨entry, hentry⟩ := hlast key hmem
    rw [hentry.originOf?] at hnone
    cases hnone
  · have habsent : ∀ entry ∈ s.entries, entry.key ≠ key := fun entry hmem heq =>
      hnot (mem_keys_toVariables.mpr (heq ▸ List.mem_map_of_mem hmem))
    rw [originOf?, filter_key_eq_nil habsent]
    rfl
  · obtain ⟨entry, hentry⟩ := hlast key hmem
    exact ⟨entry, hentry, hentry.get?_toVariables, hentry.originOf?⟩

/-- A name with the same value in two documents, the later of which came from no file. -/
theorem winning_entries_same_value :
    let s : Sources := ((∅ : Sources).add ⟨some "one.env", .ofList [("A", "1"), ("B", "2")]⟩).add
      ⟨none, .ofList [("C", "3"), ("B", "2")]⟩
    "B" ∈ s.toVariables.keys ∧ s.toVariables.keys = ["A", "B", "C"] ∧
      ∃ entry, IsLast s.entries "B" entry ∧ s.toVariables.get? "B" = some entry.value ∧
        s.originOf? "B" = some entry.origin ∧ entry.value = "2" ∧ entry.origin = none := by
  intro s
  have hmem : "B" ∈ s.toVariables.keys := by decide
  obtain ⟨-, hlast, hkeys⟩ := winning_entries s
  obtain ⟨entry, hentry, hvalue, horigin⟩ := hlast "B" hmem
  have hvalue' : s.toVariables.get? "B" = some "2" := by decide
  have horigin' : s.originOf? "B" = some none := by decide
  refine ⟨hmem, hkeys.trans (by decide), entry, hentry, hvalue, horigin, ?_, ?_⟩
  · exact Option.some.inj (hvalue.symm.trans hvalue')
  · exact Option.some.inj (horigin.symm.trans horigin')

end Interpolation.Sources
