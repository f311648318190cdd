/-!
# Maps in insertion order

A map from names to values that remembers the order in which its names first came in. A name that
is inserted again keeps its place and takes the new value, so the list of keys only ever grows at
its end. That order is visible wherever variables are shown, and it is why the entries are a list
and not a search tree.

## Main definitions

* `OrderedMap` — the entries, with the proof that no key is repeated.
* `OrderedMap.get?`, `OrderedMap.insert`, `OrderedMap.ofList`, `OrderedMap.override`.
* `OrderedMap.filterMap` — values recomputed or dropped, keys in place.

## Main results

* `OrderedMap.keys_insert`, `OrderedMap.get?_insert` — what an insertion does to the two views.
* `OrderedMap.ext_keys_get?` — keys in order and values by name determine a map.
* `OrderedMap.override_assoc` — it does not matter which layers are put together first.
-/

namespace Interpolation

/-- A map from names to values whose entries are kept in the order of first insertion. -/
structure OrderedMap (α : Type) where
  /-- The entries in order. -/
  entries : List (String × α)
  /-- No key is repeated. -/
  nodup_keys : (entries.map Prod.fst).Nodup

namespace OrderedMap

variable {α β : Type}

/-! ### Entry lists -/

/-- Put `value` in the place of `key`, or at the end where the list has no such key. -/
def putEntry (key : String) (value : α) : List (String × α) → List (String × α)
  | [] => [(key, value)]
  | entry :: rest =>
    if entry.1 = key then (key, value) :: rest else entry :: putEntry key value rest

@[simp] theorem putEntry_nil (key : String) (value : α) :
    putEntry key value [] = [(key, value)] := rfl

theorem putEntry_cons (key : String) (value : α) (entry : String × α) (rest : List (String × α)) :
    putEntry key value (entry :: rest) =
      if entry.1 = key then (key, value) :: rest else entry :: putEntry key value rest := rfl

theorem map_fst_putEntry (key : String) (value : α) (entries : List (String × α)) :
    (putEntry key value entries).map Prod.fst =
      if key ∈ entries.map Prod.fst then entries.map Prod.fst
      else entries.map Prod.fst ++ [key] := by
  induction entries with
  | nil => simp
  | cons entry rest ih =>
    by_cases h : entry.1 = key
    · simp [putEntry_cons, h]
    · have h' : key ≠ entry.1 := fun e => h e.symm
      by_cases hmem : key ∈ rest.map Prod.fst
      · simp [putEntry_cons, h, h', ih, hmem]
      · simp only [putEntry_cons, h, if_false, List.map_cons, ih, hmem, List.mem_cons, h',
          false_or, List.cons_append]

theorem nodup_map_fst_putEntry (key : String) (value : α) {entries : List (String × α)}
    (h : (entries.map Prod.fst).Nodup) : ((putEntry key value entries).map Prod.fst).Nodup := by
  rw [map_fst_putEntry]
  split
  · exact h
  · rename_i hmem
    refine List.nodup_append.2 ⟨h, by simp, ?_⟩
    intro a ha b hb hab
    simp only [List.mem_singleton] at hb
    exact hmem (by rw [← hb, ← hab]; exact ha)

theorem lookup_cons_ite (name : String) (entry : String × α) (rest : List (String × α)) :
    (entry :: rest).lookup name = if name = entry.1 then some entry.2 else rest.lookup name := by
  obtain ⟨k, v⟩ := entry
  by_cases h : name = k
  · simp [h]
  · have hb : (name == k) = false := by simpa using h
    simp [List.lookup_cons, h, hb]

theorem putEntry_of_notMem {key : String} {entries : List (String × α)}
    (h : key ∉ entries.map Prod.fst) (value : α) :
    putEntry key value entries = entries ++ [(key, value)] := by
  induction entries with
  | nil => rfl
  | cons entry rest ih =>
    rw [List.map_cons, List.mem_cons, not_or] at h
    rw [putEntry_cons, if_neg (Ne.symm h.1), ih h.2, List.cons_append]

theorem lookup_eq_none_of_notMem {name : String} {entries : List (String × α)}
    (h : name ∉ entries.map Prod.fst) : entries.lookup name = none := by
  rw [List.lookup_eq_none_iff]
  intro entry hmem
  simpa using fun heq : name = entry.1 => h (List.mem_map.2 ⟨entry, hmem, heq.symm⟩)

theorem lookup_putEntry (key : String) (value : α) (name : String) (entries : List (String × α)) :
    (putEntry key value entries).lookup name =
      if name = key then some value else entries.lookup name := by
  induction entries with
  | nil => simp [lookup_cons_ite]
  | cons entry rest ih =>
    by_cases hk : entry.1 = key
    · by_cases h : name = key <;> simp [putEntry_cons, lookup_cons_ite, hk, h]
    · by_cases h : name = entry.1
      · simp [putEntry_cons, lookup_cons_ite, hk, h]
      · simp [putEntry_cons, lookup_cons_ite, hk, h, ih]

/-! ### The map -/

/-- The map without entries. -/
def empty : OrderedMap α := ⟨[], List.nodup_nil⟩

instance : EmptyCollection (OrderedMap α) := ⟨empty⟩

instance : Inhabited (OrderedMap α) := ⟨empty⟩

/-- The keys in order. -/
def keys (m : OrderedMap α) : List String := m.entries.map Prod.fst

/-- The value of a name. -/
def get? (m : OrderedMap α) (name : String) : Option α := m.entries.lookup name

/-- Whether the map has a value for the name. -/
def contains (m : OrderedMap α) (name : String) : Bool := (m.get? name).isSome

/-- Set the value of a name: a name that is present keeps its place, a new one goes last. -/
def insert (m : OrderedMap α) (name : String) (value : α) : OrderedMap α :=
  ⟨putEntry name value m.entries, nodup_map_fst_putEntry name value m.nodup_keys⟩

/-- Insert the entries of a list one after the other, the last value of a key winning. -/
def insertAll (m : OrderedMap α) (entries : List (String × α)) : OrderedMap α :=
  entries.foldl (fun acc entry => acc.insert entry.1 entry.2) m

/-- The map that a list of entries builds from nothing. -/
def ofList (entries : List (String × α)) : OrderedMap α := empty.insertAll entries

/-- Layer `upper` over `lower`: values of `upper` win, keys of `lower` keep their places. -/
def override (lower upper : OrderedMap α) : OrderedMap α := lower.insertAll upper.entries

theorem map_fst_filterMap_sublist (f : String → α → Option β) (entries : List (String × α)) :
    ((entries.filterMap fun entry => (f entry.1 entry.2).map (entry.1, ·)).map Prod.fst).Sublist
      (entries.map Prod.fst) := by
  induction entries with
  | nil => simp
  | cons entry rest ih =>
    rw [List.filterMap_cons]
    cases f entry.1 entry.2 with
    | none => exact ih.cons _
    | some b => exact ih.cons_cons _

/-- Recompute every value from its name and itself, dropping the entries that give none. -/
def filterMap (f : String → α → Option β) (m : OrderedMap α) : OrderedMap β :=
  ⟨m.entries.filterMap fun entry => (f entry.1 entry.2).map (entry.1, ·),
    (map_fst_filterMap_sublist f m.entries).nodup m.nodup_keys⟩

/-! ### The two views -/

@[ext] theorem ext {m n : OrderedMap α} (h : m.entries = n.entries) : m = n := by
  cases m; cases n; cases h; rfl

instance [DecidableEq α] : DecidableEq (OrderedMap α) := fun m n =>
  decidable_of_iff (m.entries = n.entries) ⟨ext, congrArg entries⟩

@[simp] theorem keys_empty : (∅ : OrderedMap α).keys = [] := rfl

@[simp] theorem get?_empty (name : String) : (∅ : OrderedMap α).get? name = none := rfl

@[simp] theorem insertAll_nil (m : OrderedMap α) : m.insertAll [] = m := rfl

@[simp] theorem insertAll_cons (m : OrderedMap α) (entry : String × α)
    (rest : List (String × α)) :
    m.insertAll (entry :: rest) = (m.insert entry.1 entry.2).insertAll rest := rfl

theorem insertAll_append (m : OrderedMap α) (first second : List (String × α)) :
    m.insertAll (first ++ second) = (m.insertAll first).insertAll second := by
  simp [insertAll]

/-- An insertion adds its key at the end of the keys, if it is new. -/
theorem keys_insert (m : OrderedMap α) (name : String) (value : α) :
    (m.insert name value).keys = if name ∈ m.keys then m.keys else m.keys ++ [name] :=
  map_fst_putEntry name value m.entries

/-- An insertion sets the value of its key and of no other. -/
theorem get?_insert (m : OrderedMap α) (key : String) (value : α) (name : String) :
    (m.insert key value).get? name = if name = key then some value else m.get? name :=
  lookup_putEntry key value name m.entries

/-- A new name goes behind the entries that are there. -/
theorem entries_insert_of_notMem {m : OrderedMap α} {name : String} (h : name ∉ m.keys)
    (value : α) : (m.insert name value).entries = m.entries ++ [(name, value)] :=
  putEntry_of_notMem h value

/-- New names go behind the entries that are there, in their own order. -/
theorem entries_insertAll_of_nodup (m : OrderedMap α) {entries : List (String × α)}
    (nodup : (m.keys ++ entries.map Prod.fst).Nodup) :
    (m.insertAll entries).entries = m.entries ++ entries := by
  induction entries generalizing m with
  | nil => rw [insertAll_nil, List.append_nil]
  | cons entry rest ih =>
    rw [List.map_cons, List.append_cons] at nodup
    have hfront := List.nodup_append.mp (List.nodup_append.mp nodup).1
    have hnew : entry.1 ∉ m.keys := fun hmem =>
      hfront.2.2 _ hmem _ (List.mem_singleton_self _) rfl
    rw [insertAll_cons, ih _ (by rwa [keys_insert, if_neg hnew]), entries_insert_of_notMem hnew,
      List.append_assoc, List.singleton_append]

/-- Behind the keys that are there, the new ones stand in the order in which they first occur. -/
theorem keys_insertAll (m : OrderedMap α) (entries : List (String × α)) :
    (m.insertAll entries).keys =
      m.keys ++ ((entries.map Prod.fst).filter fun key => decide (key ∉ m.keys)).eraseDups := by
  induction entries generalizing m with
  | nil => simp
  | cons entry rest ih =>
    rw [insertAll_cons, ih, keys_insert, List.map_cons]
    by_cases hmem : entry.1 ∈ m.keys
    · rw [if_pos hmem, List.filter_cons_of_neg (by simpa using hmem)]
    · have hrest : (rest.map Prod.fst).filter (fun key => decide (key ∉ m.keys ++ [entry.1])) =
          ((rest.map Prod.fst).filter fun key => decide (key ∉ m.keys)).filter
            fun key => !key == entry.1 := by
        rw [List.filter_filter]
        refine List.filter_congr fun key _ => ?_
        by_cases hkey : key = entry.1 <;> simp [hkey]
      rw [if_neg hmem, List.filter_cons_of_pos (by simpa using hmem), List.eraseDups_cons, hrest,
        List.append_assoc, List.singleton_append]

theorem keys_ofList (entries : List (String × α)) :
    (ofList entries).keys = (entries.map Prod.fst).eraseDups := by
  rw [ofList, keys_insertAll]
  change [] ++ ((entries.map Prod.fst).filter fun key => decide (key ∉ [])).eraseDups = _
  rw [List.nil_append, List.filter_eq_self.mpr fun _ _ => by simp]

/-- The entries of a map build the map. -/
theorem ofList_entries (m : OrderedMap α) : ofList m.entries = m := by
  refine ext (entries_insertAll_of_nodup ∅ ?_)
  rw [keys_empty, List.nil_append]
  exact m.nodup_keys

theorem mem_keys_insert {m : OrderedMap α} {key : String} {value : α} {name : String} :
    name ∈ (m.insert key value).keys ↔ name = key ∨ name ∈ m.keys := by
  rw [keys_insert]
  split <;> simp_all [or_comm]

/-- The keys are the names that have a value. -/
theorem isSome_get?_iff {m : OrderedMap α} {name : String} :
    (m.get? name).isSome ↔ name ∈ m.keys := by
  unfold get? keys
  induction m.entries with
  | nil => simp
  | cons entry rest ih => by_cases h : name = entry.1 <;> simp [lookup_cons_ite, h, ih]

theorem contains_iff {m : OrderedMap α} {name : String} : m.contains name ↔ name ∈ m.keys :=
  isSome_get?_iff

theorem get?_eq_some_iff {m : OrderedMap α} {name : String} {value : α} :
    m.get? name = some value ↔ (name, value) ∈ m.entries := by
  obtain ⟨entries, nodup⟩ := m
  unfold get?
  induction entries with
  | nil => simp
  | cons entry rest ih =>
    obtain ⟨k, v⟩ := entry
    simp only [List.map_cons, List.nodup_cons] at nodup
    simp only [lookup_cons_ite, List.mem_cons, Prod.mk.injEq]
    by_cases h : name = k
    · subst h
      have : (name, value) ∉ rest := fun hm => nodup.1 (List.mem_map.2 ⟨_, hm, rfl⟩)
      simp [this, eq_comm]
    · simp only [h, if_false, false_and, false_or]
      exact ih nodup.2

/-- The keys are the names to which some value belongs. -/
theorem exists_get?_iff {m : OrderedMap α} {name : String} :
    (∃ value, m.get? name = some value) ↔ name ∈ m.keys := by
  rw [← isSome_get?_iff, Option.isSome_iff_exists]

/-- A name has no value exactly when it is not among the keys. -/
theorem get?_eq_none_iff {m : OrderedMap α} {name : String} :
    m.get? name = none ↔ name ∉ m.keys := by
  rw [← isSome_get?_iff, Option.not_isSome_iff_eq_none]

/-- Keys in order and values by name determine a map. -/
theorem ext_keys_get? {m n : OrderedMap α} (hkeys : m.keys = n.keys)
    (hget : ∀ name ∈ m.keys, m.get? name = n.get? name) : m = n := by
  apply ext
  apply List.ext_getElem
  · simpa [keys] using congrArg List.length hkeys
  · intro i hi hi'
    have hkey : (m.entries[i]).1 = (n.entries[i]).1 := by
      have := congrArg (·[i]?) hkeys
      simpa [keys, hi, hi'] using this
    have hm : m.get? (m.entries[i]).1 = some (m.entries[i]).2 :=
      get?_eq_some_iff.2 (List.getElem_mem hi)
    have hn : n.get? (n.entries[i]).1 = some (n.entries[i]).2 :=
      get?_eq_some_iff.2 (List.getElem_mem hi')
    have := hget _ (List.mem_map.2 ⟨_, List.getElem_mem hi, rfl⟩)
    rw [hm, hkey, hn] at this
    exact Prod.ext hkey (Option.some.inj this)

/-- The order of the entries does not matter to the value of a name. -/
theorem get?_eq_of_perm {m n : OrderedMap α} (h : m.entries.Perm n.entries) (name : String) :
    m.get? name = n.get? name := by
  refine Option.ext fun value => ?_
  rw [get?_eq_some_iff, get?_eq_some_iff, h.mem_iff]

theorem get?_insertAll_of_notMem (m : OrderedMap α) {entries : List (String × α)} {name : String}
    (h : name ∉ entries.map Prod.fst) : (m.insertAll entries).get? name = m.get? name := by
  induction entries generalizing m with
  | nil => rfl
  | cons entry rest ih =>
    rw [List.map_cons, List.mem_cons, not_or] at h
    rw [insertAll_cons, ih _ h.2, get?_insert, if_neg h.1]

/-- Of several values for a name, the last wins. -/
theorem get?_insertAll_append_cons (m : OrderedMap α) (before : List (String × α))
    {after : List (String × α)} {name : String} (value : α) (h : name ∉ after.map Prod.fst) :
    (m.insertAll (before ++ (name, value) :: after)).get? name = some value := by
  rw [insertAll_append, insertAll_cons, get?_insertAll_of_notMem _ h, get?_insert, if_pos rfl]

theorem get?_insertAll (m : OrderedMap α) {entries : List (String × α)}
    (nodup : (entries.map Prod.fst).Nodup) (name : String) :
    (m.insertAll entries).get? name = (entries.lookup name).or (m.get? name) := by
  induction entries generalizing m with
  | nil => rfl
  | cons entry rest ih =>
    rw [List.map_cons, List.nodup_cons] at nodup
    rw [insertAll_cons, ih _ nodup.2, get?_insert, lookup_cons_ite]
    by_cases h : name = entry.1
    · subst h
      rw [if_pos rfl, if_pos rfl, lookup_eq_none_of_notMem nodup.1, Option.none_or, Option.some_or]
    · rw [if_neg h, if_neg h]

/-- In layers, the value of a name is that of the upper layer, if it has one. -/
theorem get?_override (lower upper : OrderedMap α) (name : String) :
    (lower.override upper).get? name = (upper.get? name).or (lower.get? name) :=
  get?_insertAll lower upper.nodup_keys name

theorem eraseDups_of_nodup {names : List String} (h : names.Nodup) : names.eraseDups = names := by
  induction names with
  | nil => rfl
  | cons name rest ih =>
    rw [List.nodup_cons] at h
    have hrest : rest.filter (fun other => !other == name) = rest := by
      refine List.filter_eq_self.mpr fun other hmem => ?_
      simpa using fun heq : other = name => h.1 (heq ▸ hmem)
    rw [List.eraseDups_cons, hrest, ih h.2]

/-- Behind other names a name is kept if it is none of them. -/
theorem eraseDups_append_singleton (names : List String) (name : String) :
    (names ++ [name]).eraseDups =
      if name ∈ names then names.eraseDups else names.eraseDups ++ [name] := by
  rw [List.eraseDups_append]
  by_cases hname : name ∈ names
  · have hnone : [name].removeAll names = [] := by simp [List.removeAll, hname]
    rw [if_pos hname, hnone, List.eraseDups_nil, List.append_nil]
  · have hone : [name].removeAll names = [name] := by simp [List.removeAll, hname]
    rw [if_neg hname, hone]
    rfl

/-- In layers, the new keys of the upper layer stand behind the keys of the lower one. -/
theorem keys_override (lower upper : OrderedMap α) :
    (lower.override upper).keys =
      lower.keys ++ upper.keys.filter fun key => decide (key ∉ lower.keys) := by
  rw [override, keys_insertAll]
  exact congrArg _ (eraseDups_of_nodup (upper.nodup_keys.filter _))

/-- It does not matter which two of three layers are put together first. -/
theorem override_assoc (lower middle upper : OrderedMap α) :
    (lower.override middle).override upper = lower.override (middle.override upper) := by
  refine ext_keys_get? ?_ fun name _ => ?_
  -- A key is new over two layers when it is new over each of them.
  · have hnew : ∀ key,
        decide (key ∉ lower.keys ++ middle.keys.filter fun key => decide (key ∉ lower.keys)) =
          (decide (key ∉ lower.keys) && decide (key ∉ middle.keys)) := by
      intro key
      by_cases hlower : key ∈ lower.keys <;> simp [hlower]
    rw [keys_override, keys_override, keys_override, keys_override, List.filter_append,
      List.filter_filter, List.append_assoc, funext hnew]
  · rw [get?_override, get?_override, get?_override, get?_override, Option.or_assoc]

/-- Layering goes on where insertion goes on in the upper layer. -/
theorem override_insertAll (lower upper : OrderedMap α) (entries : List (String × α)) :
    lower.override (upper.insertAll entries) = (lower.override upper).insertAll entries := by
  induction entries generalizing upper with
  | nil => rfl
  | cons entry rest ih =>
    -- One insertion is a layer of one entry.
    have hinsert : lower.override (upper.insert entry.1 entry.2) =
        (lower.override upper).insert entry.1 entry.2 :=
      (override_assoc lower upper (ofList [entry])).symm
    rw [insertAll_cons, ih, hinsert, insertAll_cons]

/-- The map that a list of entries builds, over another, is the list inserted into the other. -/
theorem override_ofList (lower : OrderedMap α) (entries : List (String × α)) :
    lower.override (ofList entries) = lower.insertAll entries :=
  override_insertAll lower ∅ entries

theorem empty_override (m : OrderedMap α) : (∅ : OrderedMap α).override m = m := ofList_entries m

/-- Recomputing the values recomputes the value of each name. -/
theorem get?_filterMap (f : String → α → Option β) (m : OrderedMap α) (name : String) :
    (m.filterMap f).get? name = (m.get? name).bind (f name) := by
  obtain ⟨entries, nodup⟩ := m
  change (entries.filterMap fun entry => (f entry.1 entry.2).map (entry.1, ·)).lookup name =
    (entries.lookup name).bind (f name)
  induction entries with
  | nil => rfl
  | cons entry rest ih =>
    simp only [List.map_cons, List.nodup_cons] at nodup
    have hrest := ih nodup.2
    rw [List.filterMap_cons, lookup_cons_ite]
    by_cases h : name = entry.1
    · subst h
      rw [if_pos rfl, Option.bind_some]
      cases f entry.1 entry.2 with
      | none => rw [Option.map_none, hrest, lookup_eq_none_of_notMem nodup.1]; rfl
      | some value => rw [Option.map_some, lookup_cons_ite, if_pos rfl]
    · rw [if_neg h, ← hrest]
      cases f entry.1 entry.2 with
      | none => rw [Option.map_none]
      | some value => rw [Option.map_some, lookup_cons_ite, if_neg h]

/-- Values that are recomputed without dropping any keep their keys in place. -/
theorem entries_filterMap_some (f : String → α → β) (m : OrderedMap α) :
    (m.filterMap fun name value => some (f name value)).entries =
      m.entries.map fun entry => (entry.1, f entry.1 entry.2) := by
  simp only [filterMap, Option.map_some, List.filterMap_eq_map']

theorem keys_filterMap_some (f : String → α → β) (m : OrderedMap α) :
    (m.filterMap fun name value => some (f name value)).keys = m.keys := by
  rw [keys, entries_filterMap_some, List.map_map]
  rfl

/-- Setting a name to the value it has changes nothing. -/
theorem insert_of_get? {m : OrderedMap α} {name : String} {value : α}
    (h : m.get? name = some value) : m.insert name value = m := by
  have hmem : name ∈ m.keys := isSome_get?_iff.1 (by simp [h])
  refine ext_keys_get? (by simp [keys_insert, hmem]) fun other _ => ?_
  rw [get?_insert]
  split
  · subst_vars; exact h.symm
  · rfl

end OrderedMap

/-- Variables: names with their texts, in the order in which they were given. -/
abbrev Variables := OrderedMap String

end Interpolation
