/-!
# Sets of names

A finite set of names, held as its strictly increasing list. Names are compared by code points, so
two sets with the same members are the same list, and a set is shown in one way only.

Whatever has names is put into the order of the names in the same way: one item after the other is
put into its place, and takes the place of an item that has its name. So items are lost where names
are repeated, and only there.

## Main definitions

* `orderedBy` — items in the order of their names, the last of each name.
* `NameSet` — a strictly increasing list of names.
* `NameSet.ofList` — the set of the members of a list.
* `NameSet.quoted` — the members in single quotes, separated by commas.

## Main results

* `perm_orderedBy` — where names are distinct no item is lost.
* `NameSet.mem_ofList` — the members of `ofList names` are those of `names`.
* `NameSet.ext_mem` — the members determine the set.
* `pairwise_mergeSort_name` — what is sorted by name is in the order of the names.
-/

namespace Interpolation

/-! ### Items in the order of their names -/

section Order

variable {α : Type} (name : α → String)

/-- Put an item into its place among items in the order of their names. It takes the place of an
item that has its name. -/
def placeBy (item : α) : List α → List α
  | [] => [item]
  | other :: rest =>
    if name item < name other then item :: other :: rest
    else if name item = name other then item :: rest
    else other :: placeBy item rest

/-- Put items into their places one after the other. -/
def placeAllBy (placed items : List α) : List α :=
  items.foldl (fun placed item => placeBy name item placed) placed

/-- The items in the order of their names, the last one of each name. -/
def orderedBy (items : List α) : List α := placeAllBy name [] items

variable {name}

theorem mem_map_placeBy {item : α} {placed : List α} {key : String} :
    key ∈ (placeBy name item placed).map name ↔ key = name item ∨ key ∈ placed.map name := by
  induction placed with
  | nil => simp [placeBy]
  | cons other rest ih =>
    by_cases hlt : name item < name other
    · simp [placeBy, hlt]
    · by_cases heq : name item = name other
      · simp [placeBy, heq]
      · rw [placeBy, if_neg hlt, if_neg heq, List.map_cons, List.mem_cons, ih, List.map_cons,
          List.mem_cons]
        exact or_left_comm

theorem pairwise_placeBy (item : α) {placed : List α}
    (h : placed.Pairwise fun a b => name a < name b) :
    (placeBy name item placed).Pairwise fun a b => name a < name b := by
  induction placed with
  | nil => simp [placeBy]
  | cons other rest ih =>
    obtain ⟨hother, hrest⟩ := List.pairwise_cons.1 h
    by_cases hlt : name item < name other
    · rw [placeBy, if_pos hlt]
      refine List.pairwise_cons.2 ⟨fun member hmem => ?_, h⟩
      rcases List.mem_cons.1 hmem with rfl | hmem
      · exact hlt
      · exact String.lt_trans hlt (hother _ hmem)
    · by_cases heq : name item = name other
      · rw [placeBy, if_neg hlt, if_pos heq]
        exact List.pairwise_cons.2 ⟨fun member hmem => heq ▸ hother member hmem, hrest⟩
      · have hgt : name other < name item := by
          by_cases hgt : name other < name item
          · exact hgt
          · exact absurd (String.le_antisymm (String.not_lt.1 hgt) (String.not_lt.1 hlt)) heq
        rw [placeBy, if_neg hlt, if_neg heq]
        refine List.pairwise_cons.2 ⟨fun member hmem => ?_, ih hrest⟩
        rcases mem_map_placeBy.1 (List.mem_map_of_mem hmem) with hname | hname
        · exact hname ▸ hgt
        · obtain ⟨found, hfound, hsame⟩ := List.mem_map.1 hname
          exact hsame ▸ hother found hfound

/-- An item with a name of its own takes the place of no other. -/
theorem perm_placeBy {item : α} {placed : List α} (h : name item ∉ placed.map name) :
    (placeBy name item placed).Perm (item :: placed) := by
  induction placed with
  | nil => exact .refl _
  | cons other rest ih =>
    rw [List.map_cons, List.mem_cons, not_or] at h
    by_cases hlt : name item < name other
    · rw [placeBy, if_pos hlt]
    · rw [placeBy, if_neg hlt, if_neg h.1]
      exact ((ih h.2).cons other).trans (.swap item other rest)

theorem mem_map_placeAllBy {placed items : List α} {key : String} :
    key ∈ (placeAllBy name placed items).map name ↔
      key ∈ placed.map name ∨ key ∈ items.map name := by
  induction items generalizing placed with
  | nil => simp [placeAllBy]
  | cons item rest ih =>
    change key ∈ (placeAllBy name (placeBy name item placed) rest).map name ↔ _
    rw [ih, mem_map_placeBy, List.map_cons, List.mem_cons, or_assoc, or_left_comm]

theorem pairwise_placeAllBy {placed : List α} (items : List α)
    (h : placed.Pairwise fun a b => name a < name b) :
    (placeAllBy name placed items).Pairwise fun a b => name a < name b := by
  induction items generalizing placed with
  | nil => exact h
  | cons item rest ih => exact ih (pairwise_placeBy item h)

theorem perm_placeAllBy {placed items : List α} (h : ((placed ++ items).map name).Nodup) :
    (placeAllBy name placed items).Perm (placed ++ items) := by
  induction items generalizing placed with
  | nil => rw [List.append_nil]; exact .refl _
  | cons item rest ih =>
    have hfront : (placed ++ item :: rest).Perm (item :: placed ++ rest) := List.perm_middle
    have hnodup := (hfront.map name).nodup_iff.1 h
    rw [List.cons_append, List.map_cons, List.nodup_cons, List.map_append, List.mem_append,
      not_or] at hnodup
    have hplace := perm_placeBy hnodup.1.1
    have hall := (hplace.append_right rest)
    exact (ih ((hall.map name).nodup_iff.2 ((hfront.map name).nodup_iff.1 h))).trans
      (hall.trans hfront.symm)

theorem mem_map_orderedBy {items : List α} {key : String} :
    key ∈ (orderedBy name items).map name ↔ key ∈ items.map name := by
  simp [orderedBy, mem_map_placeAllBy]

/-- Each item has a greater name than those before it. -/
theorem pairwise_orderedBy (name : α → String) (items : List α) :
    (orderedBy name items).Pairwise fun a b => name a < name b :=
  pairwise_placeAllBy items .nil

/-- Items with distinct names are all there, each once. -/
theorem perm_orderedBy {items : List α} (h : (items.map name).Nodup) :
    (orderedBy name items).Perm items :=
  perm_placeAllBy h

end Order

/-! ### The set -/

/-- A finite set of names, in increasing order. -/
structure NameSet where
  /-- The members in increasing order. -/
  names : List String
  /-- The order is strict, so that no member is repeated. -/
  sorted : names.Pairwise (· < ·)

namespace NameSet

/-- The set of the members of a list. -/
def ofList (names : List String) : NameSet := ⟨orderedBy id names, pairwise_orderedBy id names⟩

instance : Membership String NameSet := ⟨fun set name => name ∈ set.names⟩

instance (name : String) (set : NameSet) : Decidable (name ∈ set) :=
  inferInstanceAs (Decidable (name ∈ set.names))

instance : DecidableEq NameSet := fun s t =>
  if h : s.names = t.names then isTrue (by cases s; cases t; cases h; rfl)
  else isFalse fun e => h (congrArg names e)

/-- Whether the set has no member. -/
def isEmpty (set : NameSet) : Bool := set.names.isEmpty

/-- The members of the set of a list are those of the list. -/
@[simp] theorem mem_ofList {name : String} {names : List String} :
    name ∈ ofList names ↔ name ∈ names := by
  change name ∈ orderedBy id names ↔ name ∈ names
  have h : name ∈ (orderedBy id names).map id ↔ name ∈ names.map id := mem_map_orderedBy
  rwa [List.map_id, List.map_id] at h

theorem isEmpty_iff {set : NameSet} : set.isEmpty = true ↔ ∀ name, name ∉ set := by
  rw [isEmpty, List.isEmpty_iff, List.eq_nil_iff_forall_not_mem]
  rfl

/-- Two sets with the same members are equal. -/
theorem ext_mem {s t : NameSet} (h : ∀ name, name ∈ s ↔ name ∈ t) : s = t := by
  obtain ⟨l, hl⟩ := s
  obtain ⟨m, hm⟩ := t
  have nodup : ∀ {names : List String}, names.Pairwise (· < ·) → names.Nodup := fun hp =>
    List.Pairwise.imp (fun {a b} (hlt : a < b) (he : a = b) =>
      String.lt_irrefl b (he ▸ hlt)) hp
  have hperm : l.Perm m := (List.perm_ext_iff_of_nodup (nodup hl) (nodup hm)).2 h
  have : l = m := hperm.eq_of_pairwise
    (fun a b _ _ hab hba => absurd hba (String.lt_asymm hab)) hl hm
  subst this
  rfl

/-- The members in single quotes, separated by a comma and a space. -/
def quoted (set : NameSet) : String :=
  ", ".intercalate (set.names.map fun name => "'" ++ name ++ "'")

end NameSet

/-! ### Sorting by name -/

/-- What is sorted by name is in the order of the names. -/
theorem pairwise_mergeSort_name {α : Type} (name : α → String) (l : List α) :
    (l.mergeSort fun a b => decide (name a ≤ name b)).Pairwise fun a b => name a ≤ name b := by
  have htrans : ∀ a b c : α, decide (name a ≤ name b) = true → decide (name b ≤ name c) = true →
      decide (name a ≤ name c) = true := by
    intro a b c hab hbc
    rw [decide_eq_true_eq] at hab hbc ⊢
    exact String.le_trans hab hbc
  have htotal : ∀ a b : α, (decide (name a ≤ name b) || decide (name b ≤ name a)) = true := by
    intro a b
    rw [Bool.or_eq_true, decide_eq_true_eq, decide_eq_true_eq]
    exact String.le_total (name a) (name b)
  simpa only [decide_eq_true_eq] using List.pairwise_mergeSort htrans htotal l

end Interpolation
