import Interpolation.Sources.Load

/-!
# Sources over many calls

Whatever is called on sources, in the end it adds documents: a load of a file adds one or, when it
fails, none; a load of a directory adds those that come before the first failure. So two things
about adding one document are enough to know what any number of calls does. What was there stays in
front of what is added, in both columns. And if each entry stands behind the entries of earlier
documents, and apart from those of its own document in its name, then the same holds of the new
entries, whose number is larger than all others and whose names are those of a map.

## Main definitions

* `Sources.Call`, `Sources.afterCalls` — calls, and the sources after many of them.
* `Sources.Continues` — sources that are made from others by adding documents.
* `Sources.Extends` — the origins and entries of some sources stand in front of those of others.
* `Sources.InSequence` — entries in the order of their documents, apart from each other.

## Main results

* `Sources.continues_loadFile`, `Sources.continues_loadDirectory` — loads add documents.
* `Sources.extends_add`, `Sources.InSequence.add` — what one document does.
* `Sources.Continues.extends`, `Sources.Continues.inSequence` — what many documents do.
* `Sources.entries_afterCalls` — what the sources are like after any calls.
-/

namespace Interpolation.Sources

variable {s t u : Sources} {tree : FileTree} {start : Location} {path : String}

/-! ### Calls -/

/-- A call that makes sources of some variables, or adds to those that there are. Files may change
from call to call. -/
inductive Call where
  | ofVariables (content : Variables)
  | add (document : Source)
  | loadFile (tree : FileTree) (start : Location) (path : String)
  | loadDirectory (tree : FileTree) (start : Location) (path : String)

/-- The sources after a call, and why it failed, if it did. -/
def Call.apply (s : Sources) : Call → Sources × Option LoadFault
  | .ofVariables content => (.ofVariables content, none)
  | .add document => (s.add document, none)
  | .loadFile tree start path => s.loadFile tree start path
  | .loadDirectory tree start path => s.loadDirectory tree start path

/-- The sources after calls, each of which goes on where the one before ended, failed or not. -/
def afterCalls (s : Sources) (calls : List Call) : Sources :=
  calls.foldl (fun s call => (call.apply s).1) s

/-! ### Loads add documents -/

/-- Sources that are made from `s` by adding documents. -/
inductive Continues (s : Sources) : Sources → Prop
  | refl : Continues s s
  | add {t : Sources} (document : Source) (h : Continues s t) : Continues s (t.add document)

theorem Continues.trans (hst : Continues s t) (htu : Continues t u) : Continues s u := by
  induction htu with
  | refl => exact hst
  | add document _ ih => exact ih.add document

theorem loadAt_cases (tree : FileTree) (s : Sources) (location : Location) :
    (∃ document, s.loadAt tree location = (s.add document, none)) ∨
      ∃ fault, s.loadAt tree location = (s, some fault) := by
  rw [loadAt]
  cases Source.read tree location with
  | ok document => exact Or.inl ⟨document, rfl⟩
  | error fault => exact Or.inr ⟨fault, rfl⟩

/-- A load of a file adds one document, or fails and leaves everything as it was. -/
theorem loadFile_cases (tree : FileTree) (start : Location) (s : Sources) (path : String) :
    (∃ document, s.loadFile tree start path = (s.add document, none)) ∨
      ∃ fault, s.loadFile tree start path = (s, some fault) := by
  rw [loadFile]
  cases tree.locate start path with
  | error fault => exact Or.inr ⟨.file fault, rfl⟩
  | ok location => exact loadAt_cases tree s location

theorem loadFile_of_fault {fault : LoadFault} (h : (s.loadFile tree start path).2 = some fault) :
    (s.loadFile tree start path).1 = s := by
  rcases loadFile_cases tree start s path with ⟨document, hload⟩ | ⟨other, hload⟩
  · rw [hload] at h
    cases h
  · rw [hload]

/-- Adding one document or none is a way of adding documents. -/
theorem continues_of_cases {result : Sources × Option LoadFault}
    (h : (∃ document, result = (s.add document, none)) ∨ ∃ fault, result = (s, some fault)) :
    Continues s result.1 := by
  rcases h with ⟨document, rfl⟩ | ⟨fault, rfl⟩
  · exact .add document .refl
  · exact .refl

theorem continues_loadFile (tree : FileTree) (start : Location) (s : Sources) (path : String) :
    Continues s (s.loadFile tree start path).1 :=
  continues_of_cases (loadFile_cases tree start s path)

/-- If each of some loads adds documents, then so do all of them up to the first that fails. -/
theorem continues_loadEach {α : Type} {load : Sources → α → Sources × Option LoadFault}
    (hload : ∀ s item, Continues s (load s item).1) (s : Sources) (items : List α) :
    Continues s (loadEach load s items).1 := by
  induction items generalizing s with
  | nil => exact .refl
  | cons item rest ih =>
    have hitem := hload s item
    rw [loadEach]
    split
    · next hnext =>
      rw [hnext] at hitem
      exact hitem.trans (ih _)
    · next hnext =>
      rw [hnext] at hitem
      exact hitem

theorem continues_loadDirectory (tree : FileTree) (start : Location) (s : Sources)
    (path : String) : Continues s (s.loadDirectory tree start path).1 := by
  rw [loadDirectory]
  cases tree.locate start path with
  | error fault => exact .refl
  | ok location =>
    dsimp only
    cases tree.list location with
    | error fault => exact .refl
    | ok entries =>
      dsimp only
      split
      · exact .refl
      · exact continues_loadEach (fun s _ => continues_of_cases (loadAt_cases tree s _)) s _

/-- After any calls, the sources are such as adding documents makes them. -/
theorem continues_afterCalls (h : Continues ∅ s) (calls : List Call) :
    Continues ∅ (s.afterCalls calls) := by
  induction calls generalizing s with
  | nil => exact h
  | cons call rest ih =>
    refine ih ?_
    cases call with
    | ofVariables content => exact .add ⟨none, content⟩ .refl
    | add document => exact .add document h
    | loadFile tree start path => exact h.trans (continues_loadFile tree start s path)
    | loadDirectory tree start path => exact h.trans (continues_loadDirectory tree start s path)

/-! ### What is there stays where it is -/

/-- The origins and the entries of `s` stand in front of those of `t`, unchanged. -/
structure Extends (t s : Sources) : Prop where
  origins : s.origins <+: t.origins
  entries : s.entries <+: t.entries

theorem extends_add (s : Sources) (document : Source) : (s.add document).Extends s where
  origins := List.prefix_append _ _
  entries := by
    rw [entries_add]
    exact List.prefix_append _ _

theorem Continues.extends (h : Continues s t) : t.Extends s := by
  induction h with
  | refl => exact ⟨List.prefix_refl _, List.prefix_refl _⟩
  | @add t document _ ih =>
    have hlast := extends_add t document
    exact ⟨ih.origins.trans hlast.origins, ih.entries.trans hlast.entries⟩

/-! ### The order of the entries -/

/-- Every entry stands behind those of earlier documents, and those of its own document have other
names. -/
def InSequence (s : Sources) : Prop :=
  s.entries.Pairwise fun a b => a.source < b.source ∨ a.source = b.source ∧ a.key ≠ b.key

theorem source_lt_size {entry : Entry} (h : entry ∈ s.entries) : entry.source < s.size :=
  (List.getElem?_eq_some_iff.mp (origin_of_mem_entries h)).1

theorem InSequence.add (h : s.InSequence) (document : Source) : (s.add document).InSequence := by
  rw [InSequence, entries_add, List.pairwise_append]
  refine ⟨h, ?_, fun a ha b hb => Or.inl ?_⟩
  -- The names of one document are the keys of a map.
  · have hkeys : document.content.entries.Pairwise fun a b => a.1 ≠ b.1 :=
      List.pairwise_map.mp document.content.nodup_keys
    exact List.pairwise_map.mpr (hkeys.imp fun hne => Or.inr ⟨rfl, hne⟩)
  · obtain ⟨entry, -, rfl⟩ := List.mem_map.mp hb
    exact source_lt_size ha

theorem Continues.inSequence (h : Continues s t) (hs : s.InSequence) : t.InSequence := by
  induction h with
  | refl => exact hs
  | add document _ ih => exact ih.add document

theorem inSequence_empty : (∅ : Sources).InSequence := List.Pairwise.nil

theorem InSequence.source_le (h : s.InSequence) :
    (s.entries.map Entry.source).Pairwise (· ≤ ·) := by
  refine List.pairwise_map.mpr (h.imp fun hab => ?_)
  rcases hab with hlt | ⟨heq, -⟩
  · exact Nat.le_of_lt hlt
  · exact Nat.le_of_eq heq

theorem InSequence.nodup_keys (h : s.InSequence) (number : Nat) :
    ((s.entries.filter fun entry => decide (entry.source = number)).map Entry.key).Nodup := by
  refine List.pairwise_map.mpr (List.Pairwise.imp_of_mem ?_ (h.filter _))
  intro a b ha hb hab
  have hsource : a.source = b.source :=
    (of_decide_eq_true (List.mem_filter.mp ha).2).trans
      (of_decide_eq_true (List.mem_filter.mp hb).2).symm
  rcases hab with hlt | ⟨-, hne⟩
  · exact absurd hsource (Nat.ne_of_lt hlt)
  · exact hne

/-! ### After any calls -/

/-- **Sources after any calls.** Every place below the number of entries gives the entry that stands
there, and no other place gives any. Every entry has the number of a document and its origin. The
numbers never decrease along the entries, and entries with the same number have different names.
Whatever is added or loaded next, with or without success, leaves all origins and entries in their
places; a load of a file that fails leaves everything as it is. -/
theorem entries_afterCalls (calls : List Call) :
    let s := afterCalls ∅ calls
    (∀ index, s.entry? index = s.entries[index]? ∧
      (s.entries.length ≤ index ↔ s.entry? index = none)) ∧
    (∀ entry ∈ s.entries, s.origins[entry.source]? = some entry.origin) ∧
    (s.entries.map Entry.source).Pairwise (· ≤ ·) ∧
    (∀ number,
      ((s.entries.filter fun entry => decide (entry.source = number)).map Entry.key).Nodup) ∧
    (∀ document, (s.add document).Extends s) ∧
    (∀ tree start path, (s.loadFile tree start path).1.Extends s ∧
      (s.loadDirectory tree start path).1.Extends s) ∧
    ∀ tree start path fault, (s.loadFile tree start path).2 = some fault →
      (s.loadFile tree start path).1 = s := by
  intro s
  have hsequence : s.InSequence := (continues_afterCalls .refl calls).inSequence inSequence_empty
  refine ⟨fun index => ⟨entry?_eq_getElem? s index, ?_⟩, fun entry => origin_of_mem_entries,
    hsequence.source_le, hsequence.nodup_keys, extends_add s, fun tree start path => ⟨?_, ?_⟩,
    fun tree start path fault => loadFile_of_fault⟩
  · rw [entry?_eq_getElem?, List.getElem?_eq_none_iff]
  · exact (continues_loadFile tree start s path).extends
  · exact (continues_loadDirectory tree start s path).extends

/-- A malformed document is refused between two others, and again behind them. -/
theorem entries_afterCalls_refused :
    let tree : FileTree :=
      .directory [("a.env", .file "A=1\nB=2\n".toUTF8), ("b.env", .file "oops".toUTF8)]
    let s := afterCalls ∅ [.ofVariables (.ofList [("B", "0")]), .loadFile tree [] "/b.env",
      .loadFile tree [] "/a.env"]
    let fault : LoadFault := .document (.malformedLine 1)
    s.entries = [⟨0, none, "B", "0"⟩, ⟨1, some "/a.env", "A", "1"⟩,
      ⟨1, some "/a.env", "B", "2"⟩] ∧
    s.entry? 2 = some ⟨1, some "/a.env", "B", "2"⟩ ∧ s.entry? 3 = none ∧
    (s.loadFile tree [] "/b.env").2 = some fault ∧ (s.loadFile tree [] "/b.env").1 = s := by
  intro tree s fault
  have hentries : s.entries = [⟨0, none, "B", "0"⟩, ⟨1, some "/a.env", "A", "1"⟩,
      ⟨1, some "/a.env", "B", "2"⟩] := by decide
  have hfault : (s.loadFile tree [] "/b.env").2 = some fault := by decide
  obtain ⟨hplace, -, -, -, -, -, hrefused⟩ := entries_afterCalls
    [.ofVariables (.ofList [("B", "0")]), .loadFile tree [] "/b.env", .loadFile tree [] "/a.env"]
  have htwo := (hplace 2).1
  have hthree := (hplace 3).2
  rw [hentries] at htwo hthree
  exact ⟨hentries, htwo, hthree.mp (by decide), hfault, hrefused tree [] "/b.env" fault hfault⟩

end Interpolation.Sources
