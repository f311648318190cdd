import Mathlib.Data.List.Forall2
import Interpolation.Proofs.Sources.Layers
import Interpolation.Sources.Load

/-!
# The documents that are loaded

A load goes through files and directories step by step and gives up at the first fault. What it
adds when it does not give up can be said without steps: each file has its document, each directory
has one for each of its files of variables, sorted by name, and all of them are added in order.

## Main definitions

* `FileTree.HasDocument`, `FileTree.HasDocuments` — the document of a file, the documents of a
  directory.

## Main results

* `Sources.loadFile_eq_iff`, `Sources.loadDirectory_eq_iff` — when one load succeeds, and what it
  adds.
* `Sources.loadEach_loadFile_eq_iff`, `Sources.loadEach_loadDirectory_eq_iff` — the same for one
  load after the other.
-/

namespace Interpolation

/-! ### What a tree holds -/

namespace FileTree

/-- A path leads to a file with a document. -/
def HasDocument (tree : FileTree) (start : Location) (path : String) (document : Source) : Prop :=
  ∃ location, tree.locate start path = .ok location ∧ Source.read tree location = .ok document

/-- A path leads to a directory with documents: of its entries some are files of variables, and
each of these has one document, in the order of their names. -/
def HasDocuments (tree : FileTree) (start : Location) (path : String)
    (documents : List Source) : Prop :=
  ∃ location entries names, tree.locate start path = .ok location ∧
    tree.list location = .ok entries ∧
    names.Perm ((entries.filter Sources.isVariablesFile).map Prod.fst) ∧
    names.Pairwise (· ≤ ·) ∧ names ≠ [] ∧
    List.Forall₂ (fun name document => Source.read tree (location ++ [name]) = .ok document)
      names documents

end FileTree

/-! ### Lists member by member -/

section Members

variable {α β : Type} {R : α → β → Prop} {l : List α} {m : List β}

theorem exists_of_mem_right (h : List.Forall₂ R l m) {b : β} (hmem : b ∈ m) :
    ∃ a ∈ l, R a b := by
  induction h with
  | nil => cases hmem
  | @cons first other rest others hfirst _ ih =>
    rcases List.mem_cons.mp hmem with rfl | hrest
    · exact ⟨first, List.mem_cons_self, hfirst⟩
    · obtain ⟨a, ha, hab⟩ := ih hrest
      exact ⟨a, List.mem_cons_of_mem _ ha, hab⟩

theorem exists_of_mem_left (h : List.Forall₂ R l m) {a : α} (hmem : a ∈ l) :
    ∃ b ∈ m, R a b :=
  exists_of_mem_right (List.Forall₂.flip (R := flip R) h) hmem

end Members

namespace Sources

variable {α : Type} {tree : FileTree} {start location : Location} {path : String}
  {s t : Sources} {documents : List Source}

theorem addAll_append (s : Sources) (first second : List Source) :
    s.addAll (first ++ second) = (s.addAll first).addAll second := List.foldl_append

/-! ### One load after the other -/

section LoadEach

variable {load : Sources → α → Sources × Option LoadFault} {has : α → List Source → Prop}
  {items : List α} {batches : List (List Source)}

theorem loadEach_of_forall₂
    (hload : ∀ s item documents, has item documents → load s item = (s.addAll documents, none))
    (h : List.Forall₂ has items batches) (s : Sources) :
    loadEach load s items = (s.addAll batches.flatten, none) := by
  induction h generalizing s with
  | nil => rfl
  | @cons item documents rest others hitem _ ih =>
    rw [loadEach, hload s item documents hitem]
    dsimp only
    rw [ih, List.flatten_cons, addAll_append]

theorem exists_forall₂_of_loadEach
    (hload : ∀ s t item, load s item = (t, none) →
      ∃ documents, has item documents ∧ t = s.addAll documents)
    (h : loadEach load s items = (t, none)) :
    ∃ batches, List.Forall₂ has items batches ∧ t = s.addAll batches.flatten := by
  induction items generalizing s with
  | nil =>
    cases h
    exact ⟨[], .nil, rfl⟩
  | cons item rest ih =>
    rw [loadEach] at h
    split at h
    · next later hitem =>
      obtain ⟨documents, hhas, rfl⟩ := hload s later item hitem
      obtain ⟨batches, hrest, rfl⟩ := ih h
      exact ⟨documents :: batches, .cons hhas hrest, (addAll_append s _ _).symm⟩
    · cases h

/-- If one load adds what its item has, then loads one after the other add what all items have, and
succeed when every item has something. -/
theorem loadEach_eq_iff (hload : ∀ s t item, load s item = (t, none) ↔
      ∃ documents, has item documents ∧ t = s.addAll documents) :
    loadEach load s items = (t, none) ↔
      ∃ batches, List.Forall₂ has items batches ∧ t = s.addAll batches.flatten := by
  constructor
  · exact exists_forall₂_of_loadEach fun s t item => (hload s t item).mp
  · rintro ⟨batches, h, rfl⟩
    exact loadEach_of_forall₂ (fun s item documents hhas =>
      (hload s _ item).mpr ⟨documents, hhas, rfl⟩) h s

end LoadEach

section One

variable {load : Sources → α → Sources × Option LoadFault} {has : α → Source → Prop}
  {items : List α} {batches : List (List Source)}

/-- An item has just one document. -/
def HasOne (has : α → Source → Prop) (item : α) (documents : List Source) : Prop :=
  ∃ document, has item document ∧ documents = [document]

theorem exists_hasOne_iff {item : α} :
    (∃ documents, HasOne has item documents ∧ t = s.addAll documents) ↔
      ∃ document, has item document ∧ t = s.add document := by
  constructor
  · rintro ⟨_, ⟨document, hhas, rfl⟩, rfl⟩
    exact ⟨document, hhas, rfl⟩
  · rintro ⟨document, hhas, rfl⟩
    exact ⟨[document], ⟨document, hhas, rfl⟩, rfl⟩

theorem forall₂_hasOne_of_forall₂ (h : List.Forall₂ has items documents) :
    List.Forall₂ (HasOne has) items (documents.map fun document => [document]) :=
  List.forall₂_map_right_iff.mpr (h.imp fun _ document hhas => ⟨document, hhas, rfl⟩)

theorem forall₂_of_forall₂_hasOne (h : List.Forall₂ (HasOne has) items batches) :
    List.Forall₂ has items batches.flatten := by
  induction h with
  | nil => exact .nil
  | cons hitem _ ih =>
    obtain ⟨document, hhas, rfl⟩ := hitem
    exact .cons hhas ih

/-- The same for items that have one document each. -/
theorem loadEach_eq_iff_of_one (hload : ∀ s t item, load s item = (t, none) ↔
      ∃ document, has item document ∧ t = s.add document) :
    loadEach load s items = (t, none) ↔
      ∃ documents, List.Forall₂ has items documents ∧ t = s.addAll documents := by
  rw [loadEach_eq_iff fun s t item => (hload s t item).trans exists_hasOne_iff.symm]
  constructor
  · rintro ⟨batches, h, rfl⟩
    exact ⟨batches.flatten, forall₂_of_forall₂_hasOne h, rfl⟩
  · rintro ⟨documents, h, rfl⟩
    refine ⟨_, forall₂_hasOne_of_forall₂ h, ?_⟩
    rw [← List.flatMap_def, List.flatMap_singleton']

end One

/-! ### Files -/

theorem loadAt_eq_iff :
    s.loadAt tree location = (t, none) ↔
      ∃ document, Source.read tree location = .ok document ∧ t = s.add document := by
  rw [loadAt]
  cases Source.read tree location <;> simp [eq_comm]

theorem loadFile_eq_iff :
    loadFile tree start s path = (t, none) ↔
      ∃ document, tree.HasDocument start path document ∧ t = s.add document := by
  rw [loadFile]
  cases hlocate : tree.locate start path with
  | error fault => simp [FileTree.HasDocument, hlocate]
  | ok location => simp [FileTree.HasDocument, hlocate, loadAt_eq_iff]

/-- Files are loaded one after the other when all of them are there. -/
theorem loadEach_loadFile_eq_iff {paths : List String} :
    loadEach (loadFile tree start) s paths = (t, none) ↔
      ∃ documents, List.Forall₂ (tree.HasDocument start) paths documents ∧
        t = s.addAll documents :=
  loadEach_eq_iff_of_one fun _ _ _ => loadFile_eq_iff

/-! ### Directories -/

theorem perm_variableFiles (entries : List (String × FileTree)) :
    (variableFiles entries).Perm ((entries.filter isVariablesFile).map Prod.fst) :=
  List.mergeSort_perm _ _

theorem pairwise_variableFiles (entries : List (String × FileTree)) :
    (variableFiles entries).Pairwise (· ≤ ·) :=
  pairwise_mergeSort_name id _

/-- The names that are loaded are all names of files of variables, sorted. -/
theorem eq_variableFiles_iff {entries : List (String × FileTree)} {names : List String} :
    names = variableFiles entries ↔
      names.Perm ((entries.filter isVariablesFile).map Prod.fst) ∧ names.Pairwise (· ≤ ·) := by
  constructor
  · rintro rfl
    exact ⟨perm_variableFiles entries, pairwise_variableFiles entries⟩
  · rintro ⟨hperm, hsorted⟩
    exact (hperm.trans (perm_variableFiles entries).symm).eq_of_pairwise
      (fun _ _ _ _ => String.le_antisymm) hsorted (pairwise_variableFiles entries)

/-- The files of a directory are loaded one after the other when each has a document. -/
theorem loadEach_loadAt_eq_iff {names : List String} :
    loadEach (fun s name => s.loadAt tree (location ++ [name])) s names = (t, none) ↔
      ∃ documents, List.Forall₂
          (fun name document => Source.read tree (location ++ [name]) = .ok document)
          names documents ∧ t = s.addAll documents :=
  loadEach_eq_iff_of_one fun _ _ _ => loadAt_eq_iff

section Locate

variable {entries : List (String × FileTree)} (hlocate : tree.locate start path = .ok location)
  (hlist : tree.list location = .ok entries)

include hlocate hlist

theorem loadDirectory_of_no_files (hnil : variableFiles entries = []) (s : Sources) :
    s.loadDirectory tree start path = (s, some .noFilesFound) := by
  rw [loadDirectory, hlocate]
  dsimp only
  rw [hlist]
  dsimp only
  rw [hnil]

theorem loadDirectory_of_files (hne : variableFiles entries ≠ []) (s : Sources) :
    s.loadDirectory tree start path =
      s.loadEach (fun s name => s.loadAt tree (location ++ [name])) (variableFiles entries) := by
  rw [loadDirectory, hlocate]
  dsimp only
  rw [hlist]
  dsimp only
  split
  · next hnil => exact absurd hnil hne
  · rfl

end Locate

theorem loadDirectory_eq_iff :
    loadDirectory tree start s path = (t, none) ↔
      ∃ documents, tree.HasDocuments start path documents ∧ t = s.addAll documents := by
  constructor
  · intro h
    unfold loadDirectory at h
    split at h
    · cases h
    · next location hlocate =>
      split at h
      · cases h
      · next entries hlist =>
        split at h
        · cases h
        · next hsome =>
          obtain ⟨hperm, hsorted⟩ := eq_variableFiles_iff.mp (Eq.refl (variableFiles entries))
          obtain ⟨documents, hread, rfl⟩ := loadEach_loadAt_eq_iff.mp h
          exact ⟨documents, ⟨location, entries, _, hlocate, hlist, hperm, hsorted, hsome, hread⟩,
            rfl⟩
  · rintro ⟨documents, ⟨location, entries, names, hlocate, hlist, hperm, hsorted, hsome, hread⟩,
      rfl⟩
    have hfiles : variableFiles entries = names := (eq_variableFiles_iff.mpr ⟨hperm, hsorted⟩).symm
    rw [loadDirectory_of_files hlocate hlist (hfiles ▸ hsome), hfiles]
    exact loadEach_loadAt_eq_iff.mpr ⟨documents, hread, rfl⟩

/-- Directories are loaded one after the other when all of them have documents. -/
theorem loadEach_loadDirectory_eq_iff {paths : List String} :
    loadEach (loadDirectory tree start) s paths = (t, none) ↔
      ∃ batches, List.Forall₂ (tree.HasDocuments start) paths batches ∧
        t = s.addAll batches.flatten :=
  loadEach_eq_iff fun _ _ _ => loadDirectory_eq_iff

end Sources

end Interpolation
