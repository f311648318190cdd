import Interpolation.Proofs.Sources.Documents
import Interpolation.Proofs.Text.ByteOrder

/-!
# Directories, file by file

A directory is loaded as its files of variables would be loaded one after the other, each by its own
path, in the order of the bytes of their names. The first that fails ends the load with its fault,
and the documents before it stay. Everything else about the directory is of no account: the order in
which the system lists it, files with other names, and subdirectories with all that is in them,
whatever their names are.

## Main definitions

* `FileTree.IsListing` — what the entries of a directory are like.
* `FileTree.HasDirectory` — a path leads to a directory.
* `FileTree.inside` — the path of an entry of a directory.
* `Sources.HoldsVariables`, `Sources.InNameOrder` — the files that are loaded, and their order.
* `Sources.Ends` — how loads one after the other end.

## Main results

* `FileTree.HasDirectory.locate_inside` — the path of an entry leads to it.
* `Sources.inNameOrder_iff` — there is one such order.
* `Sources.ends_loadEach` — loads one after the other, up to the first that fails.
* `Sources.loadDirectory_eq_loadEach` — a directory is loaded file by file.
* `Sources.loadDirectory_congr` — what the load of a directory depends on.
* `Sources.loadDirectory_file_by_file` — all of this for any directory.
-/

namespace Interpolation

open Text

/-! ### Entries and their paths -/

namespace FileTree

/-- A name that an entry of a directory can have. -/
structure IsName (name : String) : Prop where
  ne_empty : name ≠ ""
  ne_dot : name ≠ "."
  ne_dots : name ≠ ".."
  slash_notMem : '/' ∉ name.toList

/-- Entries that a directory can have, in the order in which the system lists them. -/
structure IsListing (entries : List (String × FileTree)) : Prop where
  /-- The names lead into the directory. -/
  isName : ∀ entry ∈ entries, IsName entry.1
  /-- No two entries share a name. -/
  nodup : (entries.map Prod.fst).Nodup

instance (name : String) : Decidable (IsName name) :=
  decidable_of_iff (name ≠ "" ∧ name ≠ "." ∧ name ≠ ".." ∧ '/' ∉ name.toList)
    ⟨fun ⟨hempty, hdot, hdots, hslash⟩ => ⟨hempty, hdot, hdots, hslash⟩,
      fun ⟨hempty, hdot, hdots, hslash⟩ => ⟨hempty, hdot, hdots, hslash⟩⟩

instance (entries : List (String × FileTree)) : Decidable (IsListing entries) :=
  decidable_of_iff ((∀ entry ∈ entries, IsName entry.1) ∧ (entries.map Prod.fst).Nodup)
    ⟨fun ⟨hname, hnodup⟩ => ⟨hname, hnodup⟩, fun ⟨hname, hnodup⟩ => ⟨hname, hnodup⟩⟩

/-- A path leads to a directory with these entries. -/
structure HasDirectory (tree : FileTree) (start : Location) (path : String) (location : Location)
    (entries : List (String × FileTree)) : Prop where
  locate : tree.locate start path = .ok location
  at? : tree.at? location = some (.directory entries)
  isListing : IsListing entries

/-- The path of an entry of the directory that a path leads to, with a slash between them. -/
def inside (path name : String) : String :=
  if path.toList.getLast? = some '/' then path ++ name else path ++ "/" ++ name

variable {tree other : FileTree} {start location : Location} {path name : String}
  {entries others : List (String × FileTree)}

/-- In a listing, an entry is found under its name. -/
theorem IsListing.lookup_eq_some_iff (h : IsListing entries) {part : FileTree} :
    entries.lookup name = some part ↔ (name, part) ∈ entries :=
  OrderedMap.get?_eq_some_iff (m := ⟨entries, h.nodup⟩)

theorem at?_inside (hdir : tree.at? location = some (.directory entries)) (name : String) :
    tree.at? (location ++ [name]) = entries.lookup name := by
  rw [at?_append, hdir, Option.bind_some, at?_cons]
  change ((entries.lookup name).bind fun part => some part) = _
  rw [Option.bind_fun_some]

theorem step_of_isName (hdir : tree.at? location = some (.directory entries)) (hname : IsName name)
    (hmem : (entries.lookup name).isSome) : tree.step location name = .ok (location ++ [name]) := by
  have hplain : ¬ (name = "" ∨ name = ".") := fun h => h.elim hname.ne_empty hname.ne_dot
  rw [step, hdir]
  dsimp only
  rw [if_neg hplain, if_neg hname.ne_dots, if_pos hmem]

/-- Nothing behind a slash leads nowhere else. -/
theorem eq_of_step_empty (h : tree.step start "" = .ok location) : location = start := by
  rw [step] at h
  split at h
  · cases h
  · cases h
  · rw [if_pos (Or.inl rfl)] at h
    exact (Except.ok.inj h).symm

/-- A slash begins one more component. -/
theorem components_ofList_append (front : List Char) (hname : '/' ∉ name.toList) :
    components (String.ofList (front ++ '/' :: name.toList)) =
      components (String.ofList front) ++ [name] := by
  rw [components, components, String.toList_ofList, String.toList_ofList,
    List.splitOn_append_cons_self, List.map_append, List.splitOn_eq_singleton hname,
    List.map_singleton, String.ofList_toList]

theorem foldlM_step_append (tree : FileTree) (start : Location) (front : List String)
    (name : String) :
    (front ++ [name]).foldlM tree.step start =
      front.foldlM tree.step start >>= fun reached => tree.step reached name := by
  simp only [List.foldlM_append, List.foldlM_cons, List.foldlM_nil, bind_pure]

/-- Whether a path starts from the root is seen before its last component. -/
theorem head?_append_slash (front rest more : List Char) :
    (front ++ '/' :: rest).head? = (front ++ '/' :: more).head? := by
  cases front <;> rfl

/-- The path of a directory, cut before the slash that the path of an entry has there. -/
theorem exists_front_of_locate (hlocate : tree.locate start path = .ok location) (name : String) :
    ∃ front, inside path name = String.ofList (front ++ '/' :: name.toList) ∧
      (components (String.ofList front)).foldlM tree.step
        (if (front ++ '/' :: name.toList).head? = some '/' then [] else start) = .ok location := by
  have hne : path ≠ "" := by
    rintro rfl
    rw [locate, if_pos rfl] at hlocate
    cases hlocate
  rw [locate, if_neg hne] at hlocate
  by_cases hlast : path.toList.getLast? = some '/'
  · obtain ⟨front, hfront⟩ := List.getLast?_eq_some_iff.mp hlast
    have hpath : path = String.ofList (front ++ '/' :: "".toList) := by
      rw [← String.toList_inj, String.toList_ofList, hfront]
      rfl
    refine ⟨front, ?_, ?_⟩
    · rw [inside, if_pos hlast, ← String.toList_inj, String.toList_append, hfront,
        String.toList_ofList, List.append_assoc, List.singleton_append]
    -- The slash at the end of the path is followed by an empty component, which leads nowhere else.
    · rw [hpath, components_ofList_append front List.not_mem_nil, foldlM_step_append,
        String.toList_ofList, head?_append_slash front _ name.toList] at hlocate
      cases hfold : (components (String.ofList front)).foldlM tree.step
          (if (front ++ '/' :: name.toList).head? = some '/' then [] else start) with
      | error fault =>
        rw [hfold] at hlocate
        cases hlocate
      | ok reached =>
        rw [hfold] at hlocate
        have hstep : tree.step reached "" = .ok location := hlocate
        rw [eq_of_step_empty hstep]
  · refine ⟨path.toList, ?_, ?_⟩
    · rw [inside, if_neg hlast, ← String.toList_inj, String.toList_ofList]
      simp
    · obtain ⟨c, rest, hcs⟩ := List.exists_cons_of_ne_nil (mt String.toList_eq_nil_iff.mp hne)
      have hhead : (path.toList ++ '/' :: name.toList).head? = path.toList.head? := by
        rw [hcs]
        rfl
      rw [hhead, String.ofList_toList]
      exact hlocate

theorem HasDirectory.list (h : tree.HasDirectory start path location entries) :
    tree.list location = .ok entries := by
  rw [FileTree.list, h.at?]

/-- The path of an entry leads to the entry. -/
theorem HasDirectory.locate_inside (h : tree.HasDirectory start path location entries)
    {part : FileTree} (hmem : (name, part) ∈ entries) :
    tree.locate start (inside path name) = .ok (location ++ [name]) := by
  obtain ⟨front, hinside, hfold⟩ := exists_front_of_locate h.locate name
  have hname : IsName name := h.isListing.isName _ hmem
  have hne : String.ofList (front ++ '/' :: name.toList) ≠ "" := fun hnil => by
    simpa using congrArg String.toList hnil
  rw [hinside, FileTree.locate, if_neg hne, components_ofList_append front hname.slash_notMem,
    foldlM_step_append, String.toList_ofList, hfold]
  exact step_of_isName h.at? hname
    (Option.isSome_of_eq_some (h.isListing.lookup_eq_some_iff.mpr hmem))

/-- What an entry is, is found behind its name. -/
theorem HasDirectory.at?_of_mem (h : tree.HasDirectory start path location entries)
    {part : FileTree} (hmem : (name, part) ∈ entries) :
    tree.at? (location ++ [name]) = some part := by
  rw [at?_inside h.at?, h.isListing.lookup_eq_some_iff.mpr hmem]

end FileTree

namespace Sources

open FileTree

variable {tree other : FileTree} {start location : Location} {path name : String}
  {entries others : List (String × FileTree)} {names : List String} {s : Sources}

/-! ### The files that are loaded -/

/-- A directory has a file of variables: a regular file with a name that says so. -/
def HoldsVariables (entries : List (String × FileTree)) (name : String) (content : ByteArray) :
    Prop :=
  (name, .file content) ∈ entries ∧
    (".env".toList <:+ name.toList ∨ "vars.hcl".toList <:+ name.toList)

/-- The names of all files of variables of a directory, in ascending order of their bytes. -/
structure InNameOrder (entries : List (String × FileTree)) (names : List String) : Prop where
  sorted : names.Pairwise fun a b => bytes a < bytes b
  mem_iff (name : String) : name ∈ names ↔ ∃ content, HoldsVariables entries name content

theorem isVariablesName_iff :
    isVariablesName name = true ↔
      ".env".toList <:+ name.toList ∨ "vars.hcl".toList <:+ name.toList := by
  rw [isVariablesName, Bool.or_eq_true, endsIn, endsIn, List.isSuffixOf_iff_suffix,
    List.isSuffixOf_iff_suffix]

theorem mem_variableFiles_iff :
    name ∈ variableFiles entries ↔ ∃ content, HoldsVariables entries name content := by
  rw [(perm_variableFiles entries).mem_iff, List.mem_map]
  constructor
  · rintro ⟨⟨_, part⟩, hmem, rfl⟩
    obtain ⟨hentry, hname⟩ := List.mem_filter.mp hmem
    cases part with
    | file content => exact ⟨content, hentry, isVariablesName_iff.mp hname⟩
    | directory parts => cases hname
  · rintro ⟨content, hentry, hname⟩
    exact ⟨(name, .file content), List.mem_filter.mpr ⟨hentry, isVariablesName_iff.mpr hname⟩, rfl⟩

theorem nodup_variableFiles (h : IsListing entries) : (variableFiles entries).Nodup :=
  (perm_variableFiles entries).nodup_iff.mpr (h.nodup.sublist (List.filter_sublist.map _))

/-- There is one such order, and it is the one in which the files are loaded. -/
theorem inNameOrder_iff (h : IsListing entries) :
    InNameOrder entries names ↔ names = variableFiles entries := by
  have hnodup := nodup_variableFiles h
  constructor
  · intro horder
    have hnames : names.Nodup := horder.sorted.imp fun hlt => (bytes_lt_bytes_iff.mp hlt).ne
    have hperm : names.Perm (variableFiles entries) :=
      (List.perm_ext_iff_of_nodup hnames hnodup).mpr fun name =>
        (horder.mem_iff name).trans mem_variableFiles_iff.symm
    exact eq_variableFiles_iff.mpr ⟨hperm.trans (perm_variableFiles entries),
      horder.sorted.imp fun hlt => (bytes_lt_bytes_iff.mp hlt).le⟩
  · rintro rfl
    refine ⟨?_, fun name => mem_variableFiles_iff⟩
    exact (pairwise_variableFiles entries).imp₂
      (fun a b hle hne => bytes_lt_bytes_iff.mpr (lt_of_le_of_ne hle hne)) hnodup

/-! ### Loads one after the other -/

section LoadEach

variable {α : Type} {load : Sources → α → Sources × Option LoadFault} {has : α → Source → Prop}

/-- How loads one after the other end, for items of which each has one document or none. If every
item has a document, all of them are added. Otherwise the first item that has none gives its fault,
whatever there was before, and the documents of the items before it are added, and no others. -/
inductive Ends (load : Sources → α → Sources × Option LoadFault) (has : α → Source → Prop)
    (s : Sources) : List α → Sources × Option LoadFault → Prop
  | done {items : List α} {documents : List Source} (h : List.Forall₂ has items documents) :
      Ends load has s items (s.addAll documents, none)
  | stopped {before after : List α} {item : α} {documents : List Source} {fault : LoadFault}
      (h : List.Forall₂ has before documents) (hfault : ∀ t, load t item = (t, some fault)) :
      Ends load has s (before ++ item :: after) (s.addAll documents, some fault)

theorem Ends.cons {item : α} {items : List α} {document : Source}
    {result : Sources × Option LoadFault} (hitem : has item document)
    (h : Ends load has (s.add document) items result) : Ends load has s (item :: items) result := by
  cases h with
  | done hitems => exact .done (.cons hitem hitems)
  | stopped hbefore hfault => exact .stopped (.cons hitem hbefore) hfault

theorem ends_loadEach (hload : ∀ item,
      (∃ document, has item document ∧ ∀ s, load s item = (s.add document, none)) ∨
        ∃ fault, ∀ s, load s item = (s, some fault))
    (s : Sources) (items : List α) : Ends load has s items (loadEach load s items) := by
  induction items generalizing s with
  | nil => exact .done .nil
  | cons item rest ih =>
    rw [loadEach]
    rcases hload item with ⟨document, hhas, hitem⟩ | ⟨fault, hitem⟩
    · rw [hitem s]
      exact (ih (s.add document)).cons hhas
    · have hstopped : Ends load has s ([] ++ item :: rest) (s.addAll [], some fault) :=
        .stopped .nil hitem
      rw [hitem s]
      exact hstopped

theorem loadEach_congr {load₁ load₂ : Sources → α → Sources × Option LoadFault} {items : List α}
    (h : ∀ item ∈ items, ∀ s, load₁ s item = load₂ s item) (s : Sources) :
    loadEach load₁ s items = loadEach load₂ s items := by
  induction items generalizing s with
  | nil => rfl
  | cons item rest ih =>
    rw [loadEach, loadEach, h item List.mem_cons_self s]
    split
    · exact ih (fun item hitem => h item (List.mem_cons_of_mem _ hitem)) _
    · rfl

end LoadEach

/-- What a load of a file comes to is the same for all sources. -/
theorem loadFile_same_for_all (tree : FileTree) (start : Location) (path : String) :
    (∃ document, tree.HasDocument start path document ∧
        ∀ s, loadFile tree start s path = (s.add document, none)) ∨
      ∃ fault, ∀ s, loadFile tree start s path = (s, some fault) := by
  unfold loadFile loadAt
  cases hlocate : tree.locate start path with
  | error fault => exact Or.inr ⟨.file fault, fun _ => rfl⟩
  | ok location =>
    dsimp only
    cases hread : Source.read tree location with
    | error fault => exact Or.inr ⟨fault, fun _ => rfl⟩
    | ok document => exact Or.inl ⟨document, ⟨location, hlocate, hread⟩, fun _ => rfl⟩

/-! ### Loads of a directory -/

/-- A document depends on nothing but the file that it is read from. -/
theorem loadAt_congr (h : tree.at? location = other.at? location) (s : Sources) :
    s.loadAt tree location = s.loadAt other location := by
  rw [loadAt, loadAt, Source.read, Source.read, readText, readText, h]

/-- A directory is loaded as its files would be, each by its own path. -/
theorem loadDirectory_eq_loadEach (h : tree.HasDirectory start path location entries)
    (hne : variableFiles entries ≠ []) (s : Sources) :
    s.loadDirectory tree start path =
      s.loadEach (fun s name => s.loadFile tree start (inside path name))
        (variableFiles entries) := by
  rw [loadDirectory_of_files h.locate h.list hne]
  refine loadEach_congr (fun name hmem s => ?_) s
  obtain ⟨content, hentry, -⟩ := mem_variableFiles_iff.mp hmem
  rw [loadFile, h.locate_inside hentry]

/-- The files of variables are all that the load of a directory depends on. -/
theorem loadDirectory_congr (h : tree.HasDirectory start path location entries)
    (h' : other.HasDirectory start path location others)
    (hsame : ∀ name content, HoldsVariables others name content ↔
      HoldsVariables entries name content) (s : Sources) :
    s.loadDirectory other start path = s.loadDirectory tree start path := by
  have hfiles : variableFiles others = variableFiles entries := by
    have horder := (inNameOrder_iff h'.isListing).mpr (Eq.refl (variableFiles others))
    refine (inNameOrder_iff h.isListing).mp ⟨horder.sorted, fun name => ?_⟩
    rw [horder.mem_iff]
    exact exists_congr (hsame name)
  by_cases hnil : variableFiles entries = []
  · rw [loadDirectory_of_no_files h.locate h.list hnil,
      loadDirectory_of_no_files h'.locate h'.list (hfiles.trans hnil)]
  · rw [loadDirectory_of_files h.locate h.list hnil,
      loadDirectory_of_files h'.locate h'.list (hfiles ▸ hnil), hfiles]
    refine loadEach_congr (fun name hmem s => loadAt_congr ?_ s) s
    obtain ⟨content, hfile⟩ := mem_variableFiles_iff.mp hmem
    rw [h.at?_of_mem hfile.1, h'.at?_of_mem ((hsame name content).mpr hfile).1]

/-- **Directories, file by file.** The files of variables of a directory have one order that
ascends by the bytes of their names. Without such files, a load of the directory fails and leaves
everything as it was. Otherwise it is the same as to load each of them by its own path, one after
the other in that order: either each has its document, and all are added, or the first that has none
gives its fault, and the documents before it are added. A directory in the same place with the same
files of variables is loaded with the same result, in whatever order it lists them and whatever else
the two directories and the trees around them hold. -/
theorem loadDirectory_file_by_file (h : tree.HasDirectory start path location entries)
    (s : Sources) :
    (∃! names, InNameOrder entries names) ∧
    ((∀ name content, ¬ HoldsVariables entries name content) →
      s.loadDirectory tree start path = (s, some .noFilesFound)) ∧
    (∀ names, InNameOrder entries names → names ≠ [] →
      let load := fun s name => loadFile tree start s (inside path name)
      s.loadDirectory tree start path = loadEach load s names ∧
      Ends load (fun name document => tree.HasDocument start (inside path name) document)
        s names (s.loadDirectory tree start path)) ∧
    ∀ other others, HasDirectory other start path location others →
      (∀ name content, HoldsVariables others name content ↔
        HoldsVariables entries name content) →
      s.loadDirectory other start path = s.loadDirectory tree start path := by
  refine ⟨⟨_, (inNameOrder_iff h.isListing).mpr rfl, fun names => (inNameOrder_iff h.isListing).mp⟩,
    fun hnone => loadDirectory_of_no_files h.locate h.list ?_ s, fun names horder hne => ?_,
    fun other others h' hsame => loadDirectory_congr h h' hsame s⟩
  · refine List.eq_nil_iff_forall_not_mem.mpr fun name hmem => ?_
    obtain ⟨content, hfile⟩ := mem_variableFiles_iff.mp hmem
    exact hnone name content hfile
  · obtain rfl := (inNameOrder_iff h.isListing).mp horder
    intro load
    have heach : s.loadDirectory tree start path = loadEach load s (variableFiles entries) :=
      loadDirectory_eq_loadEach h hne s
    refine ⟨heach, ?_⟩
    rw [heach]
    exact ends_loadEach (fun name => loadFile_same_for_all tree start (inside path name)) s _

/-- The second of three files is malformed. The listing begins with it, and has a subdirectory with
the name of a file of variables and a file with another name. Listed the other way round, the
directory is loaded with the same result. -/
theorem loadDirectory_file_by_file_stopped :
    let entries : List (String × FileTree) :=
      [("b.env", .file "oops".toUTF8), ("vars.hcl", .file "B = 2".toUTF8),
        ("z.env", .directory [("a.env", .file "A=3".toUTF8)]), ("notes", .file "A=4".toUTF8),
        ("a.env", .file "A=1".toUTF8)]
    let tree : FileTree := .directory [("conf", .directory entries)]
    let other : FileTree := .directory [("conf", .directory entries.reverse)]
    let result : Sources × Option LoadFault :=
      ((∅ : Sources).add ⟨some "/conf/a.env", .ofList [("A", "1")]⟩,
        some (.document (.malformedLine 1)))
    tree.HasDirectory [] "conf/" ["conf"] entries ∧
    InNameOrder entries ["a.env", "b.env", "vars.hcl"] ∧
    (∅ : Sources).loadDirectory tree [] "conf/" = result ∧
    (∅ : Sources).loadDirectory other [] "conf/" = result := by
  intro entries tree other result
  have hlisting : IsListing entries := by decide
  have h : tree.HasDirectory [] "conf/" ["conf"] entries := ⟨by decide, rfl, hlisting⟩
  have h' : other.HasDirectory [] "conf/" ["conf"] entries.reverse := ⟨by decide, rfl, by decide⟩
  have horder : InNameOrder entries ["a.env", "b.env", "vars.hcl"] :=
    (inNameOrder_iff hlisting).mpr (eq_variableFiles_iff.mpr ⟨by decide, by decide⟩)
  have hsame : ∀ name content, HoldsVariables entries.reverse name content ↔
      HoldsVariables entries name content := by
    intro name content
    rw [HoldsVariables, HoldsVariables, List.mem_reverse]
  obtain ⟨-, -, hload, hother⟩ := loadDirectory_file_by_file h ∅
  have hresult : (∅ : Sources).loadDirectory tree [] "conf/" = result :=
    (hload _ horder (by decide)).1.trans (by decide)
  exact ⟨h, horder, hresult, (hother other _ h' hsame).trans hresult⟩

end Sources

end Interpolation
