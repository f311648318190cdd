import Mathlib
import Interpolation.Proofs.CommandLine.Outcome
import Interpolation.Proofs.CommandLine.WithoutChanges

/-!
# Changes of directory

A run changes to its directories first and then does what its command does there, so changing the
directory is the same as starting in another one, with arguments that change no directory.

But only the changes at the deepest level count: those at other levels are read and not used. So the
directories are those that a reader of the arguments would change to, one after the other, if the
changes are all at one level, and otherwise they need not be.

## Main definitions

* `FileTree.Leads` — changing to directories one after the other leads from one to another.
* `DeepestChange` — the depth whose changes count.
* `ChangesAt` — all changes of directory are at one depth.

## Main results

* `parse?_withoutChanges` — arguments without their changes ask for the same command.
* `run_changes_directory` — changing the directory is starting elsewhere.
* `changes_at_two_levels_lost` — a change that is not at the deepest level has no effect.
-/

namespace Interpolation

/-! ### One directory after the other -/

/-- Changing to directories one after the other, each by a path from the one before, leads from a
directory to a directory. -/
inductive FileTree.Leads (tree : FileTree) : Location → List String → Location → Prop
  | here (start : Location) : Leads tree start [] start
  | change {start next last : Location} {path : String} {paths : List String}
      {entries : List (String × FileTree)} (locate : tree.locate start path = .ok next)
      (list : tree.list next = .ok entries) (rest : Leads tree next paths last) :
      Leads tree start (path :: paths) last

namespace CommandLine

variable {world : World} {last : Level} {arguments paths : List String} {items : List Item}
  {setting : Setting} {invocation : Invocation}

theorem changeDirectory_eq_ok_iff {tree : FileTree} {start next : Location} {path : String} :
    changeDirectory tree start path = .ok next ↔
      tree.locate start path = .ok next ∧ ∃ entries, tree.list next = .ok entries := by
  rw [changeDirectory]
  cases tree.locate start path with
  | error fault => simp
  | ok location =>
    simp only [Except.ok.injEq]
    constructor
    · intro h
      split at h
      · next entries hlist =>
        cases h
        exact ⟨rfl, entries, hlist⟩
      · cases h
    · rintro ⟨rfl, entries, hlist⟩
      rw [hlist]

/-- A run enters the directory that its paths lead to. -/
theorem foldlM_changeDirectory_eq_ok_iff {tree : FileTree} {start location : Location} :
    paths.foldlM (changeDirectory tree) start = .ok location ↔
      tree.Leads start paths location := by
  induction paths generalizing start with
  | nil =>
    refine ⟨fun h => ?_, fun h => ?_⟩
    · cases h
      exact .here _
    · cases h
      rfl
  | cons path rest ih =>
    rw [List.foldlM_cons, bind_eq_ok_iff]
    constructor
    · rintro ⟨next, hnext, hrest⟩
      obtain ⟨hlocate, entries, hlist⟩ := changeDirectory_eq_ok_iff.mp hnext
      exact .change hlocate hlist (ih.mp hrest)
    · rintro (_ | ⟨hlocate, hlist, hrest⟩)
      exact ⟨_, changeDirectory_eq_ok_iff.mpr ⟨hlocate, _, hlist⟩, ih.mpr hrest⟩

/-- The world with another directory to start from. -/
def World.startingAt (world : World) (location : Location) : World :=
  { world with directory := location }

theorem enter_of_leads {location : Location}
    (h : world.tree.Leads world.directory paths location) :
    enter world paths = .ok (world.startingAt location) := by
  rw [enter, foldlM_changeDirectory_eq_ok_iff.mpr h]
  rfl

/-! ### Invocations -/

theorem valuesOf_unchanging (hne : setting ≠ .changeDirectory) (items : List Item) :
    valuesOf setting (unchanging items) = valuesOf setting items := by
  rw [valuesOf, valuesOf, unchanging, List.filterMap_filter]
  refine List.filterMap_congr fun item _ => ?_
  cases item with
  | set level given value =>
    by_cases hgiven : given = .changeDirectory
    · simp [Item.isSet, hgiven, hne.symm]
    · simp [Item.isSet, hgiven]
  | assignment text => rfl

theorem valuesOf_change_unchanging (items : List Item) :
    valuesOf .changeDirectory (unchanging items) = [] := by
  rw [valuesOf, unchanging, List.filterMap_filter]
  refine List.filterMap_eq_nil_iff.mpr fun item _ => ?_
  cases item with
  | set level given value =>
    by_cases hgiven : given = .changeDirectory <;> simp [Item.isSet, hgiven]
  | assignment text => rfl

theorem assignmentsOf_unchanging (items : List Item) :
    assignmentsOf (unchanging items) = assignmentsOf items := by
  rw [assignmentsOf, assignmentsOf, unchanging, List.filterMap_filter]
  refine List.filterMap_congr fun item _ => ?_
  cases item with
  | set level given value => simp
  | assignment text => rfl

/-- The directories that are given at a level of some depth. -/
def changesAt (depth : Nat) (items : List Item) : List String :=
  valuesOf .changeDirectory (itemsAt depth items)

theorem changesAt_unchanging (depth : Nat) (items : List Item) :
    changesAt depth (unchanging items) = [] := by
  rw [changesAt, itemsAt, unchanging, List.filter_comm]
  exact valuesOf_change_unchanging _

/-- Arguments without their changes of directory ask for the same command, where they are. -/
theorem parse?_withoutChanges (hread : readItems .program none arguments = some (items, last))
    (h : Invocation.parse? arguments = some invocation) :
    invocation.directories = changesOf items ∧
      Invocation.parse? (withoutChanges arguments) = some ⟨[], invocation.command⟩ := by
  rw [parse?_of_readItems hread] at h
  obtain ⟨changes, -, hrest⟩ := Option.bind_eq_some_iff.mp h
  obtain ⟨command, hcommand, hinvocation⟩ := Option.bind_eq_some_iff.mp hrest
  cases hinvocation
  have hsame : commandOf? last (unchanging items) = some command := by
    rw [← hcommand]
    exact commandOf?_congr (fun setting hne => valuesOf_unchanging hne items)
      (assignmentsOf_unchanging items) last
  have hnone : changesOf (unchanging items) = [] := by
    have hat (depth : Nat) := changesAt_unchanging depth items
    simp only [changesAt] at hat
    simp [changesOf, hat]
  have hpaths : pathsOf? .changeDirectory (unchanging items) = some [] := by
    simp [pathsOf?, valuesOf_change_unchanging]
  refine ⟨rfl, ?_⟩
  rw [parse?_of_readItems (readItems_withoutChanges hread), hpaths, hnone, hsame]
  rfl

/-! ### The level that counts -/

section Depths

variable {depth : Nat}

/-- A depth is the greatest at which directories are given, or zero if none are. -/
structure DeepestChange (items : List Item) (depth : Nat) : Prop where
  none_deeper : ∀ deeper, depth < deeper → changesAt deeper items = []
  some_here : depth = 0 ∨ changesAt depth items ≠ []

/-- All changes of directory are at a level of one depth. -/
def ChangesAt (depth : Nat) (items : List Item) : Prop :=
  ∀ level value, Item.set level .changeDirectory value ∈ items → level.depth = depth

theorem mem_changesAt {value : String} :
    value ∈ changesAt depth items ↔
      ∃ level, Item.set level .changeDirectory value ∈ items ∧ level.depth = depth := by
  simp only [changesAt, valuesOf, itemsAt, List.mem_filterMap, List.mem_filter]
  constructor
  · rintro ⟨_ | _, ⟨hmem, hdepth⟩, hvalue⟩
    · next level setting given =>
      obtain ⟨rfl, hgiven⟩ := Option.ite_none_right_eq_some.mp hvalue
      cases hgiven
      exact ⟨level, hmem, by simpa using hdepth⟩
    · cases hvalue
  · rintro ⟨level, hmem, hdepth⟩
    exact ⟨_, ⟨hmem, by simpa using hdepth⟩, if_pos rfl⟩

theorem changesAt_eq_nil_of_two_lt (h : 2 < depth) (items : List Item) :
    changesAt depth items = [] := by
  refine List.eq_nil_iff_forall_not_mem.mpr fun value hmem => ?_
  obtain ⟨level, -, rfl⟩ := mem_changesAt.mp hmem
  cases level <;> exact absurd h (by decide)

theorem exists_deepestChange (items : List Item) : ∃ depth, DeepestChange items depth := by
  have hdeep (deeper : Nat) (h : 2 < deeper) := changesAt_eq_nil_of_two_lt h items
  by_cases htwo : changesAt 2 items = []
  · by_cases hone : changesAt 1 items = []
    · refine ⟨0, fun deeper hlt => ?_, Or.inl rfl⟩
      obtain rfl | rfl | h : deeper = 1 ∨ deeper = 2 ∨ 2 < deeper := by omega
      exacts [hone, htwo, hdeep _ h]
    · refine ⟨1, fun deeper hlt => ?_, Or.inr hone⟩
      obtain rfl | h : deeper = 2 ∨ 2 < deeper := by omega
      exacts [htwo, hdeep _ h]
  · exact ⟨2, hdeep, Or.inr htwo⟩

/-- A run changes to the directories that are given deepest. -/
theorem DeepestChange.changesOf_eq (h : DeepestChange items depth) :
    changesOf items = changesAt depth items := by
  have hgiven : changesOf items =
      if !(changesAt 2 items).isEmpty then changesAt 2 items
      else if !(changesAt 1 items).isEmpty then changesAt 1 items
      else changesAt 0 items := rfl
  have hle : depth ≤ 2 := by
    by_contra hlt
    rcases h.some_here with rfl | hne
    · omega
    · exact hne (changesAt_eq_nil_of_two_lt (by omega) items)
  rw [hgiven]
  obtain rfl | rfl | rfl : depth = 0 ∨ depth = 1 ∨ depth = 2 := by omega
  · simp [h.none_deeper 1 (by decide), h.none_deeper 2 (by decide)]
  · have hne := h.some_here.resolve_left (by decide)
    simp [h.none_deeper 2 (by decide), hne]
  · have hne := h.some_here.resolve_left (by decide)
    simp [hne]

theorem ChangesAt.changesAt_eq (h : ChangesAt depth items) :
    changesAt depth items = valuesOf .changeDirectory items := by
  rw [changesAt, valuesOf, valuesOf, itemsAt, List.filterMap_filter]
  refine List.filterMap_congr fun item hmem => ?_
  cases item with
  | set level given value =>
    by_cases hgiven : given = .changeDirectory
    · subst hgiven
      simp [h level value hmem]
    · simp [hgiven]
  | assignment text => rfl

/-- A run changes to all directories if they are given at one level. -/
theorem ChangesAt.changesOf_eq (h : ChangesAt depth items) :
    changesOf items = valuesOf .changeDirectory items := by
  obtain ⟨deepest, hdeepest⟩ := exists_deepestChange items
  rw [hdeepest.changesOf_eq, ← h.changesAt_eq]
  by_cases heq : deepest = depth
  · rw [heq]
  -- Nothing is given at another depth, so the deepest is zero and nothing is given at all.
  · have hnone (other : Nat) (hne : other ≠ depth) : changesAt other items = [] := by
      refine List.eq_nil_iff_forall_not_mem.mpr fun value hmem => ?_
      obtain ⟨level, hset, rfl⟩ := mem_changesAt.mp hmem
      exact hne (h level value hset)
    have hdeepestNone := hnone deepest heq
    rw [hdeepestNone, hdeepest.none_deeper depth]
    have hzero := hdeepest.some_here.resolve_right (not_not_intro hdeepestNone)
    omega

end Depths

/-! ### Runs -/

/-- A run whose changes lead somewhere is the run without them from there. -/
theorem run_eq_of_leads {location : Location} {command : Command}
    (h : Invocation.parse? arguments = some ⟨paths, command⟩)
    (hwithout : Invocation.parse? (withoutChanges arguments) = some ⟨[], command⟩)
    (hleads : world.tree.Leads world.directory paths location) :
    run world arguments = run (world.startingAt location) (withoutChanges arguments) := by
  rw [run_eq_ofOutcome h, run_eq_ofOutcome hwithout, Invocation.outcome, Invocation.outcome,
    enter_of_leads hleads]
  rfl

/-- **Changing the directory.** Arguments without their changes of directory say the same of
everything else. The run with the changes is the run without them that starts where the changes at
the deepest level lead. That is where all of them lead, in the order of the arguments, if they are
at one level. -/
theorem run_changes_directory (h : Invocation.parse? arguments = some invocation)
    (world : World) :
    ∃ items last, readItems .program none arguments = some (items, last) ∧
      readItems .program none (withoutChanges arguments) = some (unchanging items, last) ∧
      (∃ depth, DeepestChange items depth ∧ ∀ location,
        world.tree.Leads world.directory (changesAt depth items) location →
        run world arguments = run (world.startingAt location) (withoutChanges arguments)) ∧
      ∀ depth, ChangesAt depth items → ∀ location,
        world.tree.Leads world.directory (valuesOf .changeDirectory items) location →
        run world arguments = run (world.startingAt location) (withoutChanges arguments) := by
  cases hread : readItems .program none arguments with
  | none =>
    rw [Invocation.parse?, hread] at h
    cases h
  | some read =>
    obtain ⟨items, last⟩ := read
    obtain ⟨hpaths, hwithout⟩ := parse?_withoutChanges hread h
    have hrun (location : Location)
        (hleads : world.tree.Leads world.directory (changesOf items) location) :
        run world arguments = run (world.startingAt location) (withoutChanges arguments) :=
      run_eq_of_leads h hwithout (hpaths ▸ hleads)
    refine ⟨items, last, rfl, readItems_withoutChanges hread, ?_,
      fun depth hat location hleads => ?_⟩
    · obtain ⟨depth, hdeepest⟩ := exists_deepestChange items
      refine ⟨depth, hdeepest, fun location hleads => hrun location ?_⟩
      rwa [hdeepest.changesOf_eq]
    · refine hrun location ?_
      rwa [hat.changesOf_eq]

/-- Two changes at one level, both of which count. -/
theorem run_changes_directory_two :
    let tree : FileTree := .directory [("d", .directory [("e", .directory
      [("a.env", .file "A=de\n".toUTF8)])])]
    let world : World := ⟨tree, [], .empty, []⟩
    let arguments := ["-C", "d", "--directory=e", "expand", "-F", "dotenv", "-f", "a.env"]
    (Invocation.parse? arguments).isSome ∧
      run world arguments =
        run (world.startingAt ["d", "e"]) ["expand", "-F", "dotenv", "-f", "a.env"] := by
  intro tree world arguments
  have hparse : Invocation.parse? arguments =
      some ⟨["d", "e"], .expand ⟨["a.env"], [], false, []⟩ .preserve .dotenv⟩ := by decide
  have hitems : readItems .program none arguments = some ([.set .program .changeDirectory "d",
      .set .program .changeDirectory "e", .set .expand .outputFormat "dotenv",
      .set .expand .inputFile "a.env"], .expand) := by decide
  have hwithout : withoutChanges arguments = ["expand", "-F", "dotenv", "-f", "a.env"] := by decide
  obtain ⟨items, last, hread, -, -, hrun⟩ := run_changes_directory hparse world
  cases hitems.symm.trans hread
  refine ⟨by rw [hparse]; rfl, ?_⟩
  rw [← hwithout]
  have hleads : world.tree.Leads world.directory ["d", "e"] ["d", "e"] :=
    foldlM_changeDirectory_eq_ok_iff.mp (by decide +kernel)
  refine hrun 0 (fun level value hmem => ?_) ["d", "e"] hleads
  simp only [List.mem_cons, List.not_mem_nil] at hmem
  grind [Level.depth]

/-- Of two changes at two levels, only the one that is given deeper has an effect. -/
theorem changes_at_two_levels_lost :
    let tree : FileTree := .directory [("a.env", .file "A=1\n".toUTF8),
      ("d", .directory [("a.env", .file "A=d\n".toUTF8),
        ("e", .directory [("a.env", .file "A=de\n".toUTF8)])]),
      ("e", .directory [("a.env", .file "A=e\n".toUTF8)])]
    let world : World := ⟨tree, [], .empty, []⟩
    let arguments := ["-C", "d", "expand", "-C", "e", "-F", "dotenv", "-f", "a.env"]
    withoutChanges arguments = ["expand", "-F", "dotenv", "-f", "a.env"] ∧
      world.tree.Leads world.directory ["d", "e"] ["d", "e"] ∧
      run world arguments = ⟨0, "A=e\n", ""⟩ ∧
      run (world.startingAt ["d", "e"]) (withoutChanges arguments) = ⟨0, "A=de\n", ""⟩ := by
  intro tree world arguments
  have hwithout : withoutChanges arguments = ["expand", "-F", "dotenv", "-f", "a.env"] := by decide
  have hparse : Invocation.parse? arguments =
      some ⟨["e"], .expand ⟨["a.env"], [], false, []⟩ .preserve .dotenv⟩ := by decide
  have hthere : Invocation.parse? ["expand", "-F", "dotenv", "-f", "a.env"] =
      some ⟨[], .expand ⟨["a.env"], [], false, []⟩ .preserve .dotenv⟩ := by decide
  refine ⟨hwithout, foldlM_changeDirectory_eq_ok_iff.mp (by decide +kernel), ?_, ?_⟩
  · have houtcome : (⟨["e"], .expand ⟨["a.env"], [], false, []⟩ .preserve .dotenv⟩ :
        Invocation).outcome world = .ok "A=e\n" :=
      outcome_expand_eq_ok_iff.mpr ⟨world.startingAt ["e"], ⟨.ofList [("A", "e")], .preserve⟩,
        .ofList [("A", "e")], by cbv, by decide +kernel, by cbv, by decide +kernel⟩
    rw [run_eq_ofOutcome hparse, houtcome]
    rfl
  · have houtcome : (⟨[], .expand ⟨["a.env"], [], false, []⟩ .preserve .dotenv⟩ :
        Invocation).outcome (world.startingAt ["d", "e"]) = .ok "A=de\n" :=
      outcome_expand_eq_ok_iff.mpr ⟨world.startingAt ["d", "e"],
        ⟨.ofList [("A", "de")], .preserve⟩, .ofList [("A", "de")], rfl, by decide +kernel, by cbv,
        by decide +kernel⟩
    rw [hwithout, run_eq_ofOutcome hthere, houtcome]
    rfl

end CommandLine

end Interpolation
