import Interpolation.Proofs.CommandLine.Outcome
import Interpolation.Proofs.Sources.Documents

/-!
# Loading an input

The sources of an input are layers of variables: first its files, then the files of its
directories, then its assignments, each in the order of the command line. An input that names no
source has one layer instead, the lines of the standard input. It is loaded when there are such
layers, and what is loaded comes to the same variables as they do.

## Main definitions

* `IsAssignment` — a text is a name, an equals sign and a value.
* `World.Provides` — the layers of an input.
* `World.below` — what lies below them.

## Main results

* `readAssignment_eq_ok_iff` — the first equals sign of an assignment separates it.
* `exists_provides_of_load`, `World.Provides.exists_load` — sources are loaded when there are
  layers.
* `World.Provides.plan_eq` — the plan of the layers.
-/

namespace Interpolation.CommandLine

variable {world : World} {input : Input} {s t : Sources} {text : String} {layers : List Variables}

/-! ### Assignments -/

/-- A text is a name, an equals sign and a value. The name has no equals sign. -/
def IsAssignment (text : String) (entry : String × String) : Prop :=
  text = entry.1 ++ "=" ++ entry.2 ∧ '=' ∉ entry.1.toList

theorem splitAssignment?_eq_some_iff {entry : String × String} :
    splitAssignment? text = some entry ↔ IsAssignment text entry := by
  obtain ⟨name, value⟩ := entry
  have htext : text = name ++ "=" ++ value ↔ text.toList = name.toList ++ '=' :: value.toList := by
    rw [← String.toList_inj]
    simp
  rw [IsAssignment, htext, splitAssignment?]
  generalize text.toList = cs
  constructor
  · intro h
    split at h
    · cases h
    · next c rest hrest =>
      obtain ⟨rfl, rfl⟩ := Prod.mk.inj (Option.some.inj h)
      have hc : c = '=' := by
        have hhead := List.head_dropWhile_not (· != '=') (l := cs) (by simp [hrest])
        simpa [hrest] using hhead
      subst hc
      refine ⟨?_, fun hmem => ?_⟩
      · rw [String.toList_ofList, String.toList_ofList, ← hrest, List.takeWhile_append_dropWhile]
      · rw [String.toList_ofList] at hmem
        simpa using List.mem_takeWhile_imp hmem
  · rintro ⟨rfl, hnot⟩
    have hother : ∀ c ∈ name.toList, (c != '=') = true := by
      intro c hmem
      rw [bne_iff_ne]
      rintro rfl
      exact hnot hmem
    rw [List.dropWhile_append_of_pos hother, List.takeWhile_append_of_pos hother]
    simp

theorem readAssignment_eq_ok_iff {entry : String × String} :
    readAssignment text = .ok entry ↔ IsAssignment text entry := by
  rw [readAssignment, ← splitAssignment?_eq_some_iff]
  cases splitAssignment? text <;> simp

/-- Steps succeed one after the other when each does. -/
theorem mapM_eq_ok_iff {ε α β : Type} {f : α → Except ε β} {l : List α} {results : List β} :
    l.mapM f = .ok results ↔ List.Forall₂ (fun a b => f a = .ok b) l results := by
  induction l generalizing results with
  | nil => cases results <;> simp [pure, Except.pure]
  | cons a rest ih =>
    rw [List.mapM_cons]
    simp only [bind_eq_ok_iff, ih, List.forall₂_cons_left_iff, pure, Except.pure, Except.ok.injEq]
    constructor
    · rintro ⟨b, hb, others, hothers, rfl⟩
      exact ⟨b, others, hb, hothers, rfl⟩
    · rintro ⟨b, others, hb, hothers, rfl⟩
      exact ⟨b, hb, others, hothers, rfl⟩

theorem addAssignments_eq_ok_iff {assignments : List String} :
    addAssignments s assignments = .ok t ↔ ∃ entries,
      List.Forall₂ IsAssignment assignments entries ∧
        t = if assignments = [] then s else s.add ⟨none, .ofList entries⟩ := by
  have hentries : ∀ entries, assignments.mapM readAssignment = .ok entries ↔
      List.Forall₂ IsAssignment assignments entries := by
    intro entries
    rw [mapM_eq_ok_iff]
    simp only [readAssignment_eq_ok_iff]
  cases assignments with
  | nil => simp [addAssignments, eq_comm]
  | cons first rest =>
    simp only [← hentries]
    rw [addAssignments]
    cases List.mapM readAssignment (first :: rest) <;> simp [Except.map, eq_comm]

/-! ### Layers of an input -/

/-- The layers that the sources of an input are, the first at the bottom. An input that names no
source has one layer, the lines of the standard input. Any other has its files, then the files of
its directories, then its assignments. -/
inductive World.Provides (world : World) (input : Input) : List Variables → Prop
  | standardInput {text : String} {content : Variables} (hfiles : input.files = [])
      (hdirectories : input.directories = []) (hassignments : input.assignments = [])
      (htext : String.fromUTF8? world.standardInput = some text)
      (hread : Dotenv.read text = .ok content) : Provides world input [content]
  | named {files : List Source} {directories : List (List Source)}
      {entries : List (String × String)}
      (hsome : ¬(input.files = [] ∧ input.directories = [] ∧ input.assignments = []))
      (hfiles : List.Forall₂ (world.tree.HasDocument world.directory) input.files files)
      (hdirectories : List.Forall₂ (world.tree.HasDocuments world.directory) input.directories
        directories)
      (hassignments : List.Forall₂ IsAssignment input.assignments entries) :
      Provides world input (files.map Source.content ++
        directories.flatten.map Source.content ++ entries.map fun entry => .ofList [entry])

/-- What lies below the layers of an input. -/
def World.below (world : World) (input : Input) : List Variables :=
  if input.withEnvironment then [world.environment.toVariables] else []

theorem readsStandardInput_iff :
    input.readsStandardInput = true ↔
      input.files = [] ∧ input.directories = [] ∧ input.assignments = [] := by
  simp [Input.readsStandardInput, and_assoc]

theorem load_of_none (hfiles : input.files = []) (hdirectories : input.directories = [])
    (hassignments : input.assignments = []) : load world input = loadStandardInput world := by
  rw [load, if_pos (readsStandardInput_iff.mpr ⟨hfiles, hdirectories, hassignments⟩)]

theorem loaded_eq_ok_iff {found : Sources × Option LoadFault} :
    loaded found = .ok s ↔ found = (s, none) := by
  obtain ⟨later, fault⟩ := found
  cases fault <;> simp [loaded]

/-- An input that names sources is loaded when all of them are there. -/
theorem load_eq_ok_iff_of_named
    (h : ¬(input.files = [] ∧ input.directories = [] ∧ input.assignments = [])) :
    load world input = .ok t ↔ ∃ files directories entries,
      List.Forall₂ (world.tree.HasDocument world.directory) input.files files ∧
      List.Forall₂ (world.tree.HasDocuments world.directory) input.directories directories ∧
      List.Forall₂ IsAssignment input.assignments entries ∧
      t = if input.assignments = [] then Sources.addAll ∅ (files ++ directories.flatten)
        else (Sources.addAll ∅ (files ++ directories.flatten)).add ⟨none, .ofList entries⟩ := by
  rw [load, if_neg (mt readsStandardInput_iff.mp h)]
  simp only [bind_eq_ok_iff, loaded_eq_ok_iff, addAssignments_eq_ok_iff,
    Sources.loadEach_loadFile_eq_iff, Sources.loadEach_loadDirectory_eq_iff,
    Sources.addAll_append]
  constructor
  · rintro ⟨_, ⟨files, hfiles, rfl⟩, _, ⟨directories, hdirectories, rfl⟩, entries, hentries, rfl⟩
    exact ⟨files, directories, entries, hfiles, hdirectories, hentries, rfl⟩
  · rintro ⟨files, directories, entries, hfiles, hdirectories, hentries, rfl⟩
    exact ⟨_, ⟨files, hfiles, rfl⟩, _, ⟨directories, hdirectories, rfl⟩, entries, hentries, rfl⟩

/-- What is loaded comes in layers. -/
theorem exists_provides_of_load (h : load world input = .ok s) :
    ∃ layers, world.Provides input layers := by
  by_cases hnone : input.files = [] ∧ input.directories = [] ∧ input.assignments = []
  · rw [load_of_none hnone.1 hnone.2.1 hnone.2.2, loadStandardInput] at h
    split at h
    · cases h
    · next text htext =>
      split at h
      · next content hread => exact ⟨_, .standardInput hnone.1 hnone.2.1 hnone.2.2 htext hread⟩
      · cases h
  · obtain ⟨files, directories, entries, hfiles, hdirectories, hentries, -⟩ :=
      (load_eq_ok_iff_of_named hnone).mp h
    exact ⟨_, .named hnone hfiles hdirectories hentries⟩

/-- Layers are loaded, and come to the variables that they are as layers. -/
theorem World.Provides.exists_load (h : world.Provides input layers) :
    ∃ s, load world input = .ok s ∧ s.toVariables = Variables.ofLayers layers := by
  cases h with
  | @standardInput text content hfiles hdirectories hassignments htext hread =>
    refine ⟨.ofVariables content, ?_, ?_⟩
    · rw [load_of_none hfiles hdirectories hassignments, loadStandardInput, htext]
      dsimp only
      rw [hread]
    · rw [Sources.toVariables_ofVariables, Variables.ofLayers_singleton]
  | @named files directories entries hsome hfiles hdirectories hassignments =>
    refine ⟨_, (load_eq_ok_iff_of_named hsome).mpr
      ⟨files, directories, entries, hfiles, hdirectories, hassignments, rfl⟩, ?_⟩
    have hdocuments : (Sources.addAll ∅ (files ++ directories.flatten)).toVariables =
        Variables.ofLayers (files.map Source.content ++
          directories.flatten.map Source.content) := by
      rw [Sources.toVariables_addAll, List.map_append]
      exact OrderedMap.empty_override _
    rw [Variables.ofLayers_append, Variables.ofLayers_map_ofList, ← hdocuments]
    split
    · next hnil =>
      rw [hnil] at hassignments
      cases hassignments
      rfl
    · exact Sources.toVariables_add _ _

/-- The plan of an input has the variables that its layers come to, over what lies below them. -/
theorem World.Provides.plan_eq (h : world.Provides input layers) (mode : EscapeMode) :
    plan world input mode = .ok ⟨Variables.ofLayers (world.below input ++ layers), mode⟩ := by
  obtain ⟨s, hload, hvars⟩ := h.exists_load
  have hgiven : world.given input s = Variables.ofLayers (world.below input ++ layers) := by
    rw [World.given, World.below, hvars]
    split
    · exact (Variables.ofLayers_cons _ layers).symm
    · rfl
  rw [plan_eq_map_load, hload, ← hgiven]
  rfl

end Interpolation.CommandLine
