import Mathlib
import Interpolation.Proofs.CommandLine.Inputs
import Interpolation.Proofs.CommandLine.Interleaving

/-!
# Precedence of sources

The variables of a command come in layers: the environment if it is asked for, then files in the
order of the command line, then directories in that order, then assignments in that order. Where on
the command line each of them stands among the others does not matter. Without files, directories
and assignments there is one layer instead, the text of the standard input, which is read then only.

## Main definitions

* `World.HasLines` — a path leads to a file that is read as lines.
* `Command.withInput` — a command with another input.

## Main results

* `exists_load_ne_iff` — when the standard input is read.
* `outcome_of_hasLines` — lines come to the same from the standard input and from a file.
* `run_precedence` — the layers that the run of a list of arguments goes by.
-/

namespace Interpolation.CommandLine

variable {world : World} {arguments : List String} {invocation : Invocation} {input : Input}
  {path : String} {content : ByteArray}

/-! ### The standard input -/

/-- What is loaded depends on the standard input when the input names no source. -/
theorem exists_load_ne_iff :
    (∃ bytes, load { world with standardInput := bytes } input ≠ load world input) ↔
      input.files = [] ∧ input.directories = [] ∧ input.assignments = [] := by
  constructor
  · rintro ⟨bytes, hne⟩
    by_contra hnamed
    have hreads : ¬input.readsStandardInput = true := mt readsStandardInput_iff.mp hnamed
    refine hne ?_
    rw [load, load, if_neg hreads, if_neg hreads]
  · rintro ⟨hfiles, hdirectories, hassignments⟩
    -- No bytes are text without lines, and a byte that begins no character is no text.
    have hnothing : String.fromUTF8? ByteArray.empty = some "" := by decide
    have hbroken : String.fromUTF8? ⟨#[255]⟩ = none := by decide
    cases hload : load world input with
    | error fault =>
      refine ⟨.empty, ?_⟩
      rw [load_of_none hfiles hdirectories hassignments, loadStandardInput, hnothing]
      have hempty : Dotenv.read "" = .ok ∅ := by decide
      dsimp only
      rw [hempty]
      simp
    | ok s =>
      refine ⟨⟨#[255]⟩, ?_⟩
      rw [load_of_none hfiles hdirectories hassignments, loadStandardInput, hbroken]
      simp

/-- A path leads to a file with these bytes that is read as lines. -/
def World.HasLines (world : World) (path : String) (content : ByteArray) : Prop :=
  ∃ location, world.tree.locate world.directory path = .ok location ∧
    world.tree.at? location = some (.file content) ∧
    isHclName (location.getLast?.getD "") = false

/-- Lines come to the same variables from a file and from the standard input. -/
theorem toVariables_load_of_hasLines (h : world.HasLines path content) (flag : Bool) :
    (load { world with standardInput := content } ⟨[], [], flag, []⟩).toOption.map
        Sources.toVariables =
      (load world ⟨[path], [], flag, []⟩).toOption.map Sources.toVariables := by
  obtain ⟨location, hlocate, hfile, hname⟩ := h
  have hfileLoad : (load world ⟨[path], [], flag, []⟩).toOption =
      (Source.read world.tree location).toOption.map (Sources.add ∅) := by
    rw [load, if_neg (by simp [Input.readsStandardInput])]
    simp only [Sources.loadEach, Sources.loadFile, hlocate, Sources.loadAt]
    cases Source.read world.tree location <;> rfl
  rw [hfileLoad, load_of_none rfl rfl rfl, loadStandardInput, Source.read, FileTree.readText,
    hfile]
  dsimp only
  cases String.fromUTF8? content with
  | none => rfl
  | some text =>
    dsimp only
    rw [readDocument, if_neg (by simp [hname])]
    cases Dotenv.read text with
    | error fault => rfl
    | ok vars =>
      have hvars := (Sources.toVariables_add ∅ ⟨some location.path, vars⟩).trans
        (OrderedMap.empty_override vars)
      exact congrArg some ((Sources.toVariables_ofVariables vars).trans hvars.symm)

theorem toOption_bind {ε α β : Type} (first : Except ε α) (second : α → Except ε β) :
    (first >>= second).toOption = first.toOption.bind fun value => (second value).toOption := by
  cases first <;> rfl

/-- Reports of outcomes that agree but for the fault differ only in what they say of it. -/
theorem ofOutcome_agree {first second : Except RunFault String}
    (h : first.toOption = second.toOption) :
    (Report.ofOutcome first).output = (Report.ofOutcome second).output ∧
      (Report.ofOutcome first).exitCode = (Report.ofOutcome second).exitCode := by
  cases first <;> cases second <;> simp_all [Except.toOption, Report.ofOutcome]

/-- The same command with another input. -/
def Command.withInput (input : Input) : Command → Command
  | .expand _ escapes format => .expand input escapes format
  | .sources _ => .sources input
  | .graph _ format => .graph input format
  | .order _ => .order input

theorem enter_standardInput (world : World) (bytes : ByteArray) (directories : List String) :
    enter { world with standardInput := bytes } directories =
      (enter world directories).map fun entered => { entered with standardInput := bytes } := by
  rw [enter, enter]
  cases directories.foldlM (changeDirectory world.tree) world.directory <;> rfl

@[simp] theorem show?_withInput (input : Input) (command : Command) :
    (command.withInput input).show? = command.show? := by cases command <;> rfl

@[simp] theorem input_withInput (input : Input) (command : Command) :
    (command.withInput input).input = input := by cases command <;> rfl

@[simp] theorem escapes_withInput (input : Input) (command : Command) :
    (command.withInput input).escapes = command.escapes := by cases command <;> rfl

theorem withInput_input (command : Command) : command.withInput command.input = command := by
  cases command <;> rfl

/-- The plan depends on the sources through their variables alone. -/
theorem toOption_plan (world : World) (input : Input) (mode : EscapeMode) :
    (plan world input mode).toOption =
      ((load world input).toOption.map Sources.toVariables).map fun vars =>
        ⟨if input.withEnvironment then layered world.environment.toVariables vars else vars,
          mode⟩ := by
  rw [plan_eq_map_load]
  cases load world input <;> rfl

/-- A command that shows something of a plan comes to the same with lines from the standard input
and with the same lines in a file. -/
theorem outcome_of_hasLines {directories : List String} {command : Command} {entered : World}
    {shows : Plan → Except RunFault String} (hshow : command.show? = some shows)
    (henter : enter world directories = .ok entered) (hlines : entered.HasLines path content)
    (flag : Bool) :
    ((⟨directories, command.withInput ⟨[], [], flag, []⟩⟩ : Invocation).outcome
        { world with standardInput := content }).toOption =
      ((⟨directories, command.withInput ⟨[path], [], flag, []⟩⟩ : Invocation).outcome
        world).toOption := by
  have hplans : (plan { entered with standardInput := content } ⟨[], [], flag, []⟩
      command.escapes).toOption =
        (plan entered ⟨[path], [], flag, []⟩ command.escapes).toOption := by
    rw [toOption_plan, toOption_plan, toVariables_load_of_hasLines hlines]
  rw [Invocation.outcome, Invocation.outcome, enter_standardInput, henter]
  change ((command.withInput _).outcome { entered with standardInput := content }).toOption =
    ((command.withInput _).outcome entered).toOption
  simp only [Command.outcome, show?_withInput, hshow, input_withInput, escapes_withInput,
    toOption_bind, hplans]

/-! ### Runs -/

/-- **Precedence.** The arguments of a command that shows something of a plan name files,
directories and assignments in order, and however they are interleaved, the run is the same. The
sources are loaded exactly when all that is named is there. The plan then has the variables that
the layers come to: the environment if it is asked for, the files, the directories with their files
in the order of their names, and the assignments. The standard input matters exactly when no source
is named. What it says can be said by a file of the same lines, with the same output and success. -/
theorem run_precedence {shows : Plan → Except RunFault String}
    (h : Invocation.parse? arguments = some invocation)
    (hshow : invocation.command.show? = some shows) (world : World) :
    let input := invocation.command.input
    (∃ items level, readItems .program none arguments = some (items, level) ∧
      input.IsNamedBy items ∧
      ∀ again others, readItems .program none again = some (others, level) →
        Reordered items others → run world again = run world arguments) ∧
    (∀ entered, enter world invocation.directories = .ok entered →
      ((∃ s, load entered input = .ok s) ↔ ∃ layers, entered.Provides input layers) ∧
      (∀ layers, entered.Provides input layers →
        ∃ vars, Variables.IsMerge (entered.below input ++ layers) vars ∧
          plan entered input invocation.command.escapes =
            .ok ⟨vars, invocation.command.escapes⟩ ∧
          run world arguments = .ofOutcome (shows ⟨vars, invocation.command.escapes⟩)) ∧
      ((∃ bytes, load { entered with standardInput := bytes } input ≠ load entered input) ↔
        input.files = [] ∧ input.directories = [] ∧ input.assignments = []) ∧
      ∀ path content again, input = ⟨[], [], input.withEnvironment, []⟩ →
        entered.HasLines path content →
        Invocation.parse? again = some ⟨invocation.directories,
          invocation.command.withInput ⟨[path], [], input.withEnvironment, []⟩⟩ →
        (run { world with standardInput := content } arguments).output = (run world again).output ∧
          (run { world with standardInput := content } arguments).exitCode =
            (run world again).exitCode) := by
  intro input
  refine ⟨?_, fun entered henter => ⟨⟨?_, ?_⟩, ?_, exists_load_ne_iff, ?_⟩⟩
  · obtain ⟨items, level, hitems, hnamed⟩ := exists_isNamedBy h
    refine ⟨items, level, hitems, hnamed, fun again others hothers hreordered => ?_⟩
    rw [run, run, parse?_eq_of_reordered hitems hothers hreordered]
  · rintro ⟨s, hload⟩
    exact exists_provides_of_load hload
  · rintro ⟨layers, hprovides⟩
    obtain ⟨s, hload, -⟩ := hprovides.exists_load
    exact ⟨s, hload⟩
  · intro layers hprovides
    have hplan := hprovides.plan_eq invocation.command.escapes
    refine ⟨_, Variables.isMerge_ofLayers _, hplan, ?_⟩
    rw [run_eq_ofOutcome h, outcome_of_plan hshow henter hplan]
  · intro path content again hinput hlines hagain
    rw [run_eq_ofOutcome h, run_eq_ofOutcome hagain]
    refine ofOutcome_agree ?_
    rw [← outcome_of_hasLines hshow henter hlines, ← hinput, withInput_input]

/-- A name of the environment is overridden by a file, by a directory and by an assignment. -/
theorem run_precedence_overlaps :
    let tree : FileTree := .directory [("a.env", .file "x=1\ny=$x\n".toUTF8),
      ("d", .directory [("q.env", .file "z=2\n".toUTF8), ("b.env", .file "y=2\n".toUTF8)])]
    let world : World := ⟨tree, [], .empty, [("y".toUTF8, "0".toUTF8)]⟩
    let input : Input := ⟨["a.env"], ["d"], true, ["z=3", "y=4"]⟩
    let arguments := ["expand", "z=3", "-f", "a.env", "-e", "-d", "d", "y=4"]
    let again := ["expand", "-ed", "d", "-f", "a.env", "z=3", "y=4"]
    Invocation.parse? arguments = some ⟨[], .expand input .preserve .yaml⟩ ∧
      run world again = run world arguments ∧
      (∃ vars, Variables.IsMerge [.ofList [("y", "0")], .ofList [("x", "1"), ("y", "$x")],
          .ofList [("y", "2")], .ofList [("z", "2")], .ofList [("z", "3")], .ofList [("y", "4")]]
          vars ∧ plan world input .preserve = .ok ⟨vars, .preserve⟩) ∧
      (run { world with standardInput := "x=1\ny=$x\n".toUTF8 } ["dev", "order"]).output =
        (run world ["dev", "order", "-f", "a.env"]).output := by
  intro tree world input arguments again
  have hparse : Invocation.parse? arguments = some ⟨[], .expand input .preserve .yaml⟩ := by decide
  have horder : Invocation.parse? ["dev", "order"] = some ⟨[], .order ⟨[], [], false, []⟩⟩ := by
    decide
  have hfile : Invocation.parse? ["dev", "order", "-f", "a.env"] =
      some ⟨[], .order ⟨["a.env"], [], false, []⟩⟩ := by decide
  have hitems : readItems .program none arguments = some ([.assignment "z=3",
      .set .expand .inputFile "a.env", .set .expand .withEnvironment "",
      .set .expand .inputDirectory "d", .assignment "y=4"], .expand) := by decide
  have hagain : readItems .program none again = some ([.set .expand .withEnvironment "",
      .set .expand .inputDirectory "d", .set .expand .inputFile "a.env", .assignment "z=3",
      .assignment "y=4"], .expand) := by decide
  have hfiles : List.Forall₂ (world.tree.HasDocument world.directory) input.files
      [⟨some "/a.env", .ofList [("x", "1"), ("y", "$x")]⟩] :=
    .cons ⟨["a.env"], by decide +kernel, by decide +kernel⟩ .nil
  have hdirectories : List.Forall₂ (world.tree.HasDocuments world.directory) input.directories
      [[⟨some "/d/b.env", .ofList [("y", "2")]⟩, ⟨some "/d/q.env", .ofList [("z", "2")]⟩]] :=
    .cons ⟨["d"], _, ["b.env", "q.env"], by decide +kernel, rfl, by decide +kernel,
      by decide +kernel, by decide,
      .cons (by decide +kernel) (.cons (by decide +kernel) .nil)⟩ .nil
  have hassignments : List.Forall₂ IsAssignment input.assignments [("z", "3"), ("y", "4")] :=
    .cons ⟨by decide, by decide⟩ (.cons ⟨by decide, by decide⟩ .nil)
  obtain ⟨⟨items, level, hread, -, hreordered⟩, hrest⟩ := run_precedence hparse rfl world
  obtain ⟨-, hlayers, -⟩ := hrest world rfl
  obtain ⟨vars, hmerge, hplan, -⟩ :=
    hlayers _ (.named (by decide) hfiles hdirectories hassignments)
  obtain ⟨-, hempty⟩ := run_precedence horder rfl world
  obtain ⟨-, -, -, hlines⟩ := hempty world rfl
  refine ⟨hparse, ?_, ⟨vars, ?_, hplan⟩, ?_⟩
  · cases hitems.symm.trans hread
    exact hreordered again _ hagain ⟨fun setting => by cases setting <;> rfl, rfl⟩
  · have hbelow : world.below input = [.ofList [("y", "0")]] := by decide +kernel
    have hlayered : Variables.IsMerge (world.below input ++ _) vars := hmerge
    rwa [hbelow] at hlayered
  · exact (hlines "a.env" _ _ rfl ⟨["a.env"], by decide +kernel, rfl, by decide⟩ hfile).1

end Interpolation.CommandLine
