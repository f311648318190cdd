import Mathlib
import Interpolation.CommandLine.Run
import Interpolation.Proofs.Expansion.Solution
import Interpolation.Proofs.Output.Json
import Interpolation.Proofs.Output.Yaml.Mapping

/-!
# What a run comes to

Whatever can fail in a run fails before the first text is written: directories are changed, sources
are loaded, and names are put in order and expanded. From then on there is only writing, which does
not fail. So a run comes to one text or to one fault, and a fault leaves no text behind. Three of
the four commands show something of a plan, and what they come to depends on their input through
the plan alone. An expansion succeeds exactly when there is an order, so the commands that show
final values and names in order succeed on the same inputs.

## Main definitions

* `numbered` — the text of numbered lines.
* `Command.show?` — what a command shows of a plan.
* `Command.outcome`, `Invocation.outcome` — the text that is shown, or the fault.
* `Task.ofOutcome`, `Report.ofOutcome` — what a task writes and a report says of an outcome.
* `World.Loads` — the sources of an input can be loaded.
* `OutputFormat.Shows` — the entries that a text shows in a form.

## Main results

* `Task.run_bind`, `Task.run_writeNumbered` — what tasks write.
* `Command.run_eq_outcome`, `Invocation.run_eq_outcome` — all of an outcome is written, or nothing.
* `run_eq_ofOutcome` — a report tells the outcome of its invocation.
* `outcome_expand_eq_ok_iff` and its companions — when the commands succeed.
* `run_all_or_nothing` — success, failure, and how the commands agree on them.
-/

namespace Interpolation.CommandLine

/-! ### What tasks write -/

/-- Lines, each after its number in brackets, the first of which has the given number. -/
def numbered (number : Nat) (lines : List String) : String :=
  String.join (lines.mapIdx fun index line =>
    "[" ++ toString (number + index) ++ "] " ++ line ++ "\n")

theorem numbered_cons (number : Nat) (line : String) (rest : List String) :
    numbered number (line :: rest) =
      "[" ++ toString number ++ "] " ++ line ++ "\n" ++ numbered (number + 1) rest := by
  rw [numbered, numbered, List.mapIdx_cons, String.join_cons]
  simp [Nat.add_assoc, Nat.add_comm 1]

namespace Task

variable {α β : Type}

/-- The second task goes on behind what the first has written, unless the first fails. -/
theorem run_bind (first : Task α) (second : α → Task β) (written : String) :
    (first >>= second) written =
      match first written with
      | (.ok value, later) => second value later
      | (.error fault, later) => (.error fault, later) := by
  simp only [bind, ExceptT.bind, ExceptT.mk, StateT.bind]
  cases first written with
  | mk found later => cases found <;> rfl

/-- Finding something out writes nothing, whether it fails or not. -/
theorem run_lift_bind (found : Except RunFault α) (next : α → Task β) (written : String) :
    (liftM found >>= next) written =
      match found with
      | .ok value => next value written
      | .error fault => (.error fault, written) := by
  rw [run_bind]
  cases found <;> rfl

theorem run_write (text written : String) : write text written = (.ok (), written ++ text) := rfl

/-- Writing lines does not fail. -/
theorem run_writeNumbered (number : Nat) (lines : List String) (written : String) :
    writeNumbered number lines written = (.ok (), written ++ numbered number lines) := by
  induction lines generalizing number written with
  | nil => exact congrArg (Prod.mk _) String.append_empty.symm
  | cons line rest ih =>
    rw [writeNumbered, run_bind, run_write]
    dsimp only
    rw [ih, numbered_cons, String.append_assoc]

end Task

/-! ### Plans -/

variable {world : World} {arguments : List String} {invocation : Invocation}
  {directories : List String} {input : Input} {mode : EscapeMode} {format : OutputFormat}
  {p : Plan} {text : String}

/-- The variables that sources come to, over the environment if the input asks for it. -/
def World.given (world : World) (input : Input) (s : Sources) : Variables :=
  if input.withEnvironment then layered world.environment.toVariables s.toVariables
  else s.toVariables

theorem plan_eq_map_load (world : World) (input : Input) (mode : EscapeMode) :
    plan world input mode = (load world input).map fun s => ⟨world.given input s, mode⟩ := by
  rw [plan]
  cases load world input with
  | error fault => rfl
  | ok s =>
    dsimp only [bind, Except.bind, Except.map, World.given]
    split <;> rfl

theorem plan_eq_ok_iff :
    plan world input mode = .ok p ↔
      ∃ s, load world input = .ok s ∧ p = ⟨world.given input s, mode⟩ := by
  rw [plan_eq_map_load]
  cases load world input <;> simp [Except.map, eq_comm]

/-- Another escape mode changes nothing else in a plan. -/
theorem plan_of_plan (h : plan world input mode = .ok p) (other : EscapeMode) :
    plan world input other = .ok ⟨p.given, other⟩ := by
  obtain ⟨s, hload, rfl⟩ := plan_eq_ok_iff.mp h
  exact plan_eq_ok_iff.mpr ⟨s, hload, rfl⟩

theorem order_of_mode (p : Plan) (mode : EscapeMode) :
    (Plan.mk p.given mode).order = p.order := Plan.order_congr rfl

/-! ### Outcomes -/

/-- The escape mode of the plan that a command makes. -/
def Command.escapes : Command → EscapeMode
  | .expand _ escapes _ => escapes
  | .sources _ | .graph _ _ | .order _ => .preserve

/-- What a command shows of a plan, unless it is the command that shows entries and makes none. -/
def Command.show? : Command → Option (Plan → Except RunFault String)
  | .expand _ _ format => some fun p =>
    match p.expand with
    | .ok values => .ok (showValues values format)
    | .error failure => .error (.expansion failure.cause)
  | .sources _ => none
  | .graph _ format => some fun p => .ok (showGraph p.graph format)
  | .order _ => some fun p =>
    match p.order with
    | .ok names => .ok (numbered 0 names)
    | .error stall => .error (.expansion (.stalled stall))

/-- The text that a command shows, or why it fails. -/
def Command.outcome (world : World) (command : Command) : Except RunFault String :=
  match command.show? with
  | some shows => do shows (← plan world command.input command.escapes)
  | none => do return numbered 0 ((← load world command.input).entries.map showEntry)

/-- The text that an invocation shows, or why it fails. -/
def Invocation.outcome (world : World) (invocation : Invocation) : Except RunFault String := do
  invocation.command.outcome (← enter world invocation.directories)

/-- The report of an outcome: nothing is shown of a fault, and nothing is said of a success. -/
def Report.ofOutcome : Except RunFault String → Report
  | .ok text => ⟨0, text, ""⟩
  | .error fault => ⟨1, "", fault.text⟩

/-- What a task comes to that writes all of an outcome, or nothing of a fault. -/
def Task.ofOutcome (outcome : Except RunFault String) (written : String) :
    Except RunFault Unit × String :=
  match outcome with
  | .ok text => (.ok (), written ++ text)
  | .error fault => (.error fault, written)

/-- A command writes all of its outcome, or nothing if it fails. -/
theorem Command.run_eq_outcome (world : World) (command : Command) (written : String) :
    command.run world written = Task.ofOutcome (command.outcome world) written := by
  cases command with
  | expand input escapes format =>
    rw [Command.run, Task.run_lift_bind, outcome]
    dsimp only [show?, Command.input, Command.escapes]
    cases plan world input escapes with
    | error fault => rfl
    | ok p =>
      dsimp only [bind, Except.bind]
      cases p.expand <;> rfl
  | sources input =>
    rw [Command.run, Task.run_lift_bind, outcome]
    dsimp only [show?, Command.input]
    cases load world input with
    | error fault => rfl
    | ok s => exact Task.run_writeNumbered 0 _ written
  | graph input format =>
    rw [Command.run, Task.run_lift_bind, outcome]
    dsimp only [show?, Command.input, Command.escapes]
    cases plan world input .preserve <;> rfl
  | order input =>
    rw [Command.run, Task.run_lift_bind, outcome]
    dsimp only [show?, Command.input, Command.escapes]
    cases plan world input .preserve with
    | error fault => rfl
    | ok p =>
      dsimp only [bind, Except.bind]
      cases p.order with
      | error stall => rfl
      | ok names => exact Task.run_writeNumbered 0 names written

theorem Invocation.run_eq_outcome (world : World) (invocation : Invocation) (written : String) :
    invocation.run world written = Task.ofOutcome (invocation.outcome world) written := by
  rw [Invocation.run, Task.run_lift_bind, Invocation.outcome]
  cases enter world invocation.directories with
  | error fault => rfl
  | ok entered => exact Command.run_eq_outcome entered invocation.command written

theorem report_run_eq_ofOutcome (world : World) (invocation : Invocation) :
    Report.of (invocation.run world) = .ofOutcome (invocation.outcome world) := by
  have hrun : (invocation.run world).run.run "" = _ := Invocation.run_eq_outcome world invocation ""
  rw [Report.of, hrun]
  cases invocation.outcome world with
  | ok text => exact congrArg (Report.mk 0 · "") String.empty_append
  | error fault => rfl

/-- The report of arguments that can be understood tells the outcome of what they ask for. -/
theorem run_eq_ofOutcome (h : Invocation.parse? arguments = some invocation) (world : World) :
    run world arguments = .ofOutcome (invocation.outcome world) := by
  rw [run, h]
  exact report_run_eq_ofOutcome world invocation

/-! ### Success and failure -/

theorem RunFault.text_ne_empty (fault : RunFault) : fault.text ≠ "" := by
  intro h
  have hnil := congrArg String.toList h
  rw [RunFault.text, String.toList_join] at hnil
  cases fault <;> simp [RunFault.lines] at hnil

theorem exitCode_eq_zero_iff (h : Invocation.parse? arguments = some invocation) :
    (run world arguments).exitCode = 0 ↔ ∃ text, invocation.outcome world = .ok text := by
  rw [run_eq_ofOutcome h]
  cases invocation.outcome world <;> simp [Report.ofOutcome]

/-- A chain of two steps succeeds when both do. -/
theorem bind_eq_ok_iff {ε α β : Type} {first : Except ε α} {second : α → Except ε β} {result : β} :
    (first >>= second) = .ok result ↔ ∃ value, first = .ok value ∧ second value = .ok result := by
  cases first <;> simp [bind, Except.bind]

/-- A command that shows something of a plan succeeds when the plan can be made and shown. -/
theorem outcome_eq_ok_iff {command : Command} {shows : Plan → Except RunFault String}
    (hshow : command.show? = some shows) :
    (⟨directories, command⟩ : Invocation).outcome world = .ok text ↔
      ∃ entered p, enter world directories = .ok entered ∧
        plan entered command.input command.escapes = .ok p ∧ shows p = .ok text := by
  simp only [Invocation.outcome, Command.outcome, hshow, bind_eq_ok_iff, exists_and_left]

/-- A command comes to what it shows of its plan. -/
theorem outcome_of_plan {entered : World} {command : Command}
    {shows : Plan → Except RunFault String}
    (hshow : command.show? = some shows) (henter : enter world directories = .ok entered)
    (hplan : plan entered command.input command.escapes = .ok p) :
    (⟨directories, command⟩ : Invocation).outcome world = shows p := by
  rw [Invocation.outcome, henter]
  change command.outcome entered = shows p
  rw [Command.outcome, hshow, hplan]
  rfl

theorem outcome_expand_eq_ok_iff :
    (⟨directories, .expand input mode format⟩ : Invocation).outcome world = .ok text ↔
      ∃ entered p values, enter world directories = .ok entered ∧
        plan entered input mode = .ok p ∧ p.expand = .ok values ∧
        showValues values format = text := by
  rw [outcome_eq_ok_iff rfl]
  refine exists₂_congr fun entered p => ?_
  cases p.expand <;> simp [Command.input, Command.escapes]

theorem outcome_order_eq_ok_iff :
    (⟨directories, .order input⟩ : Invocation).outcome world = .ok text ↔
      ∃ entered p names, enter world directories = .ok entered ∧
        plan entered input .preserve = .ok p ∧ p.order = .ok names ∧ numbered 0 names = text := by
  rw [outcome_eq_ok_iff rfl]
  refine exists₂_congr fun entered p => ?_
  cases p.order <;> simp [Command.input, Command.escapes]

/-- After changing directories, the sources of an input can be loaded. -/
def World.Loads (world : World) (directories : List String) (input : Input) : Prop :=
  ∃ entered s, enter world directories = .ok entered ∧ load entered input = .ok s

theorem exists_plan_iff_loads (mode : EscapeMode) :
    (∃ entered p, enter world directories = .ok entered ∧ plan entered input mode = .ok p) ↔
      world.Loads directories input := by
  simp only [plan_eq_ok_iff, World.Loads]
  constructor
  · rintro ⟨entered, p, henter, s, hload, rfl⟩
    exact ⟨entered, s, henter, hload⟩
  · rintro ⟨entered, s, henter, hload⟩
    exact ⟨entered, _, henter, s, hload, rfl⟩

theorem exists_outcome_graph_iff :
    (∃ text, (⟨directories, .graph input format⟩ : Invocation).outcome world = .ok text) ↔
      world.Loads directories input := by
  rw [← exists_plan_iff_loads .preserve]
  constructor
  · rintro ⟨text, h⟩
    obtain ⟨entered, p, henter, hplan, -⟩ := (outcome_eq_ok_iff rfl).mp h
    exact ⟨entered, p, henter, hplan⟩
  · rintro ⟨entered, p, henter, hplan⟩
    exact ⟨_, (outcome_eq_ok_iff rfl).mpr ⟨entered, p, henter, hplan, rfl⟩⟩

theorem exists_outcome_sources_iff :
    (∃ text, (⟨directories, .sources input⟩ : Invocation).outcome world = .ok text) ↔
      world.Loads directories input := by
  have hshow : (Command.sources input).show? = none := rfl
  simp only [Invocation.outcome, Command.outcome, hshow, bind_eq_ok_iff, World.Loads]
  constructor
  · rintro ⟨text, entered, henter, s, hload, -⟩
    exact ⟨entered, s, henter, hload⟩
  · rintro ⟨entered, s, henter, hload⟩
    exact ⟨_, entered, henter, s, hload, rfl⟩

/-- Final values are shown where an order is shown: what fails after loading is the ordering. -/
theorem exists_outcome_expand_iff :
    (∃ text, (⟨directories, .expand input mode format⟩ : Invocation).outcome world = .ok text) ↔
      ∃ text, (⟨directories, .order input⟩ : Invocation).outcome world = .ok text := by
  constructor
  · rintro ⟨text, h⟩
    obtain ⟨entered, p, values, henter, hplan, hvalues, -⟩ := outcome_expand_eq_ok_iff.mp h
    obtain ⟨names, horder⟩ := Plan.exists_expand_iff.mp ⟨values, hvalues⟩
    have hpreserve := (order_of_mode p .preserve).trans horder
    exact ⟨_, outcome_order_eq_ok_iff.mpr
      ⟨entered, _, names, henter, plan_of_plan hplan .preserve, hpreserve, rfl⟩⟩
  · rintro ⟨text, h⟩
    obtain ⟨entered, p, names, henter, hplan, horder, -⟩ := outcome_order_eq_ok_iff.mp h
    have hmode := (order_of_mode p mode).trans horder
    obtain ⟨values, hvalues⟩ := Plan.exists_expand_iff.mpr ⟨names, hmode⟩
    exact ⟨_, outcome_expand_eq_ok_iff.mpr
      ⟨entered, _, values, henter, plan_of_plan hplan mode, hvalues, rfl⟩⟩

/-- A text shows variables in a form: a reader of YAML or JSON takes from it their names and texts
in order, and lines of assignments are these names and texts themselves. -/
def OutputFormat.Shows (format : OutputFormat) (values : Variables) (text : String) : Prop :=
  match format with
  | .yaml => Yaml.readEntries? text = some values.entries
  | .json => Json.readEntries? text = some values.entries
  | .dotenv =>
    text = String.join (values.entries.map fun entry => entry.1 ++ "=" ++ entry.2 ++ "\n")

theorem shows_showValues (format : OutputFormat) (values : Variables) :
    format.Shows values (showValues values format) := by
  cases format with
  | yaml => exact Yaml.readEntries?_write values
  | json => exact Json.readEntries?_pretty values
  | dotenv => rfl

/-- The names of an order are those of the final values, each once. -/
theorem perm_keys_of_expand {names : List String} {values : Variables}
    (horder : p.order = .ok names) (hvalues : p.expand = .ok values) : names.Perm values.keys := by
  refine (List.perm_ext_iff_of_nodup (Plan.nodup_of_order horder) values.nodup_keys).mpr ?_
  intro name
  exact (Plan.perm_of_order horder).mem_iff.trans (Plan.mem_keys_of_expand hvalues name).symm

/-- **All or nothing.** The run of arguments that can be understood either succeeds and says nothing
in its errors, or fails, shows nothing and says why. Graph and entries are shown exactly when the
sources can be loaded. Final values, in any mode and form, are shown exactly when the names are
shown in order. Then these names are those of the final values, each once, and what is shown can be
read as the final values, name by name. -/
theorem run_all_or_nothing (world : World) (directories : List String) (input : Input) :
    (∀ arguments invocation, Invocation.parse? arguments = some invocation →
      (run world arguments).exitCode = 0 ∧ (run world arguments).errors = "" ∨
        (run world arguments).exitCode = 1 ∧ (run world arguments).output = "" ∧
          (run world arguments).errors ≠ "") ∧
    (∀ arguments format, Invocation.parse? arguments = some ⟨directories, .graph input format⟩ →
      ((run world arguments).exitCode = 0 ↔ world.Loads directories input)) ∧
    (∀ arguments, Invocation.parse? arguments = some ⟨directories, .sources input⟩ →
      ((run world arguments).exitCode = 0 ↔ world.Loads directories input)) ∧
    ∀ arguments others mode format,
      Invocation.parse? arguments = some ⟨directories, .expand input mode format⟩ →
      Invocation.parse? others = some ⟨directories, .order input⟩ →
        ((run world arguments).exitCode = 0 ↔ (run world others).exitCode = 0) ∧
        ((run world others).exitCode = 0 → ∃ entered p values names,
          enter world directories = .ok entered ∧ plan entered input mode = .ok p ∧
          p.expand = .ok values ∧ (run world arguments).output = showValues values format ∧
          format.Shows values (run world arguments).output ∧
          p.order = .ok names ∧ (run world others).output = numbered 0 names ∧
          names.Nodup ∧ names.Perm values.keys) := by
  refine ⟨fun arguments invocation h => ?_, fun arguments format h => ?_, fun arguments h => ?_,
    fun arguments others mode format hexpand horder => ⟨?_, fun hzero => ?_⟩⟩
  · rw [run_eq_ofOutcome h]
    cases invocation.outcome world with
    | ok text => exact Or.inl ⟨rfl, rfl⟩
    | error fault => exact Or.inr ⟨rfl, rfl, fault.text_ne_empty⟩
  · rw [exitCode_eq_zero_iff h, exists_outcome_graph_iff]
  · rw [exitCode_eq_zero_iff h, exists_outcome_sources_iff]
  · rw [exitCode_eq_zero_iff hexpand, exitCode_eq_zero_iff horder, exists_outcome_expand_iff]
  · obtain ⟨shown, hshown⟩ := (exitCode_eq_zero_iff horder).mp hzero
    obtain ⟨entered, p, names, henter, hplan, hnames, rfl⟩ := outcome_order_eq_ok_iff.mp hshown
    have hmode := (order_of_mode p mode).trans hnames
    obtain ⟨values, hvalues⟩ := Plan.exists_expand_iff.mpr ⟨names, hmode⟩
    have hplan' := plan_of_plan hplan mode
    have houtcome : (⟨directories, .expand input mode format⟩ : Invocation).outcome world =
        .ok (showValues values format) :=
      outcome_expand_eq_ok_iff.mpr ⟨entered, _, values, henter, hplan', hvalues, rfl⟩
    have houtput : (run world arguments).output = showValues values format := by
      rw [run_eq_ofOutcome hexpand, houtcome]
      rfl
    refine ⟨entered, _, values, names, henter, hplan', hvalues, houtput, ?_, hmode, ?_,
      Plan.nodup_of_order hmode, perm_keys_of_expand hmode hvalues⟩
    · rw [houtput]
      exact shows_showValues format values
    · rw [run_eq_ofOutcome horder, hshown]
      rfl

/-- Two lines, the first of which refers to the second, are shown, and an assignment that refers to
nothing is not. -/
theorem run_all_or_nothing_two_lines :
    let world : World := ⟨default, [], "b=$a\na=1\n".toUTF8, []⟩
    let input : Input := ⟨[], [], false, []⟩
    (Invocation.parse? ["expand", "-F", "dotenv"] =
          some ⟨[], .expand input .preserve .dotenv⟩ ∧
        Invocation.parse? ["dev", "order"] = some ⟨[], .order input⟩ ∧
        Invocation.parse? ["dev", "graph"] = some ⟨[], .graph input .yaml⟩ ∧
        Invocation.parse? ["dev", "sources"] = some ⟨[], .sources input⟩ ∧
        Invocation.parse? ["expand", "c=$d"] =
          some ⟨[], .expand ⟨[], [], false, ["c=$d"]⟩ .preserve .yaml⟩) ∧
      ((run world ["expand", "c=$d"]).output = "" ∧ (run world ["expand", "c=$d"]).errors ≠ "") ∧
      (world.Loads [] input ∧ (run world ["dev", "graph"]).exitCode = 0 ∧
        (run world ["dev", "sources"]).exitCode = 0) ∧
      (run world ["expand", "-F", "dotenv"]).exitCode = 0 ∧
      ∃ entered p values names, enter world [] = .ok entered ∧
        plan entered input .preserve = .ok p ∧ p.expand = .ok values ∧
        (run world ["expand", "-F", "dotenv"]).output = showValues values .dotenv ∧
        OutputFormat.dotenv.Shows values (run world ["expand", "-F", "dotenv"]).output ∧
        p.order = .ok names ∧ (run world ["dev", "order"]).output = numbered 0 names ∧
        names.Nodup ∧ names.Perm values.keys := by
  intro world input
  have hexpand : Invocation.parse? ["expand", "-F", "dotenv"] =
      some ⟨[], .expand input .preserve .dotenv⟩ := by decide
  have horder : Invocation.parse? ["dev", "order"] = some ⟨[], .order input⟩ := by decide
  have hgraph : Invocation.parse? ["dev", "graph"] = some ⟨[], .graph input .yaml⟩ := by decide
  have hsources : Invocation.parse? ["dev", "sources"] = some ⟨[], .sources input⟩ := by decide
  have hfailing : Invocation.parse? ["expand", "c=$d"] =
      some ⟨[], .expand ⟨[], [], false, ["c=$d"]⟩ .preserve .yaml⟩ := by decide
  have hplan : plan world input .preserve =
      .ok ⟨.ofList [("b", "$a"), ("a", "1")], .preserve⟩ := by decide +kernel
  have hone : (run world ["expand", "c=$d"]).exitCode = 1 := by decide +kernel
  have hzero : (run world ["dev", "order"]).exitCode = 0 :=
    (exitCode_eq_zero_iff horder).mpr ⟨_, outcome_order_eq_ok_iff.mpr
      ⟨world, _, ["a", "b"], rfl, hplan, by cbv, rfl⟩⟩
  have hloads : world.Loads [] input :=
    (exists_plan_iff_loads .preserve).mp ⟨world, _, rfl, hplan⟩
  obtain ⟨hall, hwhole, hentries, hagree⟩ := run_all_or_nothing world [] input
  obtain ⟨hiff, hnames⟩ := hagree _ _ _ _ hexpand horder
  refine ⟨⟨hexpand, horder, hgraph, hsources, hfailing⟩, ?_,
    ⟨hloads, (hwhole _ _ hgraph).mpr hloads, (hentries _ hsources).mpr hloads⟩,
    hiff.mpr hzero, hnames hzero⟩
  rcases hall _ _ hfailing with ⟨hcode, -⟩ | ⟨-, hnothing⟩
  · rw [hone] at hcode
    cases hcode
  · exact hnothing

end Interpolation.CommandLine
