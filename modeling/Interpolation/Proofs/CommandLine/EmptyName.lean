import Mathlib
import Interpolation.Proofs.CommandLine.Inputs
import Interpolation.Proofs.Document.Keys
import Interpolation.Proofs.Expansion.Repair
import Interpolation.Proofs.Template.Markers

/-!
# The empty name

A marker without a word behind it refers to the empty name. No document gives that name a value,
so such a marker keeps an expansion from succeeding. Assignments on the command line are not looked
at so closely: one that begins with its equals sign gives the empty name a value.

## Main definitions

* `Variables.HasBareMarker` — some value has a marker without a word.
* `Report.ofMissing` — the report of a run that misses names.

## Main results

* `World.Provides.empty_mem_iff` — which sources give the empty name a value.
* `Plan.exists_empty_missing_iff` — when the empty name is missing.
* `run_of_empty_name` — what the commands make of a marker without a word.
-/

namespace Interpolation

/-! ### Plans that miss the empty name -/

/-- Some value has a marker with no word behind it. -/
def Variables.HasBareMarker (given : Variables) : Prop :=
  ∃ name value, given.get? name = some value ∧ Template.HasMarker value.toList []

theorem exists_refersTo_empty_iff {given : Variables} :
    (∃ user, given.RefersTo user "") ↔ given.HasBareMarker := by
  refine exists_congr fun user => exists_congr fun text => and_congr_right fun _ => ?_
  exact Template.mem_references_iff_hasMarker

/-- The empty name is missing exactly where a value has a bare marker and the name has no value. -/
theorem Plan.exists_empty_missing_iff {p : Plan} :
    (∃ missing unresolved, "" ∈ missing ∧
      p.order = .error (.unknownDependency missing unresolved)) ↔
      "" ∉ p.given.keys ∧ p.given.HasBareMarker := by
  rw [← exists_refersTo_empty_iff]
  constructor
  · rintro ⟨missing, unresolved, hmem, horder⟩
    exact (mem_missing_iff horder).mp hmem
  · rintro ⟨hkey, user, href⟩
    cases horder : p.order with
    | ok names => exact absurd ((exists_order_iff.mp ⟨names, horder⟩).1 user "" href) hkey
    | error stall =>
      have hmem := (mem_missing_iff horder).mpr ⟨hkey, user, href⟩
      rw [Graph.Stall.eq_unknownDependency_of_mem_missing hmem]
      exact ⟨_, _, hmem, rfl⟩

namespace CommandLine

variable {world entered : World} {arguments : List String} {directories : List String}
  {input : Input} {mode : EscapeMode} {format : OutputFormat} {p : Plan} {text : String}
  {layers : List Variables}

/-! ### Sources that define the empty name -/

/-- An assignment is one to the empty name when it begins with its equals sign. -/
theorem IsAssignment.head?_iff {entry : String × String} (h : IsAssignment text entry) :
    text.toList.head? = some '=' ↔ entry.1 = "" := by
  obtain ⟨rfl, hnot⟩ := h
  rw [String.toList_append, String.toList_append, List.append_assoc]
  constructor
  · intro hhead
    cases hname : entry.1.toList with
    | nil => exact String.toList_eq_nil_iff.mp hname
    | cons c rest =>
      rw [hname] at hhead hnot
      obtain rfl : c = '=' := Option.some.inj hhead
      exact absurd List.mem_cons_self hnot
  · intro hname
    rw [hname]
    rfl

/-- The layers of an input define the empty name exactly when an assignment does. -/
theorem World.Provides.empty_mem_iff (h : world.Provides input layers) :
    (∃ layer ∈ layers, "" ∈ layer.keys) ↔
      ∃ text ∈ input.assignments, text.toList.head? = some '=' := by
  cases h with
  | standardInput hfiles hdirectories hassignments htext hread =>
    have hempty := Dotenv.empty_notMem_keys hread
    simp [hassignments, hempty]
  | @named files directories entries hsome hfiles hdirectories hassignments =>
    constructor
    · rintro ⟨layer, hmem, hempty⟩
      rcases List.mem_append.mp hmem with hdocument | hentry
      · rw [← List.map_append] at hdocument
        obtain ⟨document, hfound, rfl⟩ := List.mem_map.mp hdocument
        refine absurd hempty ?_
        rcases List.mem_append.mp hfound with hfile | hdirectory
        · obtain ⟨path, -, hhas⟩ := exists_of_mem_right hfiles hfile
          exact hhas.empty_notMem_keys
        · obtain ⟨batch, hbatch, hmem⟩ := List.mem_flatten.mp hdirectory
          obtain ⟨path, -, hhas⟩ := exists_of_mem_right hdirectories hbatch
          exact hhas.empty_notMem_keys document hmem
      · obtain ⟨entry, hfound, rfl⟩ := List.mem_map.mp hentry
        obtain ⟨text, htext, hassignment⟩ := exists_of_mem_right hassignments hfound
        exact ⟨text, htext, hassignment.head?_iff.mpr (List.mem_singleton.mp hempty).symm⟩
    · rintro ⟨text, hmem, hhead⟩
      obtain ⟨entry, hentry, hassignment⟩ := exists_of_mem_left hassignments hmem
      refine ⟨.ofList [entry], List.mem_append_right _ (List.mem_map_of_mem hentry), ?_⟩
      exact List.mem_singleton.mpr (hassignment.head?_iff.mp hhead).symm

/-- Without the environment below, variables define the empty name exactly when an assignment
does. -/
theorem empty_mem_keys_of_plan (henv : input.withEnvironment = false)
    (hplan : plan world input mode = .ok p) :
    "" ∈ p.given.keys ↔ ∃ text ∈ input.assignments, text.toList.head? = some '=' := by
  obtain ⟨s, hload, -⟩ := plan_eq_ok_iff.mp hplan
  obtain ⟨layers, hprovides⟩ := exists_provides_of_load hload
  have hbelow : world.below input = [] := if_neg (by simp [henv])
  have hgiven := Except.ok.inj (hplan.symm.trans (hprovides.plan_eq mode))
  rw [hgiven, hbelow, List.nil_append, Variables.mem_keys_ofLayers_iff, hprovides.empty_mem_iff]

/-! ### Runs -/

/-- The report of a run that misses names. -/
def Report.ofMissing (missing unresolved : NameSet) : Report :=
  .ofOutcome (.error (.expansion (.stalled (.unknownDependency missing unresolved))))

/-- **Markers without a word.** Without the environment, the empty name has a value exactly when an
assignment begins with its equals sign. If none does, each bare marker makes the name missing, and
neither final values nor an order are shown. If one does, the name is never missing. -/
theorem run_of_empty_name (henv : input.withEnvironment = false)
    (henter : enter world directories = .ok entered) (hplan : plan entered input mode = .ok p) :
    ("" ∈ p.given.keys ↔ ∃ text ∈ input.assignments, text.toList.head? = some '=') ∧
    ((∀ text ∈ input.assignments, text.toList.head? ≠ some '=') → p.given.HasBareMarker →
      ∃ missing unresolved, "" ∈ missing ∧
        (∀ arguments format,
          Invocation.parse? arguments = some ⟨directories, .expand input mode format⟩ →
            run world arguments = .ofMissing missing unresolved) ∧
        ∀ arguments, Invocation.parse? arguments = some ⟨directories, .order input⟩ →
          run world arguments = .ofMissing missing unresolved) ∧
    ((∃ text ∈ input.assignments, text.toList.head? = some '=') →
      ∀ stall, p.order = .error stall → "" ∉ stall.missing) := by
  have hempty := empty_mem_keys_of_plan henv hplan
  refine ⟨hempty, fun hnone hmarker => ?_, fun hsome stall horder hmem => ?_⟩
  · have hkey : "" ∉ p.given.keys := by
      rw [hempty]
      push Not
      exact hnone
    obtain ⟨missing, unresolved, hmem, horder⟩ :=
      Plan.exists_empty_missing_iff.mpr ⟨hkey, hmarker⟩
    have hexpand := Plan.expand_eq_error_iff.mpr ⟨_, horder, rfl⟩
    have hpreserve := (order_of_mode p .preserve).trans horder
    refine ⟨missing, unresolved, hmem, fun arguments format h => ?_, fun arguments h => ?_⟩
    · have houtcome : (⟨directories, .expand input mode format⟩ : Invocation).outcome world = _ :=
        outcome_of_plan rfl henter hplan
      rw [run_eq_ofOutcome h, houtcome, hexpand]
      rfl
    · have houtcome : (⟨directories, .order input⟩ : Invocation).outcome world = _ :=
        outcome_of_plan rfl henter (plan_of_plan hplan .preserve)
      rw [run_eq_ofOutcome h, houtcome, hpreserve]
      rfl
  · exact ((Plan.mem_missing_iff horder).mp hmem).1 (hempty.mpr hsome)

/-- A bare marker at the end of an assignment. -/
theorem run_of_empty_name_price :
    let world : World := ⟨default, [], .empty, []⟩
    let input : Input := ⟨[], [], false, ["A=5$"]⟩
    let p : Plan := ⟨.ofList [("A", "5$")], .preserve⟩
    input.withEnvironment = false ∧ enter world [] = .ok world ∧
      plan world input .preserve = .ok p ∧ "" ∉ p.given.keys ∧
      ∃ missing unresolved, "" ∈ missing ∧
        run world ["expand", "A=5$"] = .ofMissing missing unresolved ∧
        run world ["dev", "order", "A=5$"] = .ofMissing missing unresolved := by
  intro world input p
  have hplan : plan world input .preserve = .ok p := by decide +kernel
  have hnone : ∀ text ∈ input.assignments, text.toList.head? ≠ some '=' := by decide
  have hmarker : p.given.HasBareMarker :=
    ⟨"A", "5$", by decide, ['5'], 0, [], rfl, by decide, by decide, by simp, by simp⟩
  have henv : input.withEnvironment = false := rfl
  have henter : enter world [] = .ok world := rfl
  obtain ⟨hkey, hmissing, -⟩ := run_of_empty_name henv henter hplan
  obtain ⟨missing, unresolved, hmem, hexpand, horder⟩ := hmissing hnone hmarker
  refine ⟨henv, henter, hplan, fun hempty => ?_, missing, unresolved, hmem,
    hexpand _ .yaml (by decide), horder _ (by decide)⟩
  obtain ⟨text, htext, hhead⟩ := hkey.mp hempty
  exact hnone text htext hhead

/-- An assignment that begins with its equals sign gives a bare marker something to refer to. -/
theorem empty_name_defined_by_assignment :
    let world : World := ⟨default, [], .empty, []⟩
    let arguments := ["expand", "-F", "dotenv", "=x", "A=$"]
    let input : Input := ⟨[], [], false, ["=x", "A=$"]⟩
    let p : Plan := ⟨.ofList [("", "x"), ("A", "$")], .preserve⟩
    Invocation.parse? arguments = some ⟨[], .expand input .preserve .dotenv⟩ ∧
      plan world input .preserve = .ok p ∧ "" ∈ p.given.keys ∧ p.given.HasBareMarker ∧
      run world arguments = ⟨0, "=x\nA=x\n", ""⟩ := by
  intro world arguments input p
  have hparse : Invocation.parse? arguments = some ⟨[], .expand input .preserve .dotenv⟩ := by
    decide
  have hplan : plan world input .preserve = .ok p := by decide +kernel
  have hvalues : p.expand = .ok (.ofList [("", "x"), ("A", "x")]) := by cbv
  have houtcome : (⟨[], .expand input .preserve .dotenv⟩ : Invocation).outcome world =
      .ok "=x\nA=x\n" :=
    outcome_expand_eq_ok_iff.mpr ⟨world, p, _, rfl, hplan, hvalues, by decide +kernel⟩
  refine ⟨hparse, hplan, by decide,
    ⟨"A", "$", by decide, [], 0, [], rfl, by decide, by decide, by simp, by simp⟩, ?_⟩
  rw [run_eq_ofOutcome hparse, houtcome]
  rfl

end CommandLine

end Interpolation
