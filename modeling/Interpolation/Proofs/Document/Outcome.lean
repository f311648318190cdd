import Mathlib
import Interpolation.Proofs.Document.Lines

/-!
# What the lines of a document come to

Reading goes through the lines of a document with the variables so far and the number of the line,
and stops at the first that is malformed. What it comes to can be said without these steps: if some
line is malformed, the fault has the number of the first that is; if none is, the assignments are
inserted one after the other. So neither the variables so far nor the number has any influence on
where reading stops, and what a line says does not depend on the carriage return that may end it.

## Main definitions

* `Dotenv.Line.outcome` — what lines come to that say this and that.

## Main results

* `Dotenv.read_eq_outcome` — what a document comes to.
* `Dotenv.Line.outcome_append` — lines behind other lines.
* `Dotenv.Line.outcome_of_error`, `Dotenv.Line.outcome_of_ok` — the same lines with other numbers
  and on other variables.
* `Dotenv.read_append_return` — a carriage return at the end of a line.
* `Dotenv.splitOn_flatMap_append` — lines are cut where they were put together.
-/

namespace Interpolation.Dotenv

open Document Text

variable {number : Nat} {vars other result : Variables}

/-! ### Without steps -/

namespace Line

/-- Whether a line says something that is no assignment. -/
def isMalformed : Line → Bool
  | silent => false
  | assignment _ _ => false
  | malformed => true

/-- What a line assigns, if it assigns anything. -/
def entry? : Line → Option (String × String)
  | silent => none
  | assignment key value => some (key, value)
  | malformed => none

/-- What lines come to of which each says what is given, on top of some variables; the first line
has the given number. -/
def outcome (number : Nat) (vars : Variables) (said : List Line) : Except Fault Variables :=
  match said.findIdx? isMalformed with
  | some index => .error (.malformedLine (number + index))
  | none => .ok (vars.insertAll (said.filterMap entry?))

variable {said first second : List Line}

theorem outcome_of_forall (h : ∀ line ∈ said, line.isMalformed = false) :
    outcome number vars said = .ok (vars.insertAll (said.filterMap entry?)) := by
  rw [outcome, List.findIdx?_eq_none_iff.mpr h]

/-- Lines behind other lines go on where these have come to, unless there is a fault before. -/
theorem outcome_append (number : Nat) (vars : Variables) (first second : List Line) :
    outcome number vars (first ++ second) =
      (outcome number vars first).bind fun later =>
        outcome (number + first.length) later second := by
  rw [outcome, List.findIdx?_append]
  cases hfirst : first.findIdx? isMalformed with
  | some index =>
    rw [outcome, hfirst, Option.some_or]
    rfl
  | none =>
    rw [outcome, hfirst, Option.none_or]
    change _ = outcome (number + first.length) (vars.insertAll (first.filterMap entry?)) second
    rw [outcome]
    cases second.findIdx? isMalformed with
    | some index =>
      have hnumber : number + (index + first.length) = number + first.length + index := by omega
      exact congrArg (Except.error ∘ Fault.malformedLine) hnumber
    | none =>
      rw [List.filterMap_append, OrderedMap.insertAll_append]
      rfl

/-- The number of a fault is that of the first malformed line. -/
theorem outcome_of_first (h : ∀ line ∈ first, line.isMalformed = false) :
    outcome number vars (first ++ malformed :: second) =
      .error (.malformedLine (number + first.length)) := by
  rw [outcome_append, outcome_of_forall h]
  rfl

/-- Lines have a fault whatever the variables are, and its number counts from that of the first
line. -/
theorem outcome_of_error {line : Nat}
    (h : outcome number vars said = .error (.malformedLine line)) (before : Nat)
    (other : Variables) :
    outcome (before + number) other said = .error (.malformedLine (before + line)) := by
  rw [outcome] at h ⊢
  cases hindex : said.findIdx? isMalformed with
  | some index =>
    rw [hindex] at h
    obtain rfl := Fault.malformedLine.inj (Except.error.inj h)
    exact congrArg (Except.error ∘ Fault.malformedLine) (Nat.add_assoc before number index)
  | none =>
    rw [hindex] at h
    cases h

/-- Lines without a fault come to the same on top of other variables, as a layer over these. -/
theorem outcome_of_ok (h : outcome number ∅ said = .ok result) (later : Nat)
    (vars : Variables) : outcome later vars said = .ok (vars.override result) := by
  rw [outcome] at h ⊢
  cases hindex : said.findIdx? isMalformed with
  | some index =>
    rw [hindex] at h
    cases h
  | none =>
    rw [hindex] at h
    obtain rfl := Except.ok.inj h
    exact congrArg Except.ok (OrderedMap.override_ofList vars _).symm

/-- The only fault of lines is that one of them is malformed. -/
theorem exists_malformedLine {fault : Fault} (h : outcome number vars said = .error fault) :
    ∃ index < said.length, fault = .malformedLine (number + index) := by
  rw [outcome] at h
  cases hindex : said.findIdx? isMalformed with
  | some index =>
    rw [hindex] at h
    obtain ⟨hlt, -⟩ := List.findIdx?_eq_some_iff_getElem.mp hindex
    exact ⟨index, hlt, (Except.error.inj h).symm⟩
  | none =>
    rw [hindex] at h
    cases h

end Line

theorem readLines_eq_outcome (number : Nat) (vars : Variables) (lines : List (List Char)) :
    readLines number vars lines = Line.outcome number vars (lines.map Line.read) := by
  induction lines generalizing number vars with
  | nil => rfl
  | cons line rest ih =>
    refine Eq.trans ?_ (Line.outcome_append number vars [Line.read line] _).symm
    cases hline : Line.read line with
    | silent => exact (readLines_cons_silent hline number vars rest).trans (ih _ _)
    | assignment key value =>
      exact (readLines_cons_assignment hline number vars rest).trans (ih _ _)
    | malformed => exact readLines_cons_malformed hline number vars rest

/-- What the lines of a text say. -/
def said (cs : List Char) : List Line := (cs.splitOn '\n').map Line.read

theorem read_eq_outcome (text : String) : read text = Line.outcome 1 ∅ (said text.toList) :=
  readLines_eq_outcome 1 ∅ _

/-! ### The lines of a text -/

/-- Around a line feed there are the lines of what stands before it and of what stands behind. -/
theorem said_append_cons (first second : List Char) :
    said (first ++ '\n' :: second) = said first ++ said second := by
  rw [said, List.splitOn_append_cons_self, List.map_append]
  rfl

/-- There is one line more than there are line feeds. -/
theorem length_said (cs : List Char) : (said cs).length = 1 + cs.count '\n' := by
  rw [said, List.length_map]
  induction cs with
  | nil => rfl
  | cons c rest ih =>
    rw [List.splitOn_cons_eq_if_modifyHead, List.count_cons]
    split
    · rw [List.length_cons, ih, Nat.add_assoc]
    · rw [List.length_modifyHead, ih, Nat.add_zero]

/-- What a line says does not depend on a carriage return at its end. -/
theorem read_append_return (line : List Char) : Line.read (line ++ ['\r']) = Line.read line :=
  read_congr (trim_append_right (fun c hmem => by rw [List.mem_singleton.mp hmem]; decide) line)

/-- Lines that hold no line feed, each followed by one, are cut where they were put together. -/
theorem splitOn_flatMap_append {lines : List (List Char)} {last : List Char}
    (h : ∀ line ∈ lines, '\n' ∉ line) (hlast : '\n' ∉ last) :
    ((lines.flatMap fun line => line ++ ['\n']) ++ last).splitOn '\n' = lines ++ [last] := by
  induction lines with
  | nil => exact List.splitOn_eq_singleton hlast
  | cons line rest ih =>
    rw [List.flatMap_cons, List.append_assoc, List.append_assoc, List.singleton_append,
      List.splitOn_append_cons_self_of_not_mem (h line List.mem_cons_self),
      ih fun other hmem => h other (List.mem_cons_of_mem _ hmem), List.cons_append]

end Interpolation.Dotenv
