import Interpolation.Proofs.Document.RoundTrip

/-!
# Texts put together

Two texts with a line feed between them have the lines of the first and then those of the second.
So a fault of the first text stays where it is; a fault of the second moves down by all lines of
the first, of which there is one more than it has line feeds; and if neither has a fault, the
variables of the second override those of the first. It does not matter whether a text ends its
lines with line feeds only or with carriage returns before them.

## Main definitions

* `Dotenv.withReturns` — a text with a carriage return before every line feed.

## Main results

* `Dotenv.read_append_newline` — what two texts come to together.
* `Dotenv.read_withReturns` — carriage returns before line feeds.
* `Dotenv.read_put_together` — both, with what every text has in common.
-/

namespace Interpolation.Dotenv

open Document Text

variable {first : String}

/-- The lines of the first text are read first, then those of the second, with the numbers and the
variables that follow. -/
theorem read_append_newline (first second : String) :
    read (first ++ "\n" ++ second) =
      (read first).bind fun lower =>
        Line.outcome (1 + (1 + first.toList.count '\n')) lower (said second.toList) := by
  have htext : (first ++ "\n" ++ second).toList = first.toList ++ '\n' :: second.toList := by
    simp
  rw [read_eq_outcome, htext, said_append_cons, Line.outcome_append, length_said,
    ← read_eq_outcome]

/-! ### Carriage returns -/

/-- A text with a carriage return before every line feed. -/
def withReturns (cs : List Char) : List Char :=
  cs.flatMap fun c => if c = '\n' then ['\r', '\n'] else [c]

theorem withReturns_newline (rest : List Char) :
    withReturns ('\n' :: rest) = '\r' :: '\n' :: withReturns rest := rfl

theorem withReturns_cons {c : Char} (hc : c ≠ '\n') (rest : List Char) :
    withReturns (c :: rest) = c :: withReturns rest := by
  rw [withReturns, List.flatMap_cons, if_neg hc]
  rfl

theorem said_of_notMem {front : List Char} (h : '\n' ∉ front) : said front = [Line.read front] := by
  rw [said, List.splitOn_eq_singleton h]
  rfl

/-- Carriage returns before the line feeds of a text change nothing of what its lines say. The first
part of the text stands for the line that has been begun. -/
theorem said_append_withReturns {front : List Char} (h : '\n' ∉ front) (cs : List Char) :
    said (front ++ withReturns cs) = said (front ++ cs) := by
  induction cs generalizing front with
  | nil => rfl
  | cons c rest ih =>
    by_cases hc : c = '\n'
    · subst hc
      have hreturn : '\n' ∉ front ++ ['\r'] := by simp [h]
      have hrest : said (withReturns rest) = said rest := ih List.not_mem_nil
      rw [withReturns_newline, List.append_cons, said_append_cons, said_append_cons,
        said_of_notMem hreturn, said_of_notMem h, read_append_return, hrest]
    · have hfront : '\n' ∉ front ++ [c] := by simp [h, Ne.symm hc]
      rw [withReturns_cons hc, List.append_cons, ih hfront, ← List.append_cons]

/-- A text says the same with carriage returns before its line feeds, line by line. -/
theorem read_withReturns (text : String) :
    read (String.ofList (withReturns text.toList)) = read text := by
  have hsaid := said_append_withReturns List.not_mem_nil text.toList
  rw [List.nil_append, List.nil_append] at hsaid
  rw [read_eq_outcome, read_eq_outcome, String.toList_ofList, hsaid]

/-! ### All together -/

/-- The only fault of a text is a malformed line, with the number of one of its lines. -/
theorem exists_malformedLine_of_read {fault : Fault} (h : read first = .error fault) :
    ∃ line, fault = .malformedLine line ∧ 1 ≤ line ∧ line ≤ 1 + first.toList.count '\n' := by
  rw [read_eq_outcome] at h
  obtain ⟨index, hlt, rfl⟩ := Line.exists_malformedLine h
  rw [length_said] at hlt
  exact ⟨1 + index, rfl, Nat.le_add_right 1 index, by omega⟩

/-- **Texts put together.** Of two texts with a line feed between them, a fault of the first is the
fault of both, with the same number; a fault of the second, if the first has none, has a number
that is larger by the number of lines of the first; and if neither has a fault, the variables of the
second override those of the first, whose keys keep their places. There are no other cases: a fault
is a malformed line of the text, by its number. Carriage returns before line feeds change neither
variables nor faults. All keys are words that are not empty, and no value holds a line feed. -/
theorem read_put_together (first second : String) :
    let lines := 1 + first.toList.count '\n'
    (∀ line, read first = .error (.malformedLine line) →
      read (first ++ "\n" ++ second) = .error (.malformedLine line)) ∧
    (∀ lower line, read first = .ok lower → read second = .error (.malformedLine line) →
      read (first ++ "\n" ++ second) = .error (.malformedLine (lines + line))) ∧
    (∀ lower upper, read first = .ok lower → read second = .ok upper →
      read (first ++ "\n" ++ second) = .ok (lower.override upper) ∧
        lower.keys <+: (lower.override upper).keys) ∧
    (∀ fault, read first = .error fault →
      ∃ line, fault = .malformedLine line ∧ 1 ≤ line ∧ line ≤ lines) ∧
    read (String.ofList (withReturns first.toList)) = read first ∧
    ∀ vars key value, read first = .ok vars → vars.get? key = some value →
      (key ≠ "" ∧ ∀ c ∈ key.toList, isWordChar c = true) ∧ '\n' ∉ value.toList := by
  intro lines
  refine ⟨fun line h => ?_, fun lower line hfirst hsecond => ?_,
    fun lower _ hfirst hsecond => ⟨?_, ?_⟩, fun fault => exists_malformedLine_of_read,
    read_withReturns first, fun vars key value h hget => ?_⟩
  · rw [read_append_newline, h]
    rfl
  · rw [read_eq_outcome] at hsecond
    rw [read_append_newline, hfirst, Nat.add_comm 1]
    exact Line.outcome_of_error hsecond lines lower
  · rw [read_eq_outcome] at hsecond
    rw [read_append_newline, hfirst]
    exact Line.outcome_of_ok hsecond _ lower
  · rw [OrderedMap.keys_override]
    exact List.prefix_append _ _
  · obtain ⟨hkey, hvalue⟩ := isKey_and_newline_notMem_of_read h hget
    exact ⟨isKey_toList_iff.mp hkey, hvalue⟩

/-- A text with a last line that is empty, before one with a fault and before one without. -/
theorem read_put_together_override :
    let first := "A=1\r\n# B\nB=2\n"
    let lower : Variables := .ofList [("A", "1"), ("B", "2")]
    let upper : Variables := .ofList [("C", "\r"), ("A", "3")]
    read first = .ok lower ∧ read "\nC 1" = .error (.malformedLine 2) ∧
      read "C='\r'\nA=3" = .ok upper ∧
      read (first ++ "\n" ++ "\nC 1") = .error (.malformedLine 6) ∧
      read (first ++ "\n" ++ "C='\r'\nA=3") = .ok (.ofList [("A", "3"), ("B", "2"), ("C", "\r")]) ∧
      read (String.ofList (withReturns "C 1\n".toList)) = .error (.malformedLine 1) := by
  intro first lower upper
  have hfirst : read first = .ok lower := by decide
  have hsecond : read "\nC 1" = .error (.malformedLine 2) := by decide
  have hupper : read "C='\r'\nA=3" = .ok upper := by decide
  have hlayers : lower.override upper = .ofList [("A", "3"), ("B", "2"), ("C", "\r")] := by decide
  obtain ⟨-, hfault, -⟩ := read_put_together first "\nC 1"
  obtain ⟨-, -, hvars, -⟩ := read_put_together first "C='\r'\nA=3"
  obtain ⟨-, -, -, -, hreturns, -⟩ := read_put_together "C 1\n" ""
  refine ⟨hfirst, hsecond, hupper, (hfault lower 2 hfirst hsecond).trans (by decide), ?_,
    hreturns.trans (by decide)⟩
  rw [← hlayers]
  exact (hvars lower upper hfirst hupper).1

end Interpolation.Dotenv
