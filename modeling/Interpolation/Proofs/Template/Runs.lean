import Interpolation.Proofs.Template.Markers
import Mathlib.Algebra.Ring.Parity
import Mathlib.Data.List.Chain

/-!
# The runs of dollar signs in a text

Every text falls into what stands before its first dollar sign and into runs of dollar signs, each
with the characters between it and the next run. Since a word ends before a dollar sign, reading
starts afresh at every run, so the pieces of the text are those of its runs: for every two dollar
signs of a run an escape and, if one is left, a reference to the word behind the run.

## Main definitions

* `Template.Run` — a run of dollar signs and what stands between it and the next run.
* `Template.Runs` — a text cut at its runs, none of which touches another.
* `Template.Run.pieces` — the pieces of a run, by the parity of its length.

## Main results

* `Template.nonempty_runs` — every text can be cut at its runs.
* `Template.Runs.pieces_eq` — the pieces of a text are those of its runs.
-/

namespace Interpolation.Template

open Text

variable {cs : List Char}

/-- A run of dollar signs, with the longest word behind it and the characters between the word and
the next run. -/
structure Run where
  /-- The number of dollar signs. -/
  count : Nat
  /-- The word behind the run, which may be empty. -/
  word : List Char
  /-- What stands between the word and the next run, or the end of the text. -/
  rest : List Char
  /-- A run has a dollar sign. -/
  count_pos : 0 < count
  /-- The word is made of the characters of words. -/
  inWord : ∀ c ∈ word, InWord c
  /-- The word is the longest: no other character of a word follows it. -/
  not_inWord : ∀ c, rest.head? = some c → ¬InWord c
  /-- The next dollar sign belongs to the next run. -/
  dollar_notMem_rest : '$' ∉ rest

/-- The characters between a run and the next one. -/
def Run.behind (run : Run) : List Char := run.word ++ run.rest

/-- The characters of a run, with those behind it. -/
def Run.text (run : Run) : List Char := List.replicate run.count '$' ++ run.behind

theorem Run.dollar_notMem (run : Run) : '$' ∉ run.behind := by
  rw [behind, List.mem_append, not_or]
  exact ⟨fun h => absurd (run.inWord _ h) (by decide), run.dollar_notMem_rest⟩

theorem Run.leadingWord_behind (run : Run) : leadingWord run.behind = run.word :=
  leadingWord_append_of_inWord run.inWord run.not_inWord

theorem Run.afterWord_behind (run : Run) : afterWord run.behind = run.rest :=
  afterWord_append_of_inWord run.inWord run.not_inWord

/-- A text cut at its runs of dollar signs. Two runs do not touch, so each has all dollar signs
that stand together. -/
structure Runs (cs : List Char) where
  /-- What stands before the first run. -/
  lead : List Char
  /-- The runs in order. -/
  list : List Run
  /-- The first dollar sign belongs to the first run. -/
  dollar_notMem_lead : '$' ∉ lead
  /-- Something stands between a run and the next one. -/
  apart : list.IsChain fun run _ => run.behind ≠ []
  /-- Put together, the parts are the text. -/
  lead_append : lead ++ list.flatMap Run.text = cs

/-! ### Cutting a text -/

/-- A character other than the dollar sign goes before everything. -/
theorem Runs.nonempty_literal {c : Char} (hc : c ≠ '$') (runs : Runs cs) :
    Nonempty (Runs (c :: cs)) := by
  obtain ⟨lead, list, hlead, hapart, rfl⟩ := runs
  exact ⟨⟨c :: lead, list, List.not_mem_cons_of_ne_of_not_mem hc.symm hlead, hapart, rfl⟩⟩

/-- Characters without a dollar sign can stand behind a run: they begin with their longest word. -/
theorem exists_run {count : Nat} (hcount : 0 < count) (hbehind : '$' ∉ cs) :
    ∃ run : Run, run.count = count ∧ run.behind = cs := by
  have hafter : '$' ∉ afterWord cs := fun h => hbehind ((List.dropWhile_sublist _).mem h)
  exact ⟨⟨count, leadingWord cs, afterWord cs, hcount, fun _ => inWord_of_mem_leadingWord,
    fun _ => not_inWord_of_head?_afterWord, hafter⟩, rfl, leadingWord_append_afterWord cs⟩

/-- A dollar sign makes the first run longer if nothing stands between, and begins a run
otherwise. -/
theorem Runs.nonempty_dollar (runs : Runs cs) : Nonempty (Runs ('$' :: cs)) := by
  obtain ⟨lead, list, hlead, hapart, rfl⟩ := runs
  by_cases htouch : lead = [] ∧ list ≠ []
  · obtain ⟨rfl, hne⟩ := htouch
    obtain ⟨run, rest, rfl⟩ := List.exists_cons_of_ne_nil hne
    let longer : Run := { run with count := run.count + 1, count_pos := Nat.succ_pos _ }
    have htext : longer.text = '$' :: run.text := by
      rw [Run.text, Run.text, List.replicate_succ, List.cons_append]
      rfl
    refine ⟨⟨[], longer :: rest, List.not_mem_nil, ?_, ?_⟩⟩
    · exact List.isChain_cons.mpr (List.isChain_cons.mp hapart)
    · rw [List.flatMap_cons, htext]
      rfl
  · obtain ⟨run, hcount, hbehind⟩ := exists_run Nat.one_pos hlead
    have htext : run.text = '$' :: lead := by
      rw [Run.text, hcount, hbehind]
      rfl
    refine ⟨⟨[], run :: list, List.not_mem_nil, ?_, ?_⟩⟩
    · refine List.isChain_cons.mpr ⟨fun next hnext hempty => ?_, hapart⟩
      refine htouch ⟨hbehind.symm.trans hempty, ?_⟩
      rintro rfl
      cases hnext
    · rw [List.flatMap_cons, htext]
      rfl

/-- Every text can be cut at its runs. -/
theorem nonempty_runs (cs : List Char) : Nonempty (Runs cs) := by
  induction cs with
  | nil => exact ⟨⟨[], [], List.not_mem_nil, .nil, rfl⟩⟩
  | cons c cs ih =>
    obtain ⟨runs⟩ := ih
    by_cases hc : c = '$'
    · rw [hc]
      exact runs.nonempty_dollar
    · exact runs.nonempty_literal hc

/-! ### The pieces of a run -/

/-- The pieces of a run: an escape for every two dollar signs and, if one is left, a reference to
the word behind it. The other characters stand for themselves. -/
def Run.pieces (run : Run) : List Piece :=
  List.replicate (run.count / 2) .escape ++
    if run.count % 2 = 1 then
      .reference (String.ofList run.word) :: run.rest.map .literal
    else run.behind.map .literal

theorem pieces_of_notMem (h : '$' ∉ cs) : pieces cs = cs.map .literal := by
  induction cs with
  | nil => exact pieces_nil
  | cons c cs ih =>
    rw [List.mem_cons, not_or] at h
    rw [pieces_literal (Ne.symm h.1), ih h.2, List.map_cons]

theorem pieces_replicate (count : Nat) :
    pieces (List.replicate (2 * count) '$') = List.replicate count .escape := by
  induction count with
  | zero => exact pieces_nil
  | succ count ih =>
    rw [Nat.mul_succ, List.replicate_succ, List.replicate_succ, pieces_escape, ih]
    rfl

/-- A run is read as its pieces. -/
theorem Run.pieces_text (run : Run) : Template.pieces run.text = run.pieces := by
  have hhead : run.behind.head? ≠ some '$' := fun h => run.dollar_notMem (List.mem_of_head? h)
  rw [text, pieces]
  obtain ⟨half, hcount | hcount⟩ := Nat.even_or_odd' run.count
  · have hhalf : run.count / 2 = half := by omega
    rw [if_neg (by omega), hhalf, hcount, (expanded_replicate half).pieces_append,
      pieces_replicate, pieces_of_notMem run.dollar_notMem]
  · have hhalf : run.count / 2 = half := by omega
    rw [if_pos (by omega), hhalf, hcount, pieces_oddRun half hhead, pieces_replicate,
      run.leadingWord_behind, run.afterWord_behind, pieces_of_notMem run.dollar_notMem_rest]

/-! ### The pieces of a text -/

/-- A text that the runs begin is empty or begins with a dollar sign. -/
theorem flatMap_text_cases (list : List Run) :
    list.flatMap Run.text = [] ∨ ∃ tail, list.flatMap Run.text = '$' :: tail := by
  cases list with
  | nil => exact Or.inl rfl
  | cons run rest =>
    obtain ⟨count, hcount⟩ := Nat.exists_eq_succ_of_ne_zero run.count_pos.ne'
    rw [List.flatMap_cons, Run.text, hcount, List.replicate_succ]
    exact Or.inr ⟨_, rfl⟩

/-- Reading starts afresh at the first run behind another character. -/
theorem pieces_append_flatMap_text {before : List Char} {list : List Run}
    (h : before.getLast? ≠ some '$' ∨ list = []) :
    pieces (before ++ list.flatMap Run.text) = pieces before ++ pieces (list.flatMap Run.text) := by
  rcases h with hlast | rfl
  · rcases flatMap_text_cases list with hnil | ⟨tail, htail⟩
    · rw [hnil, pieces_nil, List.append_nil, List.append_nil]
    · rw [htail, pieces_append_run hlast]
  · rw [List.flatMap_nil, pieces_nil, List.append_nil, List.append_nil]

theorem Run.getLast?_text_ne {run : Run} (h : run.behind ≠ []) :
    run.text.getLast? ≠ some '$' := by
  rw [text, List.getLast?_append_of_ne_nil _ h]
  exact fun hlast => run.dollar_notMem (List.mem_of_getLast? hlast)

/-- Runs that do not touch are read one by one. -/
theorem pieces_flatMap_text {list : List Run} (hapart : list.IsChain fun run _ => run.behind ≠ []) :
    pieces (list.flatMap Run.text) = list.flatMap Run.pieces := by
  induction list with
  | nil => exact pieces_nil
  | cons run rest ih =>
    obtain ⟨hnext, hrest⟩ := List.isChain_cons.mp hapart
    have hfresh : run.text.getLast? ≠ some '$' ∨ rest = [] := by
      cases rest with
      | nil => exact Or.inr rfl
      | cons next tail => exact Or.inl (Run.getLast?_text_ne (hnext next rfl))
    rw [List.flatMap_cons, List.flatMap_cons, pieces_append_flatMap_text hfresh, run.pieces_text,
      ih hrest]

/-- The pieces of a text are those of its runs, behind the characters that come before them. -/
theorem Runs.pieces_eq (runs : Runs cs) :
    pieces cs = runs.lead.map .literal ++ runs.list.flatMap Run.pieces := by
  have hlast : runs.lead.getLast? ≠ some '$' := fun h =>
    runs.dollar_notMem_lead (List.mem_of_getLast? h)
  rw [← pieces_of_notMem runs.dollar_notMem_lead, ← pieces_flatMap_text runs.apart,
    ← pieces_append_flatMap_text (Or.inl hlast), runs.lead_append]

end Interpolation.Template
