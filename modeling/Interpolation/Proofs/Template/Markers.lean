import Interpolation.Proofs.Template.Expanded

/-!
# Markers in a text

Where a text refers to a name can be seen without reading its pieces. Dollar signs stand in runs,
which no other dollar sign touches. A run of even length is made of escapes. In a run of odd length
the last dollar sign is a marker: it refers to the word behind the run, which may be empty.

## Main definitions

* `Template.HasMarker` — a run of odd length with a word behind it.

## Main results

* `Template.pieces_append_run` — reading starts afresh at the first dollar sign of a run.
* `Template.mem_references_iff_hasMarker` — a text refers to the words behind its markers.
-/

namespace Interpolation.Template

open Text

variable {cs before rest word : List Char}

/-- A text has a marker for a word: a run of dollar signs of odd length, and behind it the word,
which no character of a word follows. -/
def HasMarker (cs word : List Char) : Prop :=
  ∃ before count after, cs = before ++ List.replicate (2 * count + 1) '$' ++ (word ++ after) ∧
    before.getLast? ≠ some '$' ∧ (word ++ after).head? ≠ some '$' ∧
    (∀ c ∈ word, InWord c) ∧ ∀ c, after.head? = some c → ¬InWord c

theorem isWordChar_dollar : isWordChar '$' = false := by decide

/-! ### Reading a run -/

/-- A run of even length is made of escapes. -/
theorem expanded_replicate (count : Nat) : Expanded (List.replicate (2 * count) '$') := by
  induction count with
  | zero => exact .nil
  | succ count ih => exact .escape ih

/-- A dollar sign ends the word before it. -/
theorem leadingWord_append_dollar (cs rest : List Char) :
    leadingWord (cs ++ '$' :: rest) = leadingWord cs := by
  induction cs with
  | nil => rw [List.nil_append, leadingWord, List.takeWhile_cons_of_neg (by decide)]; rfl
  | cons c cs ih =>
    simp only [leadingWord, List.cons_append, List.takeWhile_cons] at ih ⊢
    rw [ih]

theorem afterWord_append_dollar (cs rest : List Char) :
    afterWord (cs ++ '$' :: rest) = afterWord cs ++ '$' :: rest := by
  have hwhole : leadingWord cs ++ afterWord (cs ++ '$' :: rest) =
      leadingWord cs ++ (afterWord cs ++ '$' :: rest) := by
    rw [← List.append_assoc, leadingWord_append_afterWord, ← leadingWord_append_dollar cs rest,
      leadingWord_append_afterWord]
  exact List.append_cancel_left hwhole

/-- The second part of a text ends as the text does, unless it is empty. -/
theorem getLast?_ne_of_append (first : List Char) {second : List Char}
    (h : (first ++ second).getLast? ≠ some '$') : second.getLast? ≠ some '$' := by
  intro hlast
  rw [List.getLast?_append, hlast] at h
  exact h rfl

theorem getLast?_afterWord_ne (h : cs.getLast? ≠ some '$') :
    (afterWord cs).getLast? ≠ some '$' := by
  rw [← leadingWord_append_afterWord cs] at h
  exact getLast?_ne_of_append _ h

/-- Reading starts afresh at a dollar sign that comes behind another character. -/
theorem pieces_append_run (h : before.getLast? ≠ some '$') (rest : List Char) :
    pieces (before ++ '$' :: rest) = pieces before ++ pieces ('$' :: rest) := by
  induction before using pieces_induction with
  | nil => simp
  | escape before ih =>
    have hbefore : before.getLast? ≠ some '$' := getLast?_ne_of_append ['$', '$'] h
    rw [List.cons_append, List.cons_append, pieces_escape, pieces_escape, ih hbefore,
      List.cons_append]
  | reference before hhead ih =>
    have hbefore : before.getLast? ≠ some '$' := getLast?_ne_of_append ['$'] h
    have hhead' : (before ++ '$' :: rest).head? ≠ some '$' := by
      cases before with
      | nil => exact absurd rfl h
      | cons c tail => exact hhead
    rw [List.cons_append, pieces_reference hhead', pieces_reference hhead,
      leadingWord_append_dollar, afterWord_append_dollar, ih (getLast?_afterWord_ne hbefore),
      List.cons_append]
  | literal c before hc ih =>
    have hbefore : before.getLast? ≠ some '$' := getLast?_ne_of_append [c] h
    rw [List.cons_append, pieces_literal hc, pieces_literal hc, ih hbefore, List.cons_append]

/-- A run of odd length is made of escapes and of a reference to the word behind it. -/
theorem pieces_oddRun (count : Nat) (hrest : rest.head? ≠ some '$') :
    pieces (List.replicate (2 * count + 1) '$' ++ rest) =
      pieces (List.replicate (2 * count) '$') ++
        .reference (String.ofList (leadingWord rest)) :: pieces (afterWord rest) := by
  rw [List.replicate_succ', List.append_assoc, (expanded_replicate count).pieces_append]
  exact congrArg _ (pieces_reference hrest)

/-! ### Markers and references -/

/-- A text refers to the words behind its markers. -/
theorem reference_mem_of_hasMarker (h : HasMarker cs word) :
    Piece.reference (String.ofList word) ∈ pieces cs := by
  obtain ⟨before, count, after, rfl, hbefore, hhead, hword, hafter⟩ := h
  have hrun : before ++ List.replicate (2 * count + 1) '$' ++ (word ++ after) =
      before ++ '$' :: (List.replicate (2 * count) '$' ++ (word ++ after)) := by
    rw [List.append_assoc, List.replicate_succ, List.cons_append]
  have hodd := pieces_oddRun count hhead
  rw [List.replicate_succ, List.cons_append] at hodd
  rw [hrun, pieces_append_run hbefore, hodd, leadingWord_append_of_inWord hword hafter]
  simp

/-- Behind a character that is no dollar sign, a marker is the same marker. -/
theorem HasMarker.cons {c : Char} (hc : c ≠ '$') (h : HasMarker cs word) :
    HasMarker (c :: cs) word := by
  obtain ⟨before, count, after, rfl, hbefore, hrest⟩ := h
  refine ⟨c :: before, count, after, rfl, ?_, hrest⟩
  rw [List.getLast?_cons]
  cases hlast : before.getLast? with
  | none => simpa [hlast] using hc
  | some d => simpa [hlast] using hbefore

/-- The same if the character is a dollar sign and no run goes on with it. -/
theorem HasMarker.cons_of_head {c : Char} (hhead : cs.head? ≠ some '$') (h : HasMarker cs word) :
    HasMarker (c :: cs) word := by
  obtain ⟨before, count, after, rfl, hbefore, hrest⟩ := h
  cases before with
  | nil => exact absurd rfl hhead
  | cons d tail =>
    refine ⟨c :: d :: tail, count, after, rfl, ?_, hrest⟩
    rwa [List.getLast?_cons_cons]

/-- Behind an escape, a marker is the same marker, perhaps with a longer run. -/
theorem HasMarker.escape (h : HasMarker cs word) : HasMarker ('$' :: '$' :: cs) word := by
  obtain ⟨before, count, after, rfl, hbefore, hrest⟩ := h
  cases before with
  | nil => exact ⟨[], count + 1, after, rfl, hbefore, hrest⟩
  | cons c tail =>
    refine ⟨'$' :: '$' :: c :: tail, count, after, rfl, ?_, hrest⟩
    simpa [List.getLast?_cons] using hbefore

theorem HasMarker.append_left {first : List Char} (hfirst : ∀ c ∈ first, c ≠ '$')
    (h : HasMarker cs word) : HasMarker (first ++ cs) word := by
  induction first with
  | nil => exact h
  | cons c tail ih =>
    exact (ih fun d hmem => hfirst d (List.mem_cons_of_mem _ hmem)).cons
      (hfirst c List.mem_cons_self)

/-- A text has a marker for each of the names that it refers to. -/
theorem hasMarker_of_reference_mem {name : String} (h : Piece.reference name ∈ pieces cs) :
    HasMarker cs name.toList := by
  induction cs using pieces_induction with
  | nil => simp at h
  | escape rest ih =>
    rw [pieces_escape] at h
    exact (ih (by simpa using h)).escape
  | reference rest hhead ih =>
    rw [pieces_reference hhead] at h
    rcases List.mem_cons.mp h with heq | hmem
    · rw [Piece.reference.inj heq, String.toList_ofList]
      refine ⟨[], 0, afterWord rest, ?_, by simp, ?_, fun c hc => ?_, fun c hc => ?_⟩
      · rw [leadingWord_append_afterWord]
        rfl
      · rwa [leadingWord_append_afterWord]
      · exact inWord_of_mem_leadingWord hc
      · exact not_inWord_of_head?_afterWord hc
    · have hmarker : HasMarker rest name.toList := by
        rw [← leadingWord_append_afterWord rest]
        refine (ih hmem).append_left fun c hc => ?_
        rintro rfl
        exact Bool.false_ne_true (isWordChar_dollar.symm.trans (isWordChar_of_mem_leadingWord hc))
      exact hmarker.cons_of_head hhead
  | literal c rest hc ih =>
    rw [pieces_literal hc] at h
    exact (ih (by simpa using h)).cons hc

/-- A text refers to the words behind its markers, and to no other names. -/
theorem mem_references_iff_hasMarker {text name : String} :
    name ∈ references text ↔ HasMarker text.toList name.toList := by
  rw [mem_references]
  refine ⟨hasMarker_of_reference_mem, fun h => ?_⟩
  rw [← String.ofList_toList (s := name)]
  exact reference_mem_of_hasMarker h

end Interpolation.Template
