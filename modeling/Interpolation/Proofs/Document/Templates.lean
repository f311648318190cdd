import Mathlib.Data.List.Basic
import Mathlib.Tactic.SplitIfs
import Interpolation.Document.Hcl.Expression

/-!
# Templates

A text that is kept in its written form is a template. Read back, it is a sequence of parts, as a
text between quotes or on lines is: literal ones, interpolations and directives. It has a literal
text if all of it is such a sequence and no part must be computed, and the text is then that of the
parts one behind the other. So nothing is ever left out of a template: one part to compute anywhere
in it, or one place where no part can be read, and it has no text at all.

## Main definitions

* `Reader.templatePart` — one part of a template.
* `partsOf?` — the parts of a whole template, if it decomposes into some.

## Main results

* `Reader.readLiteral?_of_collect`, `Reader.exists_collect_of_readLiteral?` — parts that are read
  one after the other, and the literal text.
* `readLiteral?_eq` — the literal text of a template is that of its parts.
* `readLiteral?_eq_none_iff` — when there is none.
-/

namespace Interpolation.Hcl

namespace Reader

/-- Take a part of a template: a literal one, or one that must be computed, if one follows. -/
def templatePart (expression : Reader Value) : Reader (Option Part) := do
  match ← literalPart with
  | some part => return some part
  | none => computedPart expression

end Reader

/-- The parts of a template, if all of it decomposes into parts. -/
def partsOf? (written : List Char) : Option (List Part) :=
  Reader.readAll (Reader.collect (Reader.templatePart (Reader.expression false))) written

variable {c : Char} {cs rest chars : List Char} {parts : List Part}

/-! ### Literal parts -/

namespace Part

theorem literalText?_cons_literal (chars : List Char) (parts : List Part) :
    literalText? (.literal chars :: parts) = (literalText? parts).map (chars ++ ·) := by
  simp only [literalText?, List.mapM_cons, literal?]
  cases parts.mapM literal? <;> rfl

theorem literalText?_cons_computed (form : Form) (parts : List Part) :
    literalText? (.computed form :: parts) = none := rfl

/-- Parts have a literal text if all of them are literal. -/
theorem literalText?_eq_some_iff :
    literalText? parts = some chars ↔
      ∃ pieces : List (List Char), parts = pieces.map .literal ∧ pieces.flatten = chars := by
  induction parts generalizing chars with
  | nil => simp [literalText?, eq_comm]
  | cons part rest ih =>
    cases part with
    | literal first =>
      rw [literalText?_cons_literal, Option.map_eq_some_iff]
      constructor
      · rintro ⟨others, hothers, rfl⟩
        obtain ⟨pieces, rfl, rfl⟩ := ih.mp hothers
        exact ⟨first :: pieces, rfl, rfl⟩
      · rintro ⟨_ | ⟨piece, pieces⟩, hparts, rfl⟩
        · cases hparts
        · cases hparts
          exact ⟨_, ih.mpr ⟨pieces, rfl, rfl⟩, rfl⟩
    | computed form =>
      refine iff_of_false (by simp [literalText?_cons_computed]) ?_
      rintro ⟨_ | _, hparts, -⟩ <;> cases hparts

/-- Parts have no literal text if one of them must be computed. -/
theorem literalText?_eq_none_iff : literalText? parts = none ↔ ∃ form, computed form ∈ parts := by
  induction parts with
  | nil => simp [literalText?]
  | cons part rest ih =>
    cases part with
    | literal first => simp [literalText?_cons_literal, ih]
    | computed form => simp [literalText?_cons_computed]

end Part

theorem exists_of_atDoubledMarker (h : atDoubledMarker (c :: rest) = true) :
    (c = '$' ∨ c = '%') ∧ ∃ more, rest = c :: '\x7b' :: more := by
  obtain ⟨hhead, hmarker⟩ := Bool.and_eq_true_iff.mp h
  rcases rest with _ | ⟨sign, _ | ⟨brace, more⟩⟩
  · cases hmarker
  · cases hmarker
  · obtain ⟨hsign, hbrace⟩ := Bool.and_eq_true_iff.mp hmarker
    obtain rfl : sign = c := by simpa using hhead
    obtain rfl : brace = '\x7b' := by simpa using hbrace
    exact ⟨by simpa [isSign] using hsign, more, rfl⟩

/-- The literal text of a written form, from its first character on. -/
theorem readLiteral?_cons (c : Char) (rest : List Char) :
    readLiteral? (c :: rest) =
      if atDoubledMarker (c :: rest) then (readLiteral? (rest.drop 2)).map ([c, '\x7b'] ++ ·)
      else if atMarker (c :: rest) then none
      else (readLiteral? rest).map ([c] ++ ·) := by
  by_cases hdoubled : atDoubledMarker (c :: rest) = true
  · obtain ⟨rfl | rfl, more, rfl⟩ := exists_of_atDoubledMarker hdoubled <;> rfl
  · rw [if_neg hdoubled, readLiteral?]
    · rfl
    · rintro more rfl rfl
      exact hdoubled rfl
    · rintro more rfl rfl
      exact hdoubled rfl

namespace Reader

variable {α : Type} {expression : Reader Value} {inner : Reader Unit} {start last : Cursor}
  {form : Form}

/-! ### Looking ahead -/

/-- Nothing is taken by looking ahead. -/
theorem eq_of_peek {reader : Reader α} {value : α} (h : peek reader start = .ok (value, last)) :
    last = start := by
  obtain ⟨_, _, hget, hread⟩ := run_bind_eq_ok.mp h
  cases hget
  obtain ⟨_, _, -, hset⟩ := run_bind_eq_ok.mp hread
  obtain ⟨_, _, hstart, hpure⟩ := run_bind_eq_ok.mp hset
  cases hstart
  cases hpure
  rfl

theorem eq_of_atTag {word : String} {found : Bool} (h : atTag word start = .ok (found, last)) :
    last = start := by
  obtain ⟨starts, _, hstarts, hpeek⟩ := run_bind_eq_ok.mp h
  cases hstarts
  split at hpeek
  · exact eq_of_peek hpeek
  · cases hpeek
    rfl

theorem map_some_ne_none (reader : Reader α) (start last : Cursor) :
    (some <$> reader) start ≠ .ok (none, last) := by
  rw [run_map]
  cases reader start <;> simp

/-- Nothing is taken where no part follows that must be computed. -/
theorem eq_of_computed (h : computed expression inner start = .ok (none, last)) : last = start := by
  obtain ⟨dollar, _, hdollar, hrest⟩ := run_bind_eq_ok.mp h
  cases hdollar
  split at hrest
  · exact absurd hrest (map_some_ne_none _ _ _)
  · obtain ⟨choosing, _, hchoosing, hrest⟩ := run_bind_eq_ok.mp hrest
    cases eq_of_atTag hchoosing
    split at hrest
    · exact absurd hrest (map_some_ne_none _ _ _)
    · obtain ⟨repeating, _, hrepeating, hrest⟩ := run_bind_eq_ok.mp hrest
      cases eq_of_atTag hrepeating
      split at hrest
      · exact absurd hrest (map_some_ne_none _ _ _)
      · cases hrest
        rfl

/-- What is captured is taken with nothing written before it. -/
theorem exists_of_captured {reader : Reader α} {value : α}
    (h : captured reader start = .ok ((value, form), last)) :
    ∃ after, reader ⟨start.rest, []⟩ = .ok (value, after) ∧ last.rest = after.rest := by
  obtain ⟨_, _, hget, hset⟩ := run_bind_eq_ok.mp h
  cases hget
  obtain ⟨_, _, hclear, hread⟩ := run_bind_eq_ok.mp hset
  cases hclear
  obtain ⟨taken, after, htaken, hget⟩ := run_bind_eq_ok.mp hread
  obtain ⟨_, _, hafter, hset⟩ := run_bind_eq_ok.mp hget
  cases hafter
  obtain ⟨_, _, hrestore, hpure⟩ := run_bind_eq_ok.mp hset
  cases hrestore
  cases hpure
  exact ⟨after, htaken, rfl⟩

theorem computedPart_cases {found : Option Part}
    (h : computedPart expression start = .ok (found, last)) :
    found = none ∧ last.rest = start.rest ∨ ∃ form, found = some (.computed form) := by
  obtain ⟨_, _, hahead, hread⟩ := run_bind_eq_ok.mp h
  cases hahead
  obtain ⟨⟨part, form⟩, _, hcaptured, hreturn⟩ := run_bind_eq_ok.mp hread
  cases hreturn
  obtain ⟨after, hcomputed, hlast⟩ := exists_of_captured hcaptured
  cases part with
  | some _ => exact Or.inr ⟨form, rfl⟩
  | none =>
    cases eq_of_computed hcomputed
    exact Or.inl ⟨rfl, hlast⟩

/-! ### One part -/

/-- A literal part is taken together with the sign that doubles a marker. -/
theorem run_literalPart_cons (c : Char) (rest : List Char) (form : Form) :
    literalPart ⟨c :: rest, form⟩ =
      if atDoubledMarker (c :: rest) then
        .ok (some (.literal [c, '\x7b']), ⟨rest.drop 2, .plain ((c :: rest).take 3) :: form⟩)
      else if atMarker (c :: rest) then .ok (none, ⟨c :: rest, form⟩)
      else .ok (some (.literal [c]), ⟨rest, .plain [c] :: form⟩) := by
  rw [literalPart, run_bind, run_ahead]
  dsimp only
  split_ifs <;> rfl

/-- What begins with a marker must be computed, and nothing else must. -/
theorem run_templatePart_cons (expression : Reader Value) (c : Char) (rest : List Char)
    (form : Form) :
    templatePart expression ⟨c :: rest, form⟩ =
      if atDoubledMarker (c :: rest) then
        .ok (some (.literal [c, '\x7b']), ⟨rest.drop 2, .plain ((c :: rest).take 3) :: form⟩)
      else if atMarker (c :: rest) then computedPart expression ⟨c :: rest, form⟩
      else .ok (some (.literal [c]), ⟨rest, .plain [c] :: form⟩) := by
  rw [templatePart, run_bind, run_literalPart_cons]
  split_ifs <;> rfl

/-! ### All parts -/

theorem collectAtMost_of_some {step : Reader (Option α)} {value : α} {values : List α}
    {after : Cursor} {count : Nat} (hstep : step start = .ok (some value, after))
    (hrest : collectAtMost step count after = .ok (values, last)) :
    collectAtMost step (count + 1) start = .ok (value :: values, last) :=
  run_bind_eq_ok.mpr ⟨some value, after, hstep, run_bind_eq_ok.mpr ⟨values, last, hrest, rfl⟩⟩

/-- If the parts of a template are taken to its end, its literal text is theirs. -/
theorem readLiteral?_of_collectAtMost {count : Nat} {after : Form}
    (h : collectAtMost (templatePart expression) count ⟨cs, form⟩ = .ok (parts, ⟨[], after⟩)) :
    readLiteral? cs = Part.literalText? parts := by
  induction count generalizing cs form parts with
  | zero => cases h
  | succ count ih =>
    obtain ⟨found, next, hfound, hrest⟩ := run_bind_eq_ok.mp h
    cases cs with
    | nil =>
      cases hfound
      cases hrest
      rfl
    | cons c rest =>
      rw [run_templatePart_cons] at hfound
      rw [readLiteral?_cons]
      split_ifs at hfound ⊢ with hdoubled hmarker
      · cases hfound
        obtain ⟨others, _, hothers, hparts⟩ := run_bind_eq_ok.mp hrest
        cases hparts
        rw [ih hothers, Part.literalText?_cons_literal]
      -- At a marker a part must be computed, or the template goes on where none can be read.
      · rcases computedPart_cases hfound with ⟨rfl, hnext⟩ | ⟨form, rfl⟩
        · cases hrest
          cases hnext
        · obtain ⟨others, _, -, hparts⟩ := run_bind_eq_ok.mp hrest
          cases hparts
          rfl
      · cases hfound
        obtain ⟨others, _, hothers, hparts⟩ := run_bind_eq_ok.mp hrest
        cases hparts
        rw [ih hothers, Part.literalText?_cons_literal]

/-- A template with a literal text has parts that are taken to its end. -/
theorem exists_collectAtMost_of_readLiteral? {count : Nat} (hcount : cs.length < count)
    (h : readLiteral? cs = some chars) (expression : Reader Value) (form : Form) :
    ∃ parts after, collectAtMost (templatePart expression) count ⟨cs, form⟩ =
      .ok (parts, ⟨[], after⟩) := by
  induction count generalizing cs chars form with
  | zero => cases hcount
  | succ count ih =>
    cases cs with
    | nil => exact ⟨[], form, rfl⟩
    | cons c rest =>
      have hlength : rest.length < count := by simpa using hcount
      have hstep := run_templatePart_cons expression c rest form
      rw [readLiteral?_cons] at h
      split_ifs at h hstep with hdoubled hmarker
      · obtain ⟨others, hothers, -⟩ := Option.map_eq_some_iff.mp h
        have hdrop : (rest.drop 2).length < count := by
          rw [List.length_drop]
          omega
        obtain ⟨parts, after, hparts⟩ := ih hdrop hothers _
        exact ⟨_, after, collectAtMost_of_some hstep hparts⟩
      · obtain ⟨others, hothers, -⟩ := Option.map_eq_some_iff.mp h
        obtain ⟨parts, after, hparts⟩ := ih hlength hothers _
        exact ⟨_, after, collectAtMost_of_some hstep hparts⟩

theorem readAll_eq_some_iff {reader : Reader α} {value : α} :
    readAll reader cs = some value ↔ ∃ form, reader ⟨cs, []⟩ = .ok (value, ⟨[], form⟩) := by
  rw [readAll]
  constructor
  · intro h
    split at h
    · next form hread =>
      cases h
      exact ⟨form, hread⟩
    · cases h
  · rintro ⟨form, hread⟩
    rw [hread]

end Reader

/-! ### Templates -/

/-- **The literal text of a template.** It is that of the parts of the template, if the template
decomposes into parts and all of them are literal. -/
theorem readLiteral?_eq (written : List Char) :
    readLiteral? written = (partsOf? written).bind Part.literalText? := by
  cases hparts : partsOf? written with
  | some parts =>
    obtain ⟨form, hcollect⟩ := Reader.readAll_eq_some_iff.mp hparts
    exact Reader.readLiteral?_of_collectAtMost hcollect
  | none =>
    by_contra hne
    obtain ⟨chars, hchars⟩ := Option.ne_none_iff_exists'.mp hne
    obtain ⟨parts, form, hcollect⟩ := Reader.exists_collectAtMost_of_readLiteral?
      (Nat.lt_succ_self _) hchars (Reader.expression false) []
    have hsome : partsOf? written = some parts :=
      Reader.readAll_eq_some_iff.mpr ⟨form, hcollect⟩
    rw [hparts] at hsome
    cases hsome

/-- A template has a literal text if it decomposes into literal parts. -/
theorem readLiteral?_eq_some_iff :
    readLiteral? cs = some chars ↔
      ∃ pieces : List (List Char), partsOf? cs = some (pieces.map .literal) ∧
        pieces.flatten = chars := by
  rw [readLiteral?_eq, Option.bind_eq_some_iff]
  constructor
  · rintro ⟨parts, hparts, htext⟩
    obtain ⟨pieces, rfl, hpieces⟩ := Part.literalText?_eq_some_iff.mp htext
    exact ⟨pieces, hparts, hpieces⟩
  · rintro ⟨pieces, hparts, hpieces⟩
    exact ⟨_, hparts, Part.literalText?_eq_some_iff.mpr ⟨pieces, rfl, hpieces⟩⟩

/-- A template has no literal text if it does not decompose, or if one of its parts must be
computed. -/
theorem readLiteral?_eq_none_iff :
    readLiteral? cs = none ↔
      partsOf? cs = none ∨ ∃ parts form, partsOf? cs = some parts ∧ Part.computed form ∈ parts := by
  rw [readLiteral?_eq]
  cases partsOf? cs with
  | none => simp
  | some parts => simp [Part.literalText?_eq_none_iff]

end Interpolation.Hcl
