import Interpolation.Proofs.Document.RoundTrip

/-!
# Ways to write a document

A document can be written in many ways that say the same. Between the parts of a line any blanks
may stand, also carriage returns and blanks beyond ASCII; the word `export` may introduce an
assignment; a value may stand between quotes, and then it may be anything that fits on a line; and a
line may end in a line feed, with or without a carriage return before it, or in nothing if it is the
last. A layout holds all these choices. Reading finds the assignments of a layout whatever the
choices are. There is one way to write an assignment that cannot be read: if the key itself is
`export` and a space stands behind it, then it is taken for the word that introduces an assignment,
and no key is left.

## Main definitions

* `Dotenv.Gap`, `Dotenv.Spelling`, `Dotenv.Assignment`, `Dotenv.Statement` — the parts of a line,
  each with its text.
* `Dotenv.Statement.losesKey` — the key is taken for an introduction.
* `Dotenv.Layout` — lines and their ends.

## Main results

* `Dotenv.Statement.read_text` — what the text of a line says.
* `Dotenv.Layout.said_text` — what the lines of a layout say.
* `Dotenv.read_layout` — what a layout is read as.
-/

namespace Interpolation.Dotenv

open Document Text

/-! ### The parts of a line -/

/-- Blanks that stay on their line. -/
structure Gap where
  /-- The blanks, of any kind but line feeds. -/
  blanks : List Char
  /-- They are blanks. -/
  all_isBlank : blanks.all isBlank = true
  /-- The line goes on behind them. -/
  newline_notMem : '\n' ∉ blanks

/-- A way to write a value: as it is, if nothing of it would be lost, or between two quotes of the
same kind, if it fits on a line. -/
inductive Spelling where
  | bare (value : String) (verbatim : Verbatim value)
  | quoted (quote : Char) (isQuote : quote = '"' ∨ quote = '\'') (value : String)
      (newline_notMem : '\n' ∉ value.toList)

/-- The value that is written. -/
def Spelling.value : Spelling → String
  | bare value _ => value
  | quoted _ _ value _ => value

/-- The text that stands for the value. -/
def Spelling.text : Spelling → List Char
  | bare value _ => value.toList
  | quoted quote _ value _ => quote :: (value.toList ++ [quote])

/-- A way to write an assignment. -/
structure Assignment where
  /-- The blanks before everything. -/
  lead : Gap
  /-- The blanks behind the word `export` and a space, if these introduce the assignment. -/
  introduced : Option Gap
  /-- The key. -/
  key : String
  /-- The key is a word that is not empty. -/
  isKey : isKey key.toList = true
  /-- The blanks between the key and the equals sign. -/
  beforeSign : Gap
  /-- The blanks between the equals sign and the value. -/
  afterSign : Gap
  /-- The value. -/
  spelling : Spelling
  /-- The blanks behind everything. -/
  trail : Gap

namespace Assignment

/-- What stands before the key, apart from blanks. -/
def introduction (a : Assignment) : List Char :=
  a.introduced.elim [] fun gap => "export ".toList ++ gap.blanks

/-- The key and the blanks behind it. -/
def left (a : Assignment) : List Char := a.key.toList ++ a.beforeSign.blanks

/-- What stands behind the equals sign. -/
def right (a : Assignment) : List Char :=
  a.afterSign.blanks ++ a.spelling.text ++ a.trail.blanks

/-- The text of the line. -/
def text (a : Assignment) : List Char :=
  a.lead.blanks ++ (a.introduction ++ a.left ++ '=' :: a.right)

/-- The key is taken for the word that introduces an assignment. -/
def losesKey (a : Assignment) : Bool :=
  a.introduced.isNone && a.key == "export" && a.beforeSign.blanks.head? == some ' '

end Assignment

/-- A way to write a line that is not malformed. -/
inductive Statement where
  | blank (gap : Gap)
  | comment (gap : Gap) (remark : List Char) (newline_notMem : '\n' ∉ remark)
  | assignment (a : Assignment)

namespace Statement

/-- The text of the line. -/
def text : Statement → List Char
  | blank gap => gap.blanks
  | comment gap remark _ => gap.blanks ++ '#' :: remark
  | assignment a => a.text

/-- What is assigned, if anything is. -/
def entry? : Statement → Option (String × String)
  | blank _ => none
  | comment _ _ _ => none
  | assignment a => some (a.key, a.spelling.value)

/-- The line is an assignment whose key is taken for an introduction. -/
def losesKey : Statement → Bool
  | blank _ => false
  | comment _ _ _ => false
  | assignment a => a.losesKey

/-- What the line says. -/
def said : Statement → Line
  | blank _ => .silent
  | comment _ _ _ => .silent
  | assignment a => if a.losesKey then .malformed else .assignment a.key a.spelling.value

end Statement

/-! ### Gaps and values -/

theorem Gap.isBlank (gap : Gap) : ∀ c ∈ gap.blanks, isBlank c = true :=
  List.all_eq_true.mp gap.all_isBlank

theorem Gap.equals_notMem (gap : Gap) : '=' ∉ gap.blanks := fun hmem =>
  absurd (gap.isBlank _ hmem) (by decide)

theorem Gap.head?_not_word (gap : Gap) (rest : List Char) (c : Char)
    (h : (gap.blanks ++ '=' :: rest).head? = some c) : isWordChar c = false := by
  cases hblanks : gap.blanks with
  | nil =>
    rw [hblanks] at h
    obtain rfl := Option.some.inj h
    exact equals_not_word
  | cons d others =>
    rw [hblanks] at h
    obtain rfl := Option.some.inj h
    have hblank : Text.isBlank d = true := gap.isBlank d (hblanks ▸ List.mem_cons_self)
    refine Bool.eq_false_iff.mpr fun hword => ?_
    rw [isBlank_eq_false_of_isWordChar hword] at hblank
    cases hblank

/-- Quotes that enclose a text are taken off, and no others. -/
theorem unquote_quoted {quote : Char} (hquote : quote = '"' ∨ quote = '\'') (inner : List Char) :
    unquote (quote :: (inner ++ [quote])) = inner := by
  rcases unquote_cases (quote :: (inner ++ [quote])) with ⟨other, -, h⟩ | ⟨hnot, -⟩
  · obtain ⟨rfl, htail⟩ := List.cons.inj h
    exact (List.append_cancel_right htail).symm
  · exact absurd ⟨quote, inner, hquote, rfl⟩ hnot

theorem Spelling.trim_text (spelling : Spelling) : trim spelling.text = spelling.text := by
  cases spelling with
  | bare value verbatim =>
    exact trim_eq_self_iff.mpr ⟨verbatim.head_not_blank, verbatim.last_not_blank⟩
  | quoted quote isQuote value _ =>
    have hquote : Text.isBlank quote = false := by
      rcases isQuote with rfl | rfl <;> decide
    refine trim_eq_self_iff.mpr ⟨fun c h => ?_, fun c h => ?_⟩
    · exact Option.some.inj h ▸ hquote
    · rw [Spelling.text, ← List.cons_append, List.getLast?_concat] at h
      exact Option.some.inj h ▸ hquote

theorem Spelling.unquote_text (spelling : Spelling) :
    unquote spelling.text = spelling.value.toList := by
  cases spelling with
  | bare value verbatim => exact unquote_eq_self_iff.mpr verbatim.not_enclosed
  | quoted quote isQuote value _ => exact unquote_quoted isQuote value.toList

/-! ### What a line says -/

namespace Assignment

theorem trim_left (a : Assignment) : trim a.left = a.key.toList := by
  rw [left, trim_append_right a.beforeSign.isBlank, trim_of_isKey a.isKey]

theorem equals_notMem_left (a : Assignment) : '=' ∉ a.left := by
  rw [left, List.mem_append, not_or]
  exact ⟨equals_notMem_of_isKey a.isKey, a.beforeSign.equals_notMem⟩

theorem trim_right (a : Assignment) : trim a.right = a.spelling.text := by
  rw [right, trim_append_right a.trail.isBlank, trim_append_left a.afterSign.isBlank,
    a.spelling.trim_text]

/-- The value is found where nothing but the key is left before the equals sign. -/
theorem readAssignment_right (a : Assignment) {front : List Char} (hfront : '=' ∉ front)
    (htrim : trim front = a.key.toList) :
    Line.readAssignment (front ++ '=' :: trimEnd a.right) =
      .assignment a.key a.spelling.value := by
  rw [readAssignment_append hfront, htrim, if_pos a.isKey, trim_trimEnd, trim_right,
    a.spelling.unquote_text, String.ofList_toList, String.ofList_toList]

/-- The key is taken for an introduction if it is `export` with a space behind it. -/
theorem isPrefixOf_left_iff (a : Assignment) (rest : List Char) :
    "export ".toList.isPrefixOf (a.left ++ '=' :: rest) = true ↔
      a.key = "export" ∧ a.beforeSign.blanks.head? = some ' ' := by
  rw [left, List.append_assoc,
    isPrefixOf_export_iff a.isKey (a.beforeSign.head?_not_word rest), String.toList_inj]
  refine and_congr_right fun _ => ?_
  cases a.beforeSign.blanks with
  | nil => exact iff_of_false (by rintro ⟨⟩) (by rintro ⟨⟩)
  | cons d others => exact Iff.rfl

theorem losesKey_eq_true_iff {a : Assignment} :
    a.losesKey = true ↔
      a.introduced = none ∧ a.key = "export" ∧ a.beforeSign.blanks.head? = some ' ' := by
  simp [losesKey, and_assoc]

/-- Behind an introduction the key is found, whatever it is. -/
theorem read_of_introduced (a : Assignment) {gap : Gap} (h : a.introduced = some gap) :
    Line.read (a.introduction ++ a.left ++ '=' :: a.right) =
      .assignment a.key a.spelling.value := by
  have hfront : a.introduction ++ a.left = "export ".toList ++ (gap.blanks ++ a.left) := by
    rw [introduction, h, Option.elim_some, List.append_assoc]
  have hexport : "export ".toList = 'e' :: "xport ".toList := by decide
  rw [hfront, hexport, List.cons_append, read_of_head (by decide) (by decide), ← List.cons_append,
    ← hexport, List.append_assoc, afterExport_export]
  refine a.readAssignment_right ?_ ?_
  · rw [List.mem_append, not_or]
    exact ⟨gap.equals_notMem, a.equals_notMem_left⟩
  · rw [trim_append_left gap.isBlank, trim_left]

/-- Without an introduction the key is found unless it is taken for one. -/
theorem read_of_not_introduced (a : Assignment) (h : a.introduced = none) :
    Line.read (a.left ++ '=' :: a.right) =
      if a.losesKey then .malformed else .assignment a.key a.spelling.value := by
  have hread : Line.read (a.left ++ '=' :: a.right) =
      .readAssignment (afterExport (a.left ++ '=' :: trimEnd a.right)) := by
    obtain ⟨c, rest, hkey, hblank, hcomment⟩ := exists_head_of_isKey a.isKey
    rw [left, hkey, List.cons_append]
    exact read_of_head hblank hcomment _ _
  rw [hread]
  by_cases hloses : a.losesKey = true
  · rw [if_pos hloses]
    -- What is taken for an introduction ends behind the space, and only blanks are left of it.
    obtain ⟨-, hkey, hspace⟩ := losesKey_eq_true_iff.mp hloses
    obtain ⟨others, hothers⟩ := List.head?_eq_some_iff.mp hspace
    have hleft : a.left = "export ".toList ++ others := by
      rw [left, hkey, hothers]
      rfl
    have hblanks : ∀ c ∈ others, Text.isBlank c = true := fun c hmem =>
      a.beforeSign.isBlank c (hothers ▸ List.mem_cons_of_mem _ hmem)
    have hequals : '=' ∉ others := fun hmem => absurd (hblanks _ hmem) (by decide)
    rw [hleft, List.append_assoc, afterExport_export, readAssignment_append hequals,
      trim_eq_nil hblanks]
    rfl
  · rw [if_neg hloses, afterExport, if_neg]
    · exact a.readAssignment_right a.equals_notMem_left a.trim_left
    · rw [isPrefixOf_left_iff]
      exact fun hprefix => hloses (losesKey_eq_true_iff.mpr ⟨h, hprefix⟩)

theorem read_text (a : Assignment) :
    Line.read a.text = if a.losesKey then .malformed else .assignment a.key a.spelling.value := by
  rw [text, read_congr (trim_append_left a.lead.isBlank _)]
  cases h : a.introduced with
  | some gap =>
    have hloses : ¬ a.losesKey = true := fun hloses => by
      rw [(losesKey_eq_true_iff.mp hloses).1] at h
      cases h
    rw [a.read_of_introduced h, if_neg hloses]
  | none =>
    rw [introduction, h, Option.elim_none, List.nil_append]
    exact a.read_of_not_introduced h

end Assignment

namespace Statement

/-- What the text of a line says. -/
theorem read_text (s : Statement) : Line.read s.text = s.said := by
  cases s with
  | blank gap =>
    rw [text, Line.read, trim_eq_nil gap.isBlank]
    rfl
  | comment gap remark _ =>
    have htrim : trim ('#' :: remark) = '#' :: trimEnd remark := by
      rw [trim, trimStart_cons_of_not_blank (by decide)]
      exact trimEnd_append_cons (by decide) [] remark
    rw [text, read_congr (trim_append_left gap.isBlank _), Line.read, htrim]
    rfl
  | assignment a => exact a.read_text

theorem isMalformed_said (s : Statement) : s.said.isMalformed = s.losesKey := by
  cases s with
  | blank gap => rfl
  | comment gap remark _ => rfl
  | assignment a =>
    rw [said, losesKey]
    cases a.losesKey <;> rfl

theorem said_of_losesKey {s : Statement} (h : s.losesKey = true) : s.said = .malformed := by
  cases s with
  | blank gap => cases h
  | comment gap remark _ => cases h
  | assignment a => exact if_pos h

theorem entry?_said {s : Statement} (h : s.losesKey = false) : s.said.entry? = s.entry? := by
  cases s with
  | blank gap => rfl
  | comment gap remark _ => rfl
  | assignment a =>
    have hnot : ¬ a.losesKey = true := Bool.eq_false_iff.mp h
    rw [said, if_neg hnot]
    rfl

end Statement

/-! ### Lines and their ends -/

/-- A way to end a line. -/
inductive Ending where
  | lineFeed
  | carriageReturn
  deriving DecidableEq

/-- What stands before the line feed. -/
def Ending.returns : Ending → List Char
  | lineFeed => []
  | carriageReturn => ['\r']

/-- A document as it is written: lines with their ends, and maybe a last line without an end. -/
structure Layout where
  /-- The lines that have an end. -/
  lines : List (Statement × Ending)
  /-- The line that has none. -/
  last : Option Statement

namespace Layout

/-- The text of a line and of its end. -/
def lineText (line : Statement × Ending) : List Char := line.1.text ++ line.2.returns

/-- The text of the document. -/
def text (d : Layout) : String :=
  String.ofList
    ((d.lines.flatMap fun line => lineText line ++ ['\n']) ++ d.last.elim [] Statement.text)

/-- All lines, with or without an end. -/
def statements (d : Layout) : List Statement := d.lines.map Prod.fst ++ d.last.toList

end Layout

theorem Spelling.newline_notMem_text (spelling : Spelling) : '\n' ∉ spelling.text := by
  cases spelling with
  | bare value verbatim => exact verbatim.newline_notMem
  | quoted quote isQuote value newline_notMem =>
    have hquote : '\n' ≠ quote := by rcases isQuote with rfl | rfl <;> decide
    simp [Spelling.text, newline_notMem, hquote]

theorem Assignment.newline_notMem_text (a : Assignment) : '\n' ∉ a.text := by
  have hkey : '\n' ∉ a.key.toList := fun hmem =>
    absurd ((isKey_iff.mp a.isKey).2 _ hmem) (by decide)
  have hintroduction : '\n' ∉ a.introduction := by
    rw [introduction]
    cases a.introduced with
    | none => exact List.not_mem_nil
    | some gap => simp [gap.newline_notMem]
  simp [text, left, right, hkey, hintroduction, a.lead.newline_notMem, a.beforeSign.newline_notMem,
    a.afterSign.newline_notMem, a.trail.newline_notMem, a.spelling.newline_notMem_text]

theorem Statement.newline_notMem_text (s : Statement) : '\n' ∉ s.text := by
  cases s with
  | blank gap => exact gap.newline_notMem
  | comment gap remark newline_notMem => simp [text, gap.newline_notMem, newline_notMem]
  | assignment a => exact a.newline_notMem_text

namespace Layout

theorem newline_notMem_lineText (line : Statement × Ending) : '\n' ∉ lineText line := by
  have hreturns : '\n' ∉ line.2.returns := by cases line.2 <;> decide
  simp [lineText, line.1.newline_notMem_text, hreturns]

theorem read_lineText (line : Statement × Ending) : Line.read (lineText line) = line.1.said := by
  rw [lineText]
  cases line.2 with
  | lineFeed => rw [Ending.returns, List.append_nil, line.1.read_text]
  | carriageReturn => rw [Ending.returns, read_append_return, line.1.read_text]

/-- What is behind the last line feed says nothing if there is no last line. -/
def rest (d : Layout) : List Line := d.last.elim [.silent] fun _ => []

/-- Each line of a layout is a line of its text and says what the layout says. -/
theorem said_text (d : Layout) :
    said d.text.toList = d.statements.map Statement.said ++ d.rest := by
  have hlines : ∀ line ∈ d.lines.map lineText, '\n' ∉ line := by
    intro line hmem
    obtain ⟨ended, -, rfl⟩ := List.mem_map.mp hmem
    exact newline_notMem_lineText ended
  have hlast : '\n' ∉ d.last.elim [] Statement.text := by
    cases d.last with
    | none => exact List.not_mem_nil
    | some s => exact s.newline_notMem_text
  have hread : d.lines.map (Line.read ∘ lineText) = (d.lines.map Prod.fst).map Statement.said := by
    rw [List.map_map]
    exact List.map_congr_left fun line _ => read_lineText line
  have hrest : [Line.read (d.last.elim [] Statement.text)] =
      d.last.toList.map Statement.said ++ d.rest := by
    rw [rest]
    cases d.last with
    | none => rfl
    | some s => exact congrArg (fun line => [line]) s.read_text
  rw [said, text, String.toList_ofList, ← List.flatMap_map (f := lineText) (g := (· ++ ['\n'])),
    splitOn_flatMap_append hlines hlast, List.map_append, List.map_map, hread, List.map_singleton,
    hrest, statements, List.map_append, List.append_assoc]

theorem isMalformed_rest (d : Layout) : ∀ line ∈ d.rest, line.isMalformed = false := by
  rw [rest]
  cases d.last with
  | none => simp [Line.isMalformed]
  | some s => simp

theorem filterMap_rest (d : Layout) : d.rest.filterMap Line.entry? = [] := by
  rw [rest]
  cases d.last <;> rfl

end Layout

/-! ### Reading a layout -/

theorem isMalformed_of_losesKey {statements : List Statement}
    (h : ∀ s ∈ statements, s.losesKey = false) :
    ∀ line ∈ statements.map Statement.said, line.isMalformed = false := by
  intro line hmem
  obtain ⟨s, hs, rfl⟩ := List.mem_map.mp hmem
  rw [s.isMalformed_said, h s hs]

/-- **Documents in all their forms.** Take any lines, each of them blank, a comment or an
assignment, with any blanks between their parts, any values in quotes and others as they are, and
any ends. If no key is taken for an introduction, the document is read as the assignments of its
lines, inserted in order. Otherwise it is refused for the first line whose key is. -/
theorem read_layout (d : Layout) :
    ((∀ s ∈ d.statements, s.losesKey = false) →
      read d.text = .ok (.ofList (d.statements.filterMap Statement.entry?))) ∧
    ∀ before s after, d.statements = before ++ s :: after →
      (∀ other ∈ before, other.losesKey = false) → s.losesKey = true →
        read d.text = .error (.malformedLine (1 + before.length)) := by
  constructor
  · intro h
    have hnone : ∀ line ∈ said d.text.toList, line.isMalformed = false := by
      rw [d.said_text, List.forall_mem_append]
      exact ⟨isMalformed_of_losesKey h, d.isMalformed_rest⟩
    have hentries : (said d.text.toList).filterMap Line.entry? =
        d.statements.filterMap Statement.entry? := by
      rw [d.said_text, List.filterMap_append, d.filterMap_rest, List.append_nil,
        List.filterMap_map]
      exact List.filterMap_congr fun s hs => Statement.entry?_said (h s hs)
    rw [read_eq_outcome, Line.outcome_of_forall hnone, hentries]
    rfl
  · intro before s after hsplit hbefore hs
    have hsaid : said d.text.toList =
        before.map Statement.said ++ .malformed :: (after.map Statement.said ++ d.rest) := by
      rw [d.said_text, hsplit, List.map_append, List.map_cons, Statement.said_of_losesKey hs,
        List.append_assoc, List.cons_append]
    rw [read_eq_outcome, hsaid, Line.outcome_of_first (isMalformed_of_losesKey hbefore),
      List.length_map]

/-- Two assignments to the key `export` that are read, with blanks beyond ASCII and a value that
holds quotes, and one that is refused, each among other lines. -/
theorem read_layout_export :
    let none : Gap := ⟨[], by decide, by decide⟩
    let space : Gap := ⟨[' '], by decide, by decide⟩
    let tab : Gap := ⟨['\t'], by decide, by decide⟩
    let wide : Gap := ⟨['\u3000', '\r'], by decide, by decide⟩
    let quoted : Assignment :=
      ⟨wide, some tab, "export", by decide, space, space,
        .quoted '"' (Or.inl rfl) " \"a\"=# " (by decide), wide⟩
    let bare : Assignment :=
      ⟨none, Option.none, "export", by decide, tab, none, .bare "'" (by decide), none⟩
    let lost : Assignment := { bare with beforeSign := space }
    let d : Layout :=
      ⟨[(.comment tab "A=1".toList (by decide), .carriageReturn), (.assignment quoted, .lineFeed),
        (.blank wide, .carriageReturn)], some (.assignment bare)⟩
    let e : Layout :=
      ⟨[(.assignment quoted, .carriageReturn), (.blank wide, .lineFeed),
        (.assignment lost, .lineFeed), (.assignment lost, .lineFeed)], Option.none⟩
    d.text = "\t#A=1\r\n\u3000\rexport \texport = \" \"a\"=# \"\u3000\r\n\u3000\r\r\nexport\t='" ∧
      read d.text = .ok (.ofList [("export", " \"a\"=# "), ("export", "'")]) ∧
      read e.text = .error (.malformedLine 3) := by
  intro none space tab wide quoted bare lost d e
  have htext : d.text =
      "\t#A=1\r\n\u3000\rexport \texport = \" \"a\"=# \"\u3000\r\n\u3000\r\r\nexport\t='" := by
    decide
  refine ⟨htext, (read_layout d).1 ?_, ?_⟩
  · decide
  · exact (read_layout e).2 [.assignment quoted, .blank wide] (.assignment lost)
      [.assignment lost] rfl (by decide) (by decide)

end Interpolation.Dotenv
