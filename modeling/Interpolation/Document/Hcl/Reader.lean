import Interpolation.Document.Hcl.Token

/-!
# Readers

A reader takes a value from the start of a text, leaves the rest, and keeps the written form of what
it took. A reader writes down what it takes unless it says otherwise: what is spelled in several
ways is written in one of them, and what has no effect is left out.

A reader stops in one of two ways. If it refuses, what it was asked for is not there, and another
reader may be tried in its place. If it breaks off, something has begun that cannot be finished, and
the whole text is unreadable.

## Main definitions

* `Reader` — takes a value from the start of a text.
* `Reader.refuse`, `Reader.must`, `Reader.attempt` — the two ways to stop.
* `Reader.take`, `Reader.expect`, `Reader.takeWhile` — take characters.
* `Reader.ahead`, `Reader.startsWith`, `Reader.peek` — look ahead without taking anything.
* `Reader.captured`, `Reader.unwritten`, `Reader.write` — the written form.
* `Reader.collect` — repeats a step that says itself when to stop.

## Main results

* `Reader.run_bind`, `Reader.run_bind_eq_ok` — how readers are chained.
* `Reader.run_take`, `Reader.run_takeWhile` — what is taken.
-/

namespace Interpolation.Hcl

/-- Where a reader stands: what is left of the text, and the written form of what was taken, its
latest token first. -/
structure Cursor where
  /-- What is left of the text. -/
  rest : List Char
  /-- The tokens that were written, the latest first. -/
  form : Form

/-- Why a reader stops: what it was asked for is not there, or something has begun that cannot be
finished. -/
inductive Stop where
  | refused
  | broken
  deriving DecidableEq, Repr

/-- Takes a value from the start of a text and writes down what it takes, or stops. -/
abbrev Reader := StateT Cursor (Except Stop)

namespace Reader

variable {α : Type}

/-! ### Stops -/

/-- Refuse whatever follows. -/
def refuse : Reader α := fun _ => .error .refused

/-- Refuse unless a condition holds. -/
def require (condition : Bool) : Reader Unit := if condition then pure () else refuse

/-- Break off where a reader refuses. -/
def must (reader : Reader α) : Reader α := fun start =>
  match reader start with
  | .ok taken => .ok taken
  | .error _ => .error .broken

/-- What a reader takes, or nothing where it refuses. -/
def attempt (reader : Reader α) : Reader (Option α) := fun start =>
  match reader start with
  | .ok (value, cursor) => .ok (some value, cursor)
  | .error .refused => .ok (none, start)
  | .error .broken => .error .broken

/-! ### What follows -/

/-- What follows, without taking it. -/
def ahead : Reader (List Char) := return (← get).rest

/-- Whether a given text follows. -/
def startsWith (text : String) : Reader Bool := return text.toList.isPrefixOf (← ahead)

/-- Refuse at the end of the text. -/
def notAtEnd : Reader Unit := do require (!(← ahead).isEmpty)

/-- What a reader says about what follows. Nothing is taken. -/
def peek (reader : Reader α) : Reader α := do
  let start ← get
  let value ← reader
  set start
  return value

/-! ### The written form -/

/-- Write a token. -/
def write (token : Token) : Reader Unit :=
  modify fun cursor => { cursor with form := token :: cursor.form }

/-- Write a whole form. -/
def writeAll (form : Form) : Reader Unit :=
  modify fun cursor => { cursor with form := form.reverse ++ cursor.form }

/-- What a reader takes, with the form that it would write. -/
def captured (reader : Reader α) : Reader (α × Form) := do
  let start ← get
  set { start with form := [] }
  let value ← reader
  let cursor ← get
  set { cursor with form := start.form }
  return (value, cursor.form.reverse)

/-- Take something without writing it. -/
def unwritten (reader : Reader α) : Reader α := return (← captured reader).1

/-! ### Characters -/

/-- Take so many characters, or all that are left, and write them as a token. -/
def takeAs (token : List Char → Token) (count : Nat) : Reader (List Char) := fun cursor =>
  let chars := cursor.rest.take count
  .ok (chars, ⟨cursor.rest.drop count, token chars :: cursor.form⟩)

/-- Take so many characters, or all that are left. -/
def take (count : Nat) : Reader (List Char) := takeAs .plain count

/-- Take so many characters and forget them. -/
def skip (count : Nat) : Reader Unit := do
  let _ ← take count

/-- Take one character. -/
def char : Reader Char := do
  match ← ahead with
  | [] => refuse
  | c :: _ =>
    skip 1
    return c

/-- Take a given text. -/
def expect (text : String) : Reader Unit := do
  require (← startsWith text)
  skip text.length

/-- Take a given text if it follows, and say whether it did. -/
def accept (text : String) : Reader Bool := do
  let found ← startsWith text
  if found then skip text.length
  return found

/-- Take the longest run of characters of a class. -/
def takeWhile (p : Char → Bool) : Reader (List Char) := do
  take ((← ahead).takeWhile p).length

/-- Take the longest run of characters of a class, which must not be empty. -/
def takeSome (p : Char → Bool) : Reader (List Char) := do
  let run ← takeWhile p
  require (!run.isEmpty)
  return run

/-! ### Repetition -/

/-- Repeat a step until it gives nothing, at most so many times. -/
def collectAtMost (step : Reader (Option α)) : Nat → Reader (List α)
  | 0 => refuse
  | n + 1 => do
    match ← step with
    | none => return []
    | some value => return value :: (← collectAtMost step n)

/-- Repeat a step until it gives nothing. A step that gives something takes at least one
character, so the length of the text bounds the repetition. -/
def collect (step : Reader (Option α)) : Reader (List α) := do
  collectAtMost step ((← ahead).length + 1)

/-- Read a text to its end. -/
def readAll (reader : Reader α) (text : List Char) : Option α :=
  match reader ⟨text, []⟩ with
  | .ok (value, ⟨[], _⟩) => some value
  | _ => none

/-! ### Results -/

/-- Readers are chained: the second goes on where the first ends, unless the first stops. -/
@[simp] theorem run_bind {β : Type} (first : Reader α) (second : α → Reader β) (cursor : Cursor) :
    (first >>= second) cursor =
      match first cursor with
      | .ok (value, after) => second value after
      | .error stop => .error stop := by
  cases h : first cursor <;> simp [bind, StateT.bind, Except.bind, h]

/-- A chain of readers takes something when the first does and the second goes on from there. -/
theorem run_bind_eq_ok {β : Type} {first : Reader α} {second : α → Reader β} {start : Cursor}
    {taken : β × Cursor} : (first >>= second) start = .ok taken ↔
      ∃ value after, first start = .ok (value, after) ∧ second value after = .ok taken := by
  rw [run_bind]
  cases first start with
  | error stop => simp
  | ok found =>
    obtain ⟨value, after⟩ := found
    simp [and_assoc]

/-- What a reader takes is mapped where it does not stop. -/
@[simp] theorem run_map {β : Type} (f : α → β) (reader : Reader α) (cursor : Cursor) :
    (f <$> reader) cursor =
      match reader cursor with
      | .ok (value, after) => .ok (f value, after)
      | .error stop => .error stop := by
  cases h : reader cursor <;>
    simp [Functor.map, StateT.map, bind, Except.bind, h, pure, Except.pure]

@[simp] theorem run_require (condition : Bool) (cursor : Cursor) :
    require condition cursor = if condition then .ok ((), cursor) else .error .refused := by
  cases condition <;> rfl

@[simp] theorem run_ahead (cursor : Cursor) : ahead cursor = .ok (cursor.rest, cursor) := rfl

@[simp] theorem run_take (count : Nat) (rest : List Char) (form : Form) :
    take count ⟨rest, form⟩ =
      .ok (rest.take count, ⟨rest.drop count, .plain (rest.take count) :: form⟩) := rfl

@[simp] theorem run_takeWhile (p : Char → Bool) (rest : List Char) (form : Form) :
    takeWhile p ⟨rest, form⟩ =
      .ok (rest.takeWhile p, ⟨rest.dropWhile p, .plain (rest.takeWhile p) :: form⟩) := by
  have ht : rest.take (rest.takeWhile p).length = rest.takeWhile p :=
    (List.prefix_iff_eq_take.mp (List.takeWhile_prefix p)).symm
  have hd : rest.drop (rest.takeWhile p).length = rest.dropWhile p := by
    induction rest with
    | nil => rfl
    | cons c tail ih => by_cases hc : p c <;> simp_all
  change take (rest.takeWhile p).length ⟨rest, form⟩ = _
  rw [run_take, ht, hd]

end Reader

end Interpolation.Hcl
