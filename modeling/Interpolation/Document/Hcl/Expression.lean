import Interpolation.Document.Hcl.Lines
import Interpolation.Document.Hcl.Numeral
import Interpolation.Document.Hcl.Object

/-!
# Expressions

What may stand to the right of an equals sign. Only a single text, number or truth value has a
value of its own; every other expression must have the form of one, but is not computed, so
operators need no precedence here: an expression is a term followed by any number of operations.

Expressions hold expressions. Every reader of this module but the last takes the reader of nested
expressions as an argument, and `Reader.expression` closes the circle: a nested expression begins
after at least one character, so the nesting is not deeper than the text is long.

A line end before an operation, or after an operator, ends an expression, unless the expression
stands in parentheses or began with something in parentheses. Operands and branches take this over
from the expression that they belong to; what stands in other brackets does not. Right inside of
brackets, after the point of an access and before the arguments of a call lines may always end.

An expression is written as it stands in the text, but for some things that have no effect. Of signs
in a row only the last counts. Alone with what it belongs to it is all that is written of them. If
operations follow, the others are kept with the blanks between them, but without the first, and
count as a blank before the last. Accesses in a row have no blanks before them except for the first,
and an entry of an object gives way to a later one with its key.

## Main definitions

* `Reader.list`, `Reader.object`, `Reader.arguments`, `Reader.parenthesized` — what brackets hold.
* `Reader.term` — an expression without signs and operations.
* `Sign`, `Reader.writeSigns` — the signs before a term.
* `Reader.operation` — one operation after a term: accesses, an operator or a choice.
* `Reader.expression` — an expression.
-/

namespace Interpolation.Hcl.Reader

/-! ### Repetitions -/

/-- Whether a repetition follows: the word `for`, and a blank or the beginning of a comment. -/
def atRepetition : List Char → Bool
  | 'f' :: 'o' :: 'r' :: c :: _ => c == ' ' || c == '\t' || c == '#' || c == '/'
  | _ => false

/-- Whether a repetition follows after blanks. -/
def startsRepetition : Reader Bool := peek do
  skipBlank
  return atRepetition (← ahead)

/-- Take the head of a repetition in brackets, with the colon after it. -/
def repetitionIn (nested : Bool → Reader Value) : Reader Unit := do
  repetitionHead (nested false)
  must (expect ":")

/-- Take the condition of a repetition, if it has one. -/
def condition (nested : Bool → Reader Value) : Reader Unit := do
  let _ ← attempt do
    skipBlank
    expect "if"
    spaced (nested false)

/-- Take the repetition of an item. -/
def repeatedItem (nested : Bool → Reader Value) : Reader Unit := do
  repetitionIn nested
  spaced (nested false)
  condition nested

/-- Take the repetition of an entry. After the three points that gather the values of a key nothing
but a condition may follow. -/
def repeatedEntry (nested : Bool → Reader Value) : Reader Unit := do
  repetitionIn nested
  spaced (nested false)
  must (expect "=>")
  spaced (nested false)
  let _ ← accept "..."
  condition nested

/-! ### Brackets -/

/-- Take the three points of a spread, if they follow, and say whether they do. A spread counts as a
blank. -/
def acceptSpread : Reader Bool := acceptBlank fun
  | '.' :: '.' :: '.' :: _ => ['.', '.', '.']
  | _ => []

/-- Take expressions separated by commas up to a closing bracket, and the bracket. A comma may
stand after the last one, and where a spread is allowed three points may. -/
def items (nested : Bool → Reader Value) (closing : String) (spread : Bool) : Reader Unit := do
  let _ ← collect do
    if ← startsAfterBlank closing then return none
    else
      spaced (nested false)
      if ← accept "," then return some ()
      else
        if spread then
          let _ ← acceptSpread
        require (← startsAfterBlank closing)
        return none
  skipClosing
  expect closing

/-- Take a list: items, or the repetition of one. -/
def list (nested : Bool → Reader Value) : Reader Unit := do
  expect "["
  if ← startsRepetition then
    skipBlank
    repeatedItem nested
    must (expect "]")
  else must (items nested "]" false)

/-- Take the arguments of a call with their parentheses. -/
def arguments (nested : Bool → Reader Value) : Reader Unit := do
  expect "("
  must (items nested ")" true)

/-- Take an expression in parentheses. -/
def parenthesized (nested : Bool → Reader Value) : Reader Unit := do
  expect "("
  spaced (nested true)
  must (expect ")")

/-! ### Objects -/

/-- Take what stands between a key and its value: an equals sign or a colon. -/
def assignment : Reader Unit := do
  skipInline
  notAtEnd
  unless ← accept "=" do must (expect ":")
  skipInline

/-- Take the line end after an entry, which is written as a line feed. What only begins like one is
refused, and nothing else may stand here. -/
def entryLineEnd : Reader Unit := do
  if ← startsWith "\r" then unwritten newline else must (unwritten newline)
  write (.plain ['\n'])

/-- Take what separates two entries of an object: a comma or a line end, before which a comment
may stand. A closing brace may follow instead. -/
def entryEnd : Reader Unit := do
  skipInline
  let _ ← acceptBlank lineComment
  notAtEnd
  unless (← startsWith "\x7d") || (← accept ",") do entryLineEnd

/-- Take one entry of an object with the blanks before it: a key, what follows it, and a value, all
in one line. -/
def entry (nested : Bool → Reader Value) : Reader Entry := do
  let (_, key) ← captured do
    skipBlank
    let _ ← nested false
  let (_, rest) ← captured do
    assignment
    let _ ← nested false
    entryEnd
  return .of key rest

/-- Take entries up to a closing brace. -/
def entries (nested : Bool → Reader Value) : Reader Unit := do
  let all ← collect do
    if ← startsAfterBlank "\x7d" then return none else some <$> entry nested
  write (.object (Entry.ofList all))
  skipClosing

/-- Take an object: entries, or the repetition of one. -/
def object (nested : Bool → Reader Value) : Reader Unit := do
  expect "\x7b"
  if ← startsRepetition then
    skipBlank
    repeatedEntry nested
  else entries nested
  must (expect "\x7d")

/-! ### Terms -/

/-- Take a name and say what it stands for: a truth value, or what must be computed. A name with
arguments is a call, whatever the name. -/
def named (nested : Bool → Reader Value) : Reader Value := do
  let word ← name
  if ← startsAfterBlank "(" then
    skipBlank
    arguments nested
    return .computed
  else if word == "true" then return .truth true
  else if word == "false" then return .truth false
  else return .computed

/-- Take an expression without signs and operations. -/
def term (nested : Bool → Reader Value) : Reader Value := do
  match ← ahead with
  | [] => refuse
  | c :: _ =>
    match c with
    | '"' => quotedText (nested false)
    | '<' => textOnLines (nested false)
    | '[' => list nested; return .computed
    | '\x7b' => object nested; return .computed
    | '(' => parenthesized nested; return .computed
    | '-' => return .number (← negativeNumber)
    | _ =>
      if c.isDigit then return .number (← number)
      else if isNameStart c then named nested
      else must refuse

/-! ### Signs -/

/-- A sign before a term, with the blanks after it. -/
structure Sign where
  /-- The sign. -/
  char : Char
  /-- The blanks. -/
  gap : List Char

/-- What stands between the first of some signs and what they belong to. -/
def afterFirst : List Sign → List Char
  | [] => []
  | sign :: signs => sign.gap ++ signs.flatMap fun sign => sign.char :: sign.gap

/-- Take a sign, if one follows that does not belong to a number. -/
def sign : Reader (Option Sign) := do
  if (← startsWith "!") || ((← startsWith "-") && !(← atNegativeNumber)) then
    let c ← char
    let (_, gap) ← captured skipInline
    return some ⟨c, gap.written⟩
  else return none

/-- Write what counts of some signs: the last one, and the others as a blank before it if operations
follow. -/
def writeSigns (signs : List Sign) (operated : Bool) : Reader Unit := do
  if operated then write (.blank (afterFirst signs))
  if let some last := signs.getLast? then write (.plain [last.char])

/-! ### Operations -/

/-- Take a position: a zero, or digits that do not begin with one, of at most sixty-four bits. -/
def position : Reader Unit := do
  unless ← accept "0" do
    let digits ← takeSome Char.isDigit
    require (decide (Number.ofDigits digits < Nat.pow 2 64))

/-- Take what is accessed after a point: all elements, a name or a position. -/
def accessed : Reader Unit := do
  expect "."
  skipBlank
  match ← ahead with
  | [] => refuse
  | c :: _ =>
    if c.isDigit then position
    else if isNameStart c then
      let _ ← name
    else must (expect "*")

/-- Take what is accessed in brackets: all elements or an expression. -/
def indexed (nested : Bool → Reader Value) : Reader Unit := do
  expect "["
  skipBlank
  unless ← accept "*" do
    let _ ← nested false
  skipBlank
  must (expect "]")

/-- Whether an access follows that is not cut short by the end of the text. -/
def atAccess : List Char → Bool
  | c :: _ :: _ => c == '.' || c == '['
  | _ => false

/-- Take an access. -/
def access (nested : Bool → Reader Value) : Reader Unit := do
  if ← startsWith "." then accessed else indexed nested

/-- Take an access and the accesses that follow it. Blanks before these are not written. -/
def accesses (nested : Bool → Reader Value) (acrossLines : Bool) : Reader Unit := do
  access nested
  let _ ← collect do
    let start ← get
    unwritten (skipGap acrossLines)
    if atAccess (← ahead) then some <$> access nested
    else
      set start
      return none

/-- Take the two branches of a choice, each after its sign. -/
def branches (nested : Bool → Reader Value) (acrossLines : Bool) : Reader Unit := do
  expect "?"
  skipGap acrossLines
  let _ ← nested acrossLines
  skipGap acrossLines
  must (expect ":")
  skipGap acrossLines
  let _ ← nested acrossLines

/-- The operators between two operands, longer ones before those that they begin with. -/
def operators : List String :=
  ["==", "!=", "<=", ">=", "&&", "||", "<", ">", "+", "-", "*", "/", "%"]

/-- Take an operator and the operand after it. -/
def operator (nested : Bool → Reader Value) (acrossLines : Bool) : Reader Unit := do
  let text ← ahead
  match operators.find? fun sign => sign.toList.isPrefixOf text with
  | none => refuse
  | some sign =>
    skip sign.length
    skipGap acrossLines
    let _ ← nested acrossLines

/-- Whether an operator between two operands begins with two characters, as far as these tell. What
looks like one must be one. -/
def beginsOperator (first second : Char) : Bool :=
  first == '=' && second == '=' || "!<>&|+-*/%".toList.contains first

/-- Whether two characters begin a comment or the sign of a spread. -/
def beginsOther (first second : Char) : Bool :=
  first == '.' && second == '.' || first == '/' && (second == '/' || second == '*')

/-- Take one operation, if one follows that is not cut short by the end of the text: accesses one
after another, an operator with its operand, or a choice. Blanks before it are taken only with it.
Two points begin the sign of a spread, but not after an access, where a point must be another
access. -/
def operation (nested : Bool → Reader Value) (acrossLines : Bool) : Reader (Option Unit) := do
  let start ← get
  skipGap acrossLines
  let cs ← ahead
  match cs with
  | first :: second :: _ =>
    if beginsOther first second then
      set start
      return none
    else if atAccess cs then some <$> accesses nested acrossLines
    else if first == '?' then some <$> branches nested acrossLines
    else if beginsOperator first second then some <$> operator nested acrossLines
    else
      set start
      return none
  | _ =>
    set start
    return none

/-- Take a term with the signs before it and the operations after it. With either, the value must be
computed. After a term in parentheses, operations may stand across lines. -/
def operations (nested : Bool → Reader Value) (acrossLines : Bool) : Reader Value := do
  let signs ← unwritten (collect sign)
  let inParentheses ← startsWith "("
  let (value, first) ← captured (term nested)
  let (following, rest) ← captured (collect (operation nested (acrossLines || inParentheses)))
  writeSigns signs !following.isEmpty
  writeAll (first ++ rest)
  return if signs.isEmpty && following.isEmpty then value else .computed

/-! ### Expressions -/

/-- Take an expression that nests at most so deep. -/
def expressionAtMost : Nat → Bool → Reader Value
  | 0, _ => refuse
  | depth + 1, acrossLines => operations (expressionAtMost depth) acrossLines

/-- Take an expression. -/
def expression (acrossLines : Bool) : Reader Value := do
  expressionAtMost ((← ahead).length + 1) acrossLines

end Interpolation.Hcl.Reader
