import Interpolation.Document.Hcl.Expression

/-!
# Bodies

A body is a sequence of structures. A structure is an attribute, which sets a key to a value, or a
block, which has a name, labels and a body of its own. Each structure ends with its line. No two
attributes of one body share a key. A block that stands on one line holds at most one attribute.

Nothing is asked about a block but its name, so labels and body are checked and not kept.

## Main definitions

* `Structure` — an attribute with its value, or a block.
* `Reader.attribute`, `Reader.block`, `Reader.body` — readers of the same.
* `Body.parse?` — the structures of a whole text.
-/

namespace Interpolation.Hcl

/-- One structure of a body: a key that is set to a value, or a block, of which only the name
matters. -/
inductive Structure where
  | attribute (key : String) (value : Value)
  | block (name : String)
  deriving DecidableEq, Repr

/-- The key of an attribute. -/
def Structure.key? : Structure → Option String
  | .attribute key _ => some key
  | .block _ => none

/-- A body is a sequence of structures. -/
abbrev Body := List Structure

/-- No two attributes of a body share a key. -/
def Body.keysDistinct (body : Body) : Bool := decide (body.filterMap Structure.key?).Nodup

namespace Reader

/-- Take the rest of an attribute after its key: an equals sign and a value. -/
def attributeValue : Reader Value := do
  expect "="
  skipInline
  unwritten (expression false)

/-- Take a label of a block, if one follows: a name or a literal text in quotes. -/
def label : Reader (Option Unit) := do
  match ← ahead with
  | '"' :: _ =>
    let _ ← quotedText refuse
    skipInline
    return some ()
  | cs =>
    if atName cs then
      let _ ← name
      skipInline
      return some ()
    else return none

/-- Take the body of a block that stands on one line, and the closing brace. -/
def inlineBody : Reader Unit := do
  unless ← accept "\x7d" do
    let _ ← name
    skipInline
    let _ ← attributeValue
    skipInline
    expect "\x7d"

/-- Take the rest of a block after its name: labels, and a body between braces. The body stands on
the same line or begins on the next. -/
def blockRest (nested : Reader Body) : Reader Unit := do
  let _ ← collect label
  expect "\x7b"
  skipInline
  let following ← ahead
  if atLineComment following || atNewline following then
    let _ ← acceptBlank lineComment
    newline
    let _ ← nested
    expect "\x7d"
  else inlineBody

/-- Take a structure: an attribute if an equals sign follows the name, otherwise a block. -/
def structureOn (nested : Reader Body) : Reader Structure := do
  let key ← name
  skipInline
  if ← startsWith "=" then return .attribute key (← attributeValue)
  else
    blockRest nested
    return .block key

/-- Take structures, each to the end of its line, up to a closing brace or the end of the text. -/
def bodyOf (nested : Reader Body) : Reader Body := do
  let body ← collect do
    skipBlank
    if (← ahead).isEmpty || (← startsWith "\x7d") then return none
    else
      let taken ← structureOn nested
      skipInline
      let _ ← acceptBlank lineComment
      lineEnd
      return some taken
  require (Body.keysDistinct body)
  return body

/-- Take a body whose blocks nest at most so deep. -/
def bodyAtMost : Nat → Reader Body
  | 0 => refuse
  | depth + 1 => bodyOf (bodyAtMost depth)

/-- Take a body. Every block begins with a character, so blocks do not nest deeper than the text
is long. -/
def body : Reader Body := do bodyAtMost ((← ahead).length + 1)

end Reader

/-- The structures of a text, if it has the form of a body. -/
def Body.parse? (text : String) : Option Body := Reader.readAll Reader.body text.toList

end Interpolation.Hcl
