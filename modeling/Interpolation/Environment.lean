import Interpolation.Expansion.Outcome

/-!
# Environments

An environment is a list of names with values that the surroundings provide, both as bytes. What
is not UTF-8 cannot be a variable and is skipped. Variables are layered over an environment: they
win where both have a name, and the names of the environment come first.

## Main definitions

* `Environment` — names and values as bytes, in order.
* `Environment.ofBlock` — the environment that a block of bytes holds.
* `Environment.toVariables` — the entries that are text.
* `layered` — variables over those of an environment.
* `expandWithEnvironment` — the final values of variables over an environment.
-/

namespace Interpolation

/-- Names and values as the surroundings provide them. -/
abbrev Environment := List (ByteArray × ByteArray)

/-- The name and the value of an entry, which the first equals sign behind its first byte
separates. -/
def Environment.splitEntry? : List UInt8 → Option (ByteArray × ByteArray)
  | [] => none
  | first :: rest =>
    match rest.dropWhile (· != 61) with
    | [] => none
    | _ :: value => some (⟨(first :: rest.takeWhile (· != 61)).toArray⟩, ⟨value.toArray⟩)

/-- The environment that a block of bytes holds: zero bytes separate the entries. -/
def Environment.ofBlock (block : ByteArray) : Environment :=
  (block.toList.splitOn 0).filterMap splitEntry?

/-- An entry whose name and value are both text. -/
def Environment.textEntry? (entry : ByteArray × ByteArray) : Option (String × String) := do
  let name ← String.fromUTF8? entry.1
  let value ← String.fromUTF8? entry.2
  return (name, value)

/-- The variables of an environment, without the entries that are not text. -/
def Environment.toVariables (environment : Environment) : Variables :=
  .ofList (environment.filterMap textEntry?)

/-- Variables over others: `upper` wins, the names of `environment` come first. -/
def layered (environment upper : Variables) : Variables := environment.override upper

/-- The plan for variables layered over those of an environment. -/
def Plan.withEnvironment (environment upper : Variables) (escapes : EscapeMode) : Plan :=
  ⟨layered environment upper, escapes⟩

/-- The final values of variables over an environment, with escapes preserved. -/
def expandWithEnvironment (environment : Environment) (upper : Variables) :
    Except Failure Variables :=
  (Plan.withEnvironment environment.toVariables upper .preserve).expand

end Interpolation
