/-!
# Arguments

The arguments of the program name commands, settings and assignments. Commands form levels: the
program, a command, and for one command a command below it. Each level knows some settings, and
only the deepest ones take assignments.

A setting is given by a letter after one hyphen or by a word after two. A value is attached, after
an equals sign that the letter may do without, or is the next argument, which then must not look
like a setting itself. Letters of settings without a value may share one hyphen with what follows.
After two hyphens alone, everything is an assignment.

## Main definitions

* `Setting` — what can be set, with its letter and its word.
* `Level` — the commands; `Level.accepts`, `Level.below?` — what each knows.
* `Item` — one setting with its value, or one assignment.
* `readItems` — the items of a list of arguments, and the level that it ends at.
-/

namespace Interpolation.CommandLine

/-! ### Settings and levels -/

/-- What can be set on the command line. -/
inductive Setting where
  | changeDirectory
  | inputFile
  | inputDirectory
  | withEnvironment
  | escapes
  | outputFormat
  deriving DecidableEq, Repr

/-- Whether a setting has a value. -/
def Setting.takesValue : Setting → Bool
  | .withEnvironment => false
  | _ => true

/-- The setting of a letter. -/
def Setting.ofLetter? : Char → Option Setting
  | 'C' => some .changeDirectory
  | 'f' => some .inputFile
  | 'd' => some .inputDirectory
  | 'e' => some .withEnvironment
  | 'F' => some .outputFormat
  | _ => none

/-- The setting of a word. -/
def Setting.ofWord? : String → Option Setting
  | "directory" => some .changeDirectory
  | "input-file" => some .inputFile
  | "input-dir" => some .inputDirectory
  | "with-env" => some .withEnvironment
  | "escapes" => some .escapes
  | "output-format" => some .outputFormat
  | _ => none

/-- The program, its commands, and the commands below one of them. -/
inductive Level where
  | program
  | expand
  | dev
  | sources
  | graph
  | order
  deriving DecidableEq, Repr

namespace Level

/-- How many commands lead to a level. -/
def depth : Level → Nat
  | .program => 0
  | .expand | .dev => 1
  | .sources | .graph | .order => 2

/-- Whether a level ends the commands and takes assignments. -/
def takesAssignments : Level → Bool
  | .program | .dev => false
  | _ => true

/-- Whether a level knows a setting. -/
def accepts (level : Level) : Setting → Bool
  | .changeDirectory => true
  | .inputFile | .inputDirectory | .withEnvironment => level.takesAssignments
  | .escapes => level == .expand
  | .outputFormat => level == .expand || level == .graph

/-- The level of a command below a level. -/
def below? : Level → String → Option Level
  | .program, "expand" => some .expand
  | .program, "x" => some .expand
  | .program, "dev" => some .dev
  | .dev, "sources" => some .sources
  | .dev, "graph" => some .graph
  | .dev, "order" => some .order
  | _, _ => none

/-- The setting of a letter, if the level knows it. -/
def settingOfLetter? (level : Level) (letter : Char) : Option Setting :=
  (Setting.ofLetter? letter).filter level.accepts

/-- The setting of a word, if the level knows it. -/
def settingOfWord? (level : Level) (word : List Char) : Option Setting :=
  (Setting.ofWord? (String.ofList word)).filter level.accepts

end Level

/-! ### Items -/

/-- One thing said on the command line: a setting at a level with its value, which is empty where
the setting has none, or an assignment. -/
inductive Item where
  | set (level : Level) (setting : Setting) (value : String)
  | assignment (text : String)
  deriving DecidableEq, Repr

/-- Whether an argument looks like a setting. A hyphen alone does not. -/
def looksLikeSetting (argument : String) : Bool :=
  argument.toList.head? = some '-' && argument != "-"

/-- The items of letters behind one hyphen, and the setting that still waits for its value. The
letters after one that takes a value are the value, after an equals sign if there is one. -/
def readLetters (level : Level) : List Char → Option (List Item × Option Setting)
  | [] => some ([], none)
  | letter :: rest =>
    match level.settingOfLetter? letter with
    | none => none
    | some setting =>
      if setting.takesValue then
        match rest with
        | [] => some ([], some setting)
        | '=' :: value => some ([.set level setting (String.ofList value)], none)
        | value => some ([.set level setting (String.ofList value)], none)
      else
        (readLetters level rest).map fun read => (.set level setting "" :: read.1, read.2)

/-- The items of a word behind two hyphens, and the setting that still waits for its value. A
value may be attached after an equals sign. -/
def readWord (level : Level) (cs : List Char) : Option (List Item × Option Setting) :=
  match level.settingOfWord? (cs.takeWhile (· != '=')), cs.dropWhile (· != '=') with
  | none, _ => none
  | some setting, [] =>
    if setting.takesValue then some ([], some setting) else some ([.set level setting ""], none)
  | some setting, _ :: value =>
    if setting.takesValue then some ([.set level setting (String.ofList value)], none) else none

/-- The items of an argument that looks like a setting. -/
def readSettings (level : Level) (argument : String) : Option (List Item × Option Setting) :=
  match argument.toList with
  | '-' :: '-' :: word => readWord level word
  | '-' :: letters => readLetters level letters
  | _ => none

/-- The items of a list of arguments, and the level that the commands among them lead to. A setting
may be waiting for its value. -/
def readItems (level : Level) (waiting : Option Setting) :
    List String → Option (List Item × Level)
  | [] => if waiting.isNone then some ([], level) else none
  | argument :: rest =>
    match waiting with
    | some setting =>
      if looksLikeSetting argument then none
      else
        (readItems level none rest).map fun read => (.set level setting argument :: read.1, read.2)
    | none =>
      if argument = "--" then
        if level.takesAssignments then some (rest.map .assignment, level) else none
      else if looksLikeSetting argument then
        match readSettings level argument with
        | none => none
        | some (items, waiting) =>
          (readItems level waiting rest).map fun read => (items ++ read.1, read.2)
      else if level.takesAssignments then
        (readItems level none rest).map fun read => (.assignment argument :: read.1, read.2)
      else
        match level.below? argument with
        | none => none
        | some below => readItems below none rest

end Interpolation.CommandLine
