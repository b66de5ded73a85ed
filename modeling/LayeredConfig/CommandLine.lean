import LayeredConfig.Name
/-!
# Command lines

A command line names a command with its options and operands. `Invocation.ofWords?` reads it, one
word after the other; where there is no command to run, `Usage` tells what is asked for or what is
wrong. A value is checked when the next option or operand follows, or the line ends.
-/

namespace LayeredConfig

/-- How documents are printed. -/
inductive OutputFormat
  | yaml
  | json
  deriving DecidableEq

/-- The store that a command reads, the active store if it is another one, and the collection. -/
structure Selection where
  storage : String
  active : Option String
  collection : String

/-- A command. -/
inductive Command
  /-- Lists the names that start with a text. -/
  | list (of : Selection) (start : String)
  /-- Prints documents. -/
  | read (of : Selection) (format : OutputFormat) (names : List String)
  /-- Makes the active directory hold what the other one holds. -/
  | takeIn (sync active : String)
  /-- Makes the other directory hold what the active one holds. -/
  | giveOut (sync active : String)

/-- A command and the file of the overlay that applies. -/
structure Invocation where
  config : Option String
  command : Command

/-- What is asked for instead of a command, or what is wrong with a command line. -/
inductive Usage
  | help
  | version (command : Option String)
  | nothingGiven
  | missingCommand
  | missingArgument
  | unknownCommand
  | unknownArgument
  | badValue
  | repeatedOption
  | needlessValue
  deriving DecidableEq

namespace CommandLine

/-! ## Options -/

/-- An option that has a value. -/
inductive Setting
  | config
  | storage
  | active
  | collection
  | format
  | sync
  deriving DecidableEq

/-- The name of an option. -/
def Setting.name : Setting → String
  | .config => "config"
  | .storage => "storage"
  | .active => "active"
  | .collection => "collection"
  | .format => "format"
  | .sync => "sync"

/-- The format of a name. -/
def format? : String → Option OutputFormat
  | "yaml" => some .yaml
  | "json" => some .json
  | _ => none

/-- Whether an option may have a value: a path may not be empty. -/
def Setting.accepts (value : String) : Setting → Bool
  | .collection => true
  | .format => (format? value).isSome
  | _ => !value.isEmpty

/-- What may stand on a part of a command line: the part before the command, or the part from a
command on. -/
structure Level where
  command : Option String
  settings : List Setting
  /-- How many operands there may be, if there is a limit. -/
  limit : Option Nat

/-- The part before the command. -/
def topLevel : Level := ⟨none, [.config], some 0⟩

/-- The part from a command on. -/
def levelOf? : String → Option Level
  | "list" => some ⟨"list", [.config, .storage, .active, .collection], some 1⟩
  | "read" => some ⟨"read", [.config, .storage, .active, .collection, .format], none⟩
  | "import" => some ⟨"import", [.config, .sync, .active], some 0⟩
  | "export" => some ⟨"export", [.config, .sync, .active], some 0⟩
  | _ => none

/-- Whether a word is a command, or asks for help. -/
def isCommand (word : String) : Bool := (levelOf? word).isSome || word == "help"

/-! ## Words -/

/-- What has been read of a part: options with their values, operands, how often more output was
asked for, the option that has not been checked, and whether only operands follow. -/
structure Draft where
  given : List (Setting × String)
  operands : List String
  verbosity : Nat
  pending : Option (Setting × Option String)
  onlyOperands : Bool

namespace Draft

/-- Nothing has been read. -/
def empty : Draft := ⟨[], [], 0, none, false⟩

/-- The value of an option. -/
def value? (d : Draft) (setting : Setting) : Option String :=
  (d.given.find? (·.1 = setting)).map (·.2)

/-- Gives an option its value. -/
def give (d : Draft) (setting : Setting) (value : String) : Except Usage Draft :=
  if (d.value? setting).isSome then .error .repeatedOption
  else if setting.accepts value then .ok { d with given := d.given ++ [(setting, value)] }
  else .error .badValue

/-- Checks the option that has not been checked. -/
def settle (d : Draft) : Except Usage Draft :=
  match d.pending with
  | none => .ok d
  | some (_, none) => .error .badValue
  | some (setting, some value) => ({ d with pending := none } : Draft).give setting value

/-- Whether the next word is the value of an option. -/
def awaitsValue (d : Draft) : Bool :=
  match d.pending with
  | some (_, none) => true
  | _ => false

/-- Asks for more output. -/
def louder (d : Draft) : Draft := { d with verbosity := d.verbosity + 1 }

end Draft

/-- Reads an operand. -/
def operand (l : Level) (d : Draft) (word : String) : Except Usage Draft :=
  if l.limit.any (· ≤ d.operands.length) then
    match l.command with
    | some _ => .error .unknownArgument
    | none =>
      .error (if d.onlyOperands && isCommand word then .unknownArgument else .unknownCommand)
  else do
    let d ← d.settle
    .ok { d with operands := d.operands ++ [word] }

/-- Reads a flag that stops the reading: help or the version. -/
def stop (d : Draft) (usage : Usage) : Except Usage Draft := do
  let _ ← d.settle
  .error usage

/-- Reads flags of one letter each. -/
def letters (l : Level) (d : Draft) : List Char → Except Usage Draft
  | [] => .ok d
  | 'v' :: rest => do letters l (← d.settle).louder rest
  | 'h' :: _ => stop d .help
  | 'V' :: _ => stop d (.version l.command)
  | _ :: _ => .error .unknownArgument

/-- Reads an option or a flag by its name, with the value that is attached to it. -/
def long (l : Level) (d : Draft) (name : String) (attached : Option String) : Except Usage Draft :=
  match l.settings.find? (·.name = name), attached with
  | some setting, some value => do (← d.settle).give setting value
  | some setting, none => do
    let d ← d.settle
    .ok { d with pending := some (setting, none) }
  | none, _ =>
    if ["verbose", "help", "version"].contains name then
      if attached.isSome then .error .needlessValue
      else if name = "help" then stop d .help
      else if name = "version" then stop d (.version l.command)
      else do .ok (← d.settle).louder
    else .error .unknownArgument

/-- The text before an equals sign, and the one after it if there is one. -/
def splitValue : List Char → List Char × Option (List Char)
  | [] => ([], none)
  | '=' :: rest => ([], some rest)
  | c :: rest => (c :: (splitValue rest).1, (splitValue rest).2)

/-- Reads a word that is not the name of a command. -/
def word (l : Level) (d : Draft) (w : String) : Except Usage Draft :=
  if d.onlyOperands then operand l d w
  else match w.toList with
    | ['-', '-'] => .ok { d with onlyOperands := true }
    | '-' :: '-' :: rest =>
      let (name, value) := splitValue rest
      long l d (String.ofList name) (value.map String.ofList)
    | '-' :: c :: rest => letters l d (c :: rest)
    | _ =>
      match d.pending with
      | some (setting, none) => .ok { d with pending := some (setting, some w) }
      | _ => operand l d w

/-! ## Commands -/

/-- An option that has to be given. -/
def need (d : Draft) (setting : Setting) : Except Usage String :=
  match d.value? setting with
  | some value => .ok value
  | none => .error .missingArgument

/-- The store that a command reads. -/
def selection (d : Draft) : Except Usage Selection := do
  .ok ⟨← need d .storage, d.value? .active, (d.value? .collection).getD Name.defaultCollection⟩

/-- The command of a name. -/
def command (name : String) (d : Draft) : Except Usage Command := do
  if name = "list" then .ok (.list (← selection d) (d.operands.headD ""))
  else if name = "read" then
    let of ← selection d
    if d.operands.isEmpty then .error .missingArgument
    else .ok (.read of (((d.value? .format).bind format?).getD .yaml) d.operands)
  else if name = "import" then .ok (.takeIn (← need d .sync) (← need d .active))
  else .ok (.giveOut (← need d .sync) (← need d .active))

/-- Follows the commands for which help is asked. -/
def help (words : List String) : Usage :=
  match words with
  | [] => .help
  | [w] => if isCommand w then .help else .unknownCommand
  | _ => .unknownCommand

/-- Reads the part before the command, from what has been read of it. -/
def readTop (d : Draft) : List String → Except Usage Invocation
  | [] => do
    let d ← d.settle
    .error (if d.given.isEmpty && d.verbosity = 0 then .nothingGiven else .missingCommand)
  | w :: rest =>
    if d.onlyOperands || d.awaitsValue || !isCommand w then do readTop (← word topLevel d w) rest
    else match levelOf? w with
      | none => .error (help rest)
      | some l => do
        let inner ← rest.foldlM (word l) .empty
        let inner ← inner.settle
        let command ← command w inner
        -- What stands before the command is checked last.
        let d ← d.settle
        .ok ⟨(inner.value? .config).or (d.value? .config), command⟩

end CommandLine

/-- The invocation that a command line spells. -/
def Invocation.ofWords? (words : List String) : Except Usage Invocation :=
  CommandLine.readTop .empty words

/-- Whether something is wrong, and nothing is asked for. -/
def Usage.isFailure : Usage → Bool
  | .help | .version _ => false
  | _ => true

/-- What a command line looks like. -/
def Usage.summary : String :=
  "Usage: cfgoverlay [--config FILE] [-v] list|read|import|export OPTIONS"

/-- The name and the version of the program. -/
def Usage.versionText (command : Option String) : String :=
  "cfgoverlay" ++ (match command with
    | some name => "-" ++ name
    | none => "") ++ " 0.1.0\n"

end LayeredConfig
