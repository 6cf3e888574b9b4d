import StagedCodegen.Path
import StagedCodegen.Text.Split

/-!
# Arguments of the command line

What the user types: a command, with switches of its own, and switches that every command takes, in
front of the command or behind it. A switch has two dashes. Flags stand alone; options have a
value, after an equals sign or as the next argument.

The value of an option is looked at only when the next switch is met or the arguments end, so what
is wrong with a switch that nobody knows is said first. The arguments of a command are looked at
before those in front of it are checked.
-/

namespace StagedCodegen.CommandLine

/-! ## Commands -/

/-- The forms in which a schedule is shown. -/
inductive PlanFormat where
  /-- Tables for people. -/
  | text
  /-- An object for programs. -/
  | json
deriving DecidableEq, Repr

/-- What the user wants done. -/
inductive Command where
  /-- Run the pipeline and write files, or only say what would be written. -/
  | generate (dryRun : Bool)
  /-- Show the order in which helpers would run. -/
  | plan (format : PlanFormat)
  /-- Look for problems in the settings. -/
  | validate
deriving DecidableEq, Repr

/-- The names of commands. -/
inductive CommandName where
  /-- Generation. -/
  | generate
  /-- The schedule. -/
  | plan
  /-- Validation. -/
  | validate
deriving DecidableEq, Repr

/-- The command that a word names. -/
def CommandName.ofString? : String → Option CommandName
  | "generate" => some .generate
  | "plan" => some .plan
  | "validate" => some .validate
  | _ => none

/-- All that the user says. -/
structure Arguments where
  /-- What is to be done. -/
  command : Command
  /-- The root of the workspace. -/
  workspace : Path
  /-- The file of settings, in place of all layers. -/
  config : Option Path
  /-- The log is to say more. -/
  verbose : Bool
  /-- The log is to be silent. -/
  quiet : Bool
  /-- The level of the log. -/
  logLevel : Option String
  /-- The form of the log. -/
  logFormat : Option String
deriving DecidableEq

/-- What is wrong with arguments, or what the user wants to know instead. -/
inductive UsageError where
  /-- There are no arguments. -/
  | nothingGiven
  /-- There is no command. -/
  | missingCommand
  /-- No command has this name. -/
  | unknownCommand (name : String)
  /-- No switch has this name, or nobody takes this argument. -/
  | unknownArgument (argument : String)
  /-- An option has no value, or one that it cannot have. -/
  | invalidValue (switch : String)
  /-- A flag has a value. -/
  | valueOfFlag (switch : String)
  /-- Two switches exclude one another, or one is given twice. -/
  | conflict (switch : String)
  /-- The user asks for help about the program, or about a command. -/
  | help (about : Option CommandName)
deriving DecidableEq, Repr

/-! ## Switches -/

/-- The word that asks for help in the place of a command. -/
def helpWord : String := "help"

/-- What values an option takes. -/
inductive ValueKind where
  /-- Any text. -/
  | text
  /-- Any text but the empty one. -/
  | path
  /-- One of some words. -/
  | word (choices : List String)

/-- An option can have a value. -/
def ValueKind.accepts : ValueKind → String → Bool
  | .text, _ => true
  | .path, s => s ≠ ""
  | .word choices, s => choices.contains s

/-- What a switch is. -/
inductive SwitchKind where
  /-- It stands alone. -/
  | flag
  /-- It has a value. -/
  | option (kind : ValueKind)
  /-- It asks for help. -/
  | help

/-- The switches that every command takes. -/
def commonSwitches : List (String × SwitchKind) :=
  [("workspace", .option .path), ("config", .option .path), ("verbose", .flag), ("quiet", .flag),
    ("log-level", .option .text), ("log-format", .option .text), ("help", .help)]

/-- The switches that can follow a command, or stand in front of any. -/
def switches : Option CommandName → List (String × SwitchKind)
  | none | some .validate => commonSwitches
  | some .generate => ("dry-run", .flag) :: commonSwitches
  | some .plan => ("format", .option (.word ["text", "json"])) :: commonSwitches

/-! ## Reading -/

/-- An option whose value has not been looked at. -/
structure Pending where
  /-- Its name. -/
  name : String
  /-- What values it takes. -/
  kind : ValueKind
  /-- Its value, if there was one. -/
  value : Option String

/-- The switches that were given. -/
structure Given where
  /-- The flags. -/
  flags : List String
  /-- The options with their values. -/
  values : List (String × String)
  /-- The last option, if its value has not been looked at. -/
  pending : Option Pending

namespace Given

/-- Nothing was given. -/
def nothing : Given := ⟨[], [], none⟩

/-- Give an option a value. -/
def addValue (g : Given) (name : String) (kind : ValueKind) (value : String) :
    Except UsageError Given :=
  if g.values.any (·.1 == name) then .error (.conflict name)
  else if kind.accepts value then .ok { g with values := g.values ++ [(name, value)] }
  else .error (.invalidValue name)

/-- Look at the value of the last option. -/
def settle (g : Given) : Except UsageError Given :=
  match g.pending with
  | none => .ok g
  | some ⟨name, _, none⟩ => .error (.invalidValue name)
  | some ⟨name, kind, some value⟩ => { g with pending := none }.addValue name kind value

/-- Give a switch of a command, or one in front of any, with the value after its equals sign if
there is one. -/
def addSwitch (command : Option CommandName) (g : Given) (name : String) (kind : SwitchKind)
    (value : Option String) : Except UsageError Given :=
  match kind, value with
  | .option kind, some value => do (← g.settle).addValue name kind value
  | .option kind, none => do return { ← g.settle with pending := some ⟨name, kind, none⟩ }
  | _, some _ => .error (.valueOfFlag name)
  | .flag, none => do
    let g ← g.settle
    if g.flags.contains name then .error (.conflict name)
    else return { g with flags := g.flags ++ [name] }
  | .help, none => do
    let _ ← g.settle
    .error (.help command)

/-- The option that waits for the next argument. -/
def waiting? (g : Given) : Option Pending := g.pending.filter (·.value.isNone)

/-- The switches that were given fit together. -/
def check (g : Given) : Except UsageError Unit :=
  if g.flags.contains "quiet" && g.flags.contains "verbose" then .error (.conflict "quiet")
  else .ok ()

/-- No switch was given. -/
def isEmpty (g : Given) : Bool := g.flags.isEmpty && g.values.isEmpty

end Given

/-- What an argument looks like. -/
inductive Shape where
  /-- Two dashes alone: what follows are no switches. -/
  | divider
  /-- A switch, with the value after its equals sign if there is one. -/
  | switch (name : String) (value : Option String)
  /-- A dash and letters. -/
  | letters (first : Char)
  /-- Anything else. -/
  | word
deriving DecidableEq, Repr

/-- What an argument looks like. -/
def Shape.ofChars : List Char → Shape
  | '-' :: '-' :: [] => .divider
  | '-' :: '-' :: rest =>
    match Text.splitOnce '=' rest with
    | some (name, value) => .switch (String.ofList name) (some (String.ofList value))
    | none => .switch (String.ofList rest) none
  | '-' :: c :: _ => .letters c
  | _ => .word

/-- What is wrong with an argument that is no switch, where no value is waited for. -/
def strayArgument (command : Option CommandName) (divided : Bool) (s : String) : UsageError :=
  match command with
  | some _ => .unknownArgument s
  | none =>
    if divided && ((CommandName.ofString? s).isSome || s == helpWord) then .unknownArgument s
    else .unknownCommand s

/-- The help that is asked for about some words, the first of which may be a command. -/
def helpAbout : List String → UsageError
  | [] => .help none
  | s :: rest =>
    if (CommandName.ofString? s).isSome || s == helpWord then
      match rest with
      | [] => .help (CommandName.ofString? s)
      | t :: _ => .unknownCommand t
    else .unknownCommand s

/-- The command that an argument names, unless there is one already. -/
def commandOf? (command : Option CommandName) (s : String) : Option CommandName :=
  if command.isSome then none else CommandName.ofString? s

/-- Read arguments in front of a command, or behind one. The result is what was given and, if a
command was met, that and what follows it. After a divider nothing is a switch or a command. -/
def readArguments (command : Option CommandName) : (divided : Bool) → Given → List String →
    Except UsageError (Given × Option (CommandName × List String))
  | _, g, [] => .ok (g, none)
  | true, _, s :: _ => .error (strayArgument command true s)
  | false, g, s :: rest =>
    match Shape.ofChars s.toList, g.waiting?, commandOf? command s with
    | .divider, _, _ => readArguments command true g rest
    | .switch name value, _, _ =>
      match (switches command).lookup name with
      | none => .error (.unknownArgument s)
      | some kind => do readArguments command false (← g.addSwitch command name kind value) rest
    | .letters c, _, _ => do
      if c = 'h' then
        let _ ← g.settle
        .error (.help command)
      else .error (.unknownArgument s)
    | .word, some p, _ =>
      readArguments command false { g with pending := some { p with value := some s } } rest
    | .word, none, some c => .ok (g, some (c, rest))
    | .word, none, none =>
      if command.isNone && s == helpWord then .error (helpAbout rest)
      else .error (strayArgument command false s)

/-! ## The result -/

/-- The command with the switches of its own. -/
def commandWith (name : CommandName) (g : Given) : Command :=
  match name with
  | .generate => .generate (g.flags.contains "dry-run")
  | .plan => .plan (if g.values.lookup "format" == some "json" then .json else .text)
  | .validate => .validate

/-- What the user says with switches in front of a command and behind it. Those behind it win. -/
def Arguments.ofGiven (name : CommandName) (front behind : Given) : Arguments :=
  let flag (s : String) := front.flags.contains s || behind.flags.contains s
  let value (s : String) := (behind.values.lookup s).or (front.values.lookup s)
  { command := commandWith name behind
    workspace := ⟨(value "workspace").getD "."⟩
    config := (value "config").map Path.mk
    verbose := flag "verbose"
    quiet := flag "quiet"
    logLevel := value "log-level"
    logFormat := value "log-format" }

/-- What the user says. -/
def Arguments.parse (args : List String) : Except UsageError Arguments := do
  let (front, command) ← readArguments none false .nothing args
  match command with
  | some (name, rest) =>
    let (behind, _) ← readArguments (some name) false .nothing rest
    let behind ← behind.settle
    behind.check
    let front ← front.settle
    front.check
    return .ofGiven name front behind
  | none =>
    let front ← front.settle
    .error (if front.isEmpty then .nothingGiven else .missingCommand)

end StagedCodegen.CommandLine
