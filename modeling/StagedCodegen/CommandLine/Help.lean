import StagedCodegen.CommandLine.Arguments

/-!
# Help for the command line

What the user is told who asks for help, or whose arguments are wrong. Help about a command lists
the switches that can follow it; help about the program lists the commands as well.
-/

namespace StagedCodegen.CommandLine

/-! ## Descriptions -/

/-- What the program does. -/
def programDescription : String :=
  "Turn a project configuration into generated PHP and TypeScript sources"

/-- What a command does. -/
def CommandName.description : CommandName → String
  | .generate => "Run the pipeline and write generated files"
  | .plan => "Show the fragment and builder execution order"
  | .validate => "Load and validate the configuration"

/-- The word for a command. -/
def CommandName.word : CommandName → String
  | .generate => "generate"
  | .plan => "plan"
  | .validate => "validate"

theorem CommandName.ofString?_word (c : CommandName) : ofString? c.word = some c := by
  cases c <;> rfl

/-- A switch as it is typed, and what it is for. -/
def switchHelp (name : String) : String × String :=
  match name with
  | "workspace" => ("      --workspace <WORKSPACE>", "Workspace root directory [default: .]")
  | "config" => ("      --config <CONFIG>",
      "Configuration file path (overrides layered config loading)")
  | "verbose" => ("      --verbose", "Enable debug logging")
  | "quiet" => ("      --quiet", "Disable logging entirely")
  | "log-level" => ("      --log-level <LOG_LEVEL>",
      "Log level (trace, debug, info, warn, error, off)")
  | "log-format" => ("      --log-format <LOG_FORMAT>", "Log format (json, text)")
  | "dry-run" => ("      --dry-run", "Report what would change without writing")
  | "format" => ("      --format <FORMAT>",
      "Output format [default: text] [possible values: text, json]")
  | "help" => ("  -h, --help", "Print help")
  | _ => ("      --" ++ name, "")

/-! ## Pages -/

/-- Lines of two columns, the second of which begins two blanks behind the widest of the first. -/
def columns (rows : List (String × String)) : String :=
  let width := rows.foldl (fun n row => max n row.1.length) 0
  String.join (rows.map fun row =>
    row.1 ++ String.ofList (List.replicate (width + 2 - row.1.length) ' ') ++ row.2 ++ "\n")

/-- How the program is called, or one of its commands. -/
def usage : Option CommandName → String
  | none => "Usage: genpipe [OPTIONS] <COMMAND>\n"
  | some c => "Usage: genpipe " ++ c.word ++ " [OPTIONS]\n"

/-- The switches that can follow a command, or stand in front of any. -/
def switchList (command : Option CommandName) : String :=
  "\nOptions:\n" ++ columns ((switches command).map fun s => switchHelp s.1)

/-- All commands. -/
def commandList : String :=
  "\nCommands:\n" ++ columns
    (([.generate, .plan, .validate].map fun c : CommandName => ("  " ++ c.word, c.description)) ++
      [("  help", "Print this message or the help of the given subcommand(s)")])

/-- Help about the program, or about one of its commands. -/
def helpText (command : Option CommandName) : String :=
  match command with
  | none => programDescription ++ "\n\n" ++ usage none ++ commandList ++ switchList none
  | some c => c.description ++ "\n\n" ++ usage (some c) ++ switchList (some c)

/-! ## Errors -/

namespace UsageError

/-- What is wrong, in words, or the help that is asked for. -/
def message : UsageError → String
  | .nothingGiven => helpText none
  | .help about => helpText about
  | .missingCommand => error "a command is missing"
  | .unknownCommand name => error ("unrecognized command '" ++ name ++ "'")
  | .unknownArgument argument => error ("unexpected argument '" ++ argument ++ "'")
  | .invalidValue name => error ("--" ++ name ++ " needs a value, and one that it can have")
  | .valueOfFlag name => error ("--" ++ name ++ " takes no value")
  | .conflict name => error ("--" ++ name ++ " cannot be used with what else is given")
where
  /-- What is wrong, and how the program is called. -/
  error (words : String) : String := "error: " ++ words ++ "\n\n" ++ usage none

/-- The number with which the program ends. -/
def exitCode : UsageError → Nat
  | .help _ => 0
  | _ => 2

end UsageError

end StagedCodegen.CommandLine
