import StagedCodegen.CommandLine.Account
import StagedCodegen.CommandLine.Help
import StagedCodegen.Log.Opening

/-!
# The program

Everything that the program does, from its arguments to the number with which it ends: it opens the
log, loads the settings, does what the command says, and shows the result or the failure.

The log is opened by the settings as they are at that moment; if they cannot be loaded, by the usual
ones, and the failure is told once the log is open.
-/

namespace StagedCodegen.CommandLine

open Log

/-- What a program leaves. -/
structure Outcome where
  /-- The number with which it ends. -/
  exitCode : Nat
  /-- What it has written. -/
  console : Console

/-- What the arguments say about the log, on top of the settings. -/
def Arguments.adjust (a : Arguments) (s : Settings.Logging) : Settings.Logging :=
  { s with
    enabled := s.enabled && !a.quiet
    level := a.logLevel.getD (if a.verbose then "debug" else s.level)
    format := a.logFormat.getD s.format }

/-- The settings of the log. -/
def Arguments.logging (a : Arguments) (host : Settings.Host) (d : Disk) (env : Environment) :
    Settings.Logging :=
  a.adjust <| match Context.load host d env a.workspace a.config with
    | .ok c => c.settings.logging
    | .error _ => .usual

/-- End with a failure, which is logged under some words and shown. -/
def endWith (time words : String) (f : Failure) (c : Console) : Outcome :=
  ⟨1, (c.record time (Account.own .error (words ++ f.message))).complain
    (Presentation.failure f ++ "\n")⟩

/-- Do what a command says in a context, and show the result. -/
def execute (time : String) (context : Context) (command : Command) (c : Console) : Outcome :=
  let (result, s) := context.execute command (sessionOn c.disk)
  let c := { c with disk := s.world.disk }.recordAll time
    (Account.ofCommand context result.toOption.isSome s command)
  match result with
  | .ok output =>
    ⟨0, (c.record time (Account.own .info "Command completed successfully")).print (output ++ "\n")⟩
  | .error f => endWith time "Command failed: " f c

/-- Load the settings, and go on. -/
def loadAndExecute (host : Settings.Host) (time : String) (env : Environment) (a : Arguments)
    (c : Console) : Outcome :=
  let c := c.record time (Account.own .info "genpipe starting")
  let loaded := Context.load host c.disk env a.workspace a.config
  let c := c.recordAll time (Account.ofLoading host c.disk env a.config loaded)
  match loaded with
  | .ok context => execute time context a.command c
  | .error f => endWith time "Error loading configuration: " f c

/-- The program, at some time. -/
def run (host : Settings.Host) (time : String) (env : Environment) (args : List String) (d : Disk) :
    Outcome :=
  match Arguments.parse args with
  | .error e =>
    let show_ (c : Console) := if e.exitCode = 0 then c.print e.message else c.complain e.message
    ⟨e.exitCode, show_ (.start d)⟩
  | .ok a =>
    match openLog env (a.logging host d env) (.start d) with
    | (.ok (), c) => loadAndExecute host time env a c
    | (.error f, c) => ⟨1, c.complain ("Failed to initialize logging: " ++ f.message ++ "\n")⟩

end StagedCodegen.CommandLine
