import StagedCodegen.Log.Console
import StagedCodegen.Settings.Sources

/-!
# Opening the log

How the settings and the environment decide what is logged, how and where. The environment comes
first: its directives replace those of the settings altogether, unless they are malformed; a form
that it names replaces that of the settings if there is such a form; and the place that it names
always does.
-/

namespace StagedCodegen.Log

/-! ## The filter -/

/-- The directives that a text lists, if all of them are well-formed. -/
def directives? (s : String) : Option (List Directive) :=
  (Directive.parts s).mapM fun part => (Directive.parse part).toOption

/-- The filter that the environment asks for. -/
def environmentFilter? (env : Environment) : Option Filter :=
  ((env.lookup "GENPIPE_LOG").bind directives?).map (Filter.ofDirectives none)

/-- The well-formed directives that a text lists, and complaints about the others. -/
def readDirectives : List String → List Directive × List String
  | [] => ([], [])
  | part :: rest =>
    let (ds, complaints) := readDirectives rest
    match Directive.parse part with
    | .ok d => (d :: ds, complaints)
    | .error e => (ds, ("ignoring `" ++ part ++ "`: " ++ e.text ++ "\n") :: complaints)

/-- The directive for a module. -/
def moduleDirective (module level : String) : Except Failure Directive :=
  match Directive.parse (module ++ "=" ++ level) with
  | .ok d => .ok d
  | .error e => .error (.settings ("Invalid log directive: " ++ e.text))

/-- The modules with their levels that the environment lists. What has no equals sign is passed
over. -/
def environmentModules (env : Environment) : List (String × String) :=
  match env.lookup "GENPIPE_LOG_MODULES" with
  | none => []
  | some s =>
    (Text.split ',' s.toList).filterMap fun spec => (Text.splitOnce '=' spec).map fun (m, l) =>
      (Text.trim (String.ofList m), Text.trim (String.ofList l))

/-- Add directives for modules to a filter. -/
def addModules (f : Filter) (ms : List (String × String)) : Except Failure Filter :=
  ms.foldlM (fun f (module, level) => (moduleDirective module level).map f.add) f

/-- The filter that the settings ask for, and complaints about malformed directives. -/
def settingsFilter (env : Environment) (s : Settings.Logging) :
    Except Failure Filter × List String :=
  if s.level = "off" then (.ok (.ofDirectives none [.ofThreshold .off]), [])
  else
    let (ds, complaints) := readDirectives (Directive.parts s.level)
    let filter := Filter.ofDirectives (some (.ofThreshold (.upTo .error))) ds
    (addModules filter (s.modules.entries ++ environmentModules env), complaints)

/-- What decides which events are logged. -/
def openFilter (env : Environment) (s : Settings.Logging) : Act Console Filter := fun c =>
  match environmentFilter? env with
  | some f => (.ok f, c)
  | none =>
    let (f, complaints) := settingsFilter env s
    (f, complaints.foldl (fun c s => c.complain s) c)

/-! ## Form and destination -/

/-- The form of a name. -/
def Form.ofString? : String → Option Form
  | "text" => some .text
  | "json" => some .json
  | _ => none

/-- The form of lines. -/
def chooseForm (env : Environment) (s : Settings.Logging) : Except Failure Form :=
  match (env.lookup "GENPIPE_LOG_FORMAT").bind Form.ofString? with
  | some f => .ok f
  | none =>
    match Form.ofString? s.format with
    | some f => .ok f
    | none =>
      .error (.settings ("Invalid log format: " ++ s.format ++ " (must be 'json' or 'text')"))

/-- Where lines go. -/
def chooseDestination (env : Environment) (s : Settings.Logging) : Except Failure Destination :=
  match (env.lookup "GENPIPE_LOG_OUTPUT").getD s.output with
  | "stdout" => .ok .stdout
  | "stderr" => .ok .stderr
  | "file" => .ok (.file s.file)
  | name =>
    .error (.settings ("Invalid log output: " ++ name ++ " (must be 'stdout', 'stderr' or 'file')"))

/-- Make the directory of a file, with those above it. -/
def makeDirectory (p : Path) : Act Console Unit := fun c =>
  match p.parent? with
  | none => (.ok (), c)
  | some parent =>
    match c.disk.makeDirs parent with
    | (.ok (), d) => (.ok (), { c with disk := d })
    | (.error e, d) =>
      (.error (.settings ("Failed to create log directory: " ++ e.text)), { c with disk := d })

/-- Make a file, unless there is one already. -/
def touch (p : Path) : Act Console Unit := fun c =>
  let contents := (c.disk.read p).toOption.getD .empty
  match c.disk.write p contents with
  | .ok d => (.ok (), { c with disk := d })
  | .error e =>
    (.error (.settings ("Failed to open log file \"" ++ p.text ++ "\": " ++ e.text)), c)

/-- Make sure that lines can go somewhere. -/
def prepare : Destination → Act Console Unit
  | .file p => do
    makeDirectory p
    touch p
  | _ => pure ()

/-! ## The log -/

/-- Make a log that of a console, unless it has one. -/
def install (log : Sink) : Act Console Unit := fun c =>
  match c.log with
  | none => (.ok (), { c with log := some log })
  | some _ => (.error (.settings
      ("Failed to initialize logging: a global default trace dispatcher has already been set")), c)

/-- Open the log that the settings and the environment ask for. -/
def openLog (env : Environment) (s : Settings.Logging) : Act Console Unit :=
  if s.enabled then do
    let filter ← openFilter env s
    let form ← Attempt.ofExcept (chooseForm env s)
    let destination ← Attempt.ofExcept (chooseDestination env s)
    let color := s.color && (destination == .stdout || destination == .stderr)
    prepare destination
    install ⟨filter, form, color, destination⟩
  else pure ()

/-- Settings that switch the log off leave the console alone. -/
theorem openLog_of_not_enabled (env : Environment) {s : Settings.Logging}
    (h : s.enabled = false) (c : Console) : openLog env s c = (.ok (), c) := by
  simp [openLog, h]

end StagedCodegen.Log
