import StagedCodegen.CommandLine.Context
import StagedCodegen.Log.Event

/-!
# What commands tell the log

The events of a command, made from the account that its session keeps: the calls that were made to
clients, the steps that were completed, what was said to the user, and what was written.
-/

namespace StagedCodegen.CommandLine

open Log

namespace Account

/-! ## Settings -/

/-- Something that the program itself says. -/
def own (level : Level) (message : String) : Event := ⟨level, "genpipe", message, [], []⟩

/-- Whether there is a file of the user. -/
def ofUserFile (host : Settings.Host) (d : Disk) (env : Environment) : List Event :=
  match Settings.existingUserFile? host d env with
  | some p => [event "Loading global configuration" p]
  | none => (Settings.userFile? host env).toList.map
      (event "No global configuration file, using defaults")
where
  /-- An event about the file of the user. -/
  event (message : String) (p : Path) : Event :=
    ⟨.debug, "genpipe::config::sources::global_file", message,
      [("config_path", .string p.text)], []⟩

/-- What was loaded in layers. -/
def ofContext (c : Context) : Event :=
  ⟨.debug, "genpipe::config::facade", "Configuration loaded",
    [("workspace", .string c.workspace.text), ("namespace", .string c.settings.project.title),
      ("resources", .int c.settings.project.resources.length)], []⟩

/-- How settings were loaded. Those of one file alone are loaded without a word. -/
def ofLoading (host : Settings.Host) (d : Disk) (env : Environment) (config : Option Path)
    (loaded : Except Failure Context) : List Event :=
  match config with
  | some _ => []
  | none => ofUserFile host d env ++ (loaded.toOption.map ofContext).toList

/-! ## Helpers -/

/-- The fragments of the pipeline. -/
def fragments : List FragmentEntry := (Core.fragments (κ := Unit)).map (·.1)

/-- The builders of the pipeline. -/
def builders : List BuilderEntry := (Core.builders (κ := Unit)).map (·.1)

/-- The registration of all helpers. -/
def ofRegistration : List Event :=
  fragments.map (fun e => ⟨.debug, "genpipe::helper::registry", "Registered fragment helper",
    [("key", .string e.key), ("mode", .string e.mode.text)], []⟩) ++
  builders.map fun e => ⟨.debug, "genpipe::helper::registry", "Registered builder helper",
    [("key", .string e.key), ("priority", .int e.priority)], []⟩

/-! ## Runs -/

/-- The span of a run. -/
def runSpan (c : Context) : Span :=
  ⟨"pipeline_run", .info, "genpipe::pipeline",
    [("phase", .string "generate"), ("namespace", .string c.settings.project.title)]⟩

/-- An event of the module of this name, within a run. -/
def within (c : Context) (module : String) (level : Level) (message : String) (facts : Facts) :
    Event :=
  ⟨level, "genpipe::" ++ module, message, facts, [runSpan c]⟩

/-- Something that was said to the user. -/
def ofDiagnostic (c : Context) (d : Diagnostic) : Event :=
  let level := match d.level with
    | .warning => Level.warn
    | .error => Level.error
  within c "reporter" level d.message
    [("scope", .string d.scope), ("context", .string d.context.print)]

/-- How many steps of a phase were completed. -/
def stepCount (s : Session Unit) (phase : Phase) : Nat := s.steps.countP (·.phase == phase)

/-- A call to a fragment. -/
def ofFragment (c : Context) : Call → Option Event
  | .fragment i => some (within c "pipeline::fragment" .debug "Running fragment"
      [("key", Json.ofString? (fragments[i]?.map (·.key)))])
  | _ => none

/-- A call to a builder. -/
def ofBuilder (c : Context) : Call → Option Event
  | .builder i => some (within c "pipeline::builder" .debug "Running builder"
      [("key", Json.ofString? (builders[i]?.map (·.key)))])
  | _ => none

/-- A call that settles what a hook has begun. -/
def ofSettling (c : Context) : Call → Option Event
  | .commit _ => some (within c "pipeline::saga" .debug "Committing extension transaction"
      [("extension", .string Adapters.key)])
  | .rollback _ => some (within c "pipeline::saga" .debug "Rolling back extension transaction"
      [("extension", .string Adapters.key)])
  | _ => none

/-- The end of the fragment phase, after which the adapters have their turn. There are none. -/
def afterFragments (c : Context) (s : Session Unit) : List Event :=
  if s.calls.contains (.hook 0) then
    [within c "pipeline::fragment" .info "Fragment phase complete"
      [("fragments", .int (stepCount s .fragment))],
      within c "sandbox" .debug "No adapter extensions, skipping sandbox" []]
  else []

/-- The end of the hooks. -/
def afterHooks (c : Context) (s : Session Unit) : List Event :=
  if !s.calls.contains (.hook 0) then []
  else if stepCount s .extension = 0 then
    [within c "pipeline::saga" .warn "Extension hook failed, rolling back"
      [("extension", .string Adapters.key)]]
  else
    [within c "pipeline::saga" .info "Extension hooks complete"
      [("hooks", .int 1), ("transactions", .int 1)]]

/-- The end of the builder phase. -/
def afterBuilders (c : Context) (s : Session Unit) : List Event :=
  if s.calls.contains (.commit 0) then
    [within c "pipeline::builder" .info "Builder phase complete"
      [("builders", .int (stepCount s .builder))]]
  else []

/-- A run has come to its end. -/
def isComplete (s : Session Unit) : Bool := stepCount s .commit != 0

/-- The end of a run. -/
def afterRun (c : Context) (s : Session Unit) : List Event :=
  if isComplete s then
    [within c "pipeline" .info "Pipeline run complete" [("steps", .int s.steps.length)]]
  else []

/-- A run. -/
def ofRun (c : Context) (s : Session Unit) : List Event :=
  s.calls.filterMap (ofFragment c) ++ afterFragments c s ++ afterHooks c s ++
    s.calls.filterMap (ofBuilder c) ++ afterBuilders c s ++ s.calls.filterMap (ofSettling c) ++
    afterRun c s ++ s.world.diagnostics.map (ofDiagnostic c)

/-! ## Writes -/

/-- A write. -/
def ofRecord (r : WriteRecord) : Event :=
  ⟨.debug, "genpipe::writer", "File write",
    [("path", .string r.path.text), ("status", .string r.status.text)], []⟩

/-- The end of generation. -/
def afterWrites (c : Context) (s : WriteSummary) : List Event :=
  [⟨.info, "genpipe::writer", "Applied builder writes",
      [("files", .int s.records.length), ("root", .string c.workspace.text)], []⟩,
    ⟨.info, "genpipe::cli::route", "Generation complete",
      [("written", .int s.written), ("unchanged", .int s.unchanged),
        ("skipped", .int s.skipped)], []⟩]

/-! ## Commands -/

/-- Generation, which went well or did not. -/
def ofGeneration (c : Context) (ok : Bool) (s : Session Unit) : List Event :=
  if c.settings.problems.isEmpty then
    ofRegistration ++ (if s.calls.isEmpty then [] else ofRun c s) ++
      s.world.records.map ofRecord ++ (if ok then afterWrites c s.world.summary else [])
  else []

/-- A command, which went well or did not. -/
def ofCommand (c : Context) (ok : Bool) (s : Session Unit) : Command → List Event
  | .generate _ => ofGeneration c ok s
  | .plan _ => ofRegistration
  | .validate => []

end Account

end StagedCodegen.CommandLine
