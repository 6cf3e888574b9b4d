import StagedCodegen.Adapter.Hook
import StagedCodegen.Core
import StagedCodegen.CommandLine.Arguments
import StagedCodegen.Presentation
import StagedCodegen.Settings.Sources

/-!
# Commands

What the commands do in a workspace with its settings. Validation and the schedule only look;
generation checks the settings, runs the pipeline of the core helpers, and applies what its
builders have queued.
-/

namespace StagedCodegen.CommandLine

/-- What a command works with. -/
structure Context where
  /-- The root of the workspace, as the user writes it. -/
  workspace : Path
  /-- The settings. -/
  settings : Settings
  /-- The file that describes the project. -/
  sourcePath : Path

namespace Context

/-- The context of a workspace, with settings from one file alone if there is one. -/
def load (host : Settings.Host) (d : Disk) (env : Environment) (workspace : Path)
    (config : Option Path) : Except Failure Context := do
  match config with
  | some file => return ⟨workspace, ← Settings.loadFile host d file, file⟩
  | none =>
    return ⟨workspace, ← Settings.load host d env workspace, Settings.workspaceFile workspace⟩

/-! ## Validation -/

/-- The settings have no problems. -/
def ensureValid (c : Context) : Except Failure Unit :=
  match c.settings.problems with
  | [] => .ok ()
  | ps => .error (.settings (Text.joinTexts "; " (ps.map Settings.Problem.text)))

/-- The result of validation. Problems are a failure. -/
def validate (c : Context) : Except Failure String :=
  let text := Presentation.validation c.settings.problems
  if c.settings.problems.isEmpty then .ok text else .error (.settings text)

/-! ## The schedule -/

/-- The pipeline of the core helpers, with adapters whose files this writer writes. -/
def pipeline (c : Context) (writer : FileWriter (World Unit)) : Except Failure (Pipeline Unit) :=
  match Core.registerAll { Pipeline.new with
      requiredFamilies := c.settings.generation.requiredFamilies } with
  | (.error f, _) => .error f
  | (.ok (), p) => .ok (p.extend (Adapters.mk [] writer .usual).extension)

/-- The order in which helpers would run. -/
def plan (c : Context) (format : PlanFormat) : Except Failure String := do
  let s ← (← c.pipeline (diskWriter true)).schedule
  match format with
  | .text => return Presentation.plan s
  | .json => return Presentation.planJson s

/-! ## Generation -/

/-- The list of files that generation leaves for the next. -/
def manifest (c : Context) : Path :=
  (c.workspace.join ⟨c.settings.output.dir⟩).join ⟨Core.manifestFile⟩

/-- The options of generation. -/
def options (c : Context) (previous : PreviousFiles) : RunOptions where
  phase := "generate"
  settings := c.settings
  title := c.settings.project.title
  origin := c.sourcePath.fileName?.getD "genpipe"
  sourcePath := c.sourcePath
  workspace := c.workspace
  scope := "genpipe"
  previous := previous

/-- Nothing is to be written. -/
def isDry (c : Context) (dryRun : Bool) : Bool := dryRun || c.settings.generation.dryRun

/-- Apply the writes of a run, and show what was done. -/
def applyWrites (c : Context) (dryRun : Bool) (r : RunResult) : Act (World Unit) String := do
  let _ ← (diskWriter dryRun).apply c.workspace r.writes
  let w ← Attempt.get
  return Presentation.generated w.summary r.diagnostics c.workspace dryRun

/-- Generate. -/
def generate (c : Context) (dryRun : Bool) : Act (Session Unit) String := do
  let dry := c.isDry dryRun
  Attempt.ofExcept c.ensureValid
  let p ← Attempt.ofExcept (c.pipeline (diskWriter dry))
  let s ← Attempt.get
  let previous ← Attempt.ofExcept (PreviousFiles.load s.world.disk c.manifest)
  let r ← fun s => p.run (c.options previous) s.world
  Session.act (c.applyWrites dry r)

/-- Do what a command says. -/
def execute (c : Context) : Command → Act (Session Unit) String
  | .generate dryRun => c.generate dryRun
  | .plan format => Attempt.ofExcept (c.plan format)
  | .validate => Attempt.ofExcept c.validate

end Context

/-- The session before a command. -/
def sessionOn (d : Disk) : Session Unit := .start ⟨d, [], [], ()⟩

end StagedCodegen.CommandLine
