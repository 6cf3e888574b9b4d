import StagedCodegen.Run.Builders
import StagedCodegen.Run.Fragments
import StagedCodegen.Run.Hooks

/-!
# Pipelines

A pipeline is the helpers and extensions that have registered. A run asks the extensions for their
hooks, fills a draft with the fragments, passes the finished artifact through the hooks, lets the
builders queue writes, and at last makes final what the hooks have begun. If a hook or a builder
fails, that is undone instead.
-/

namespace StagedCodegen

open StagedCodegen.Representation

/-- The helpers and extensions that have registered. -/
structure Pipeline (κ : Type) where
  /-- The helpers. -/
  registry : Registry (FragmentBehaviour κ) (BuilderBehaviour κ)
  /-- The extensions, the oldest first. -/
  extensions : List (Extension κ)
  /-- The families of which a member must run, if there is any. -/
  requiredFamilies : List String

/-- What a successful run gives. -/
structure RunResult where
  /-- The artifact. -/
  artifact : Artifact
  /-- All that was said to the user. -/
  diagnostics : List Diagnostic
  /-- The completed steps. -/
  steps : List Step
  /-- The queued writes. -/
  writes : List QueuedWrite

/-- The order in which everything would run. -/
structure PipelineSchedule where
  /-- The fragments. -/
  fragments : List FragmentEntry
  /-- The keys of the fragments that gave way to others. -/
  superseded : List String
  /-- The builders. -/
  builders : List BuilderEntry
  /-- The keys of the extensions. -/
  extensions : List String
deriving DecidableEq

/-- A schedule in JSON. -/
def PipelineSchedule.toJson (s : PipelineSchedule) : Json :=
  .object [("fragments", .array (s.fragments.map FragmentEntry.toJson)),
    ("superseded", Json.strings s.superseded),
    ("builders", .array (s.builders.map BuilderEntry.toJson)),
    ("extensions", Json.strings s.extensions)]

namespace Pipeline

variable {κ : Type}

/-- Nobody has registered yet. -/
def new : Pipeline κ := ⟨.empty, [], usualFamilies⟩

/-- Register a helper on the surface of a kind. -/
def register (surface : HelperKind)
    (h : Helper (FragmentBehaviour κ) (BuilderBehaviour κ)) : Act (Pipeline κ) Unit :=
  let onRegistry := match surface with
    | .fragment => Registry.registerFragment h
    | .builder => Registry.registerBuilder h
  onRegistry.onPart Pipeline.registry fun r p => { p with registry := r }

/-- Register an extension. -/
def extend (p : Pipeline κ) (e : Extension κ) : Pipeline κ :=
  { p with extensions := p.extensions ++ [e] }

/-- The order in which everything would run. -/
def schedule (p : Pipeline κ) : Except Failure PipelineSchedule :=
  let fs := p.registry.fragmentEntries
  let bs := p.registry.builderEntries
  match Schedule.fragments fs with
  | .error f => .error f
  | .ok s => .ok {
      fragments := s.order.filterMap (fs[·]?)
      superseded := (s.superseded.filterMap (fs[·]?)).map (·.key)
      builders := (Schedule.builders bs).filterMap (bs[·]?)
      extensions := p.extensions.map (·.key) }

/-- Let the builders run, and settle what the hooks have begun. -/
def finish (p : Pipeline κ) (o : RunOptions) (a : Artifact) (l : Ledger κ) :
    Act (Session κ) (List QueuedWrite) := fun s =>
  match runBuilders p.registry o a s with
  | (.error f, s) => (.error f, (l.rollbackAll s).2)
  | (.ok writes, s) => (do l.commitAll; return writes) s

/-- All stages of a run. -/
def stages (p : Pipeline κ) (o : RunOptions) : Act (Session κ) RunResult := do
  let hooks ← collectHooks o p.extensions
  let a ← runFragments p.registry p.requiredFamilies o
  let (a, l) ← runHooks o hooks a
  let writes ← p.finish o a l
  let s ← Attempt.get
  return ⟨a, s.world.diagnostics, s.steps, writes⟩

/-- A run. The user is told of its failure. -/
def run (p : Pipeline κ) (o : RunOptions) (w : World κ) : Except Failure RunResult × Session κ :=
  match p.stages o (.start w) with
  | (.ok r, s) => (.ok r, s)
  | (.error f, s) => (.error f, { s with world := s.world.report o.scope f })

end Pipeline

end StagedCodegen
