import StagedCodegen.Core.Source
import StagedCodegen.Run.Builders

/-!
# The core builders

They queue the planned controllers and clients, and a list of both with the digest of each file.
-/

namespace StagedCodegen.Core

open StagedCodegen.Representation

variable {κ : Type}

/-! ## Planned sources -/

/-- The resource that a planned file is about. -/
def plannedResource (d : Data) (e : PlannedArtifact) (builder : String) :
    Except Failure Resource :=
  match e.resource.bind d.resource? with
  | some r => .ok r
  | none => .error (.rejected builder ("planned artifact '" ++ e.id ++ "' names no known resource"))

/-- The source of a planned file. The list of what was generated has none. -/
def renderPlanned (d : Data) (e : PlannedArtifact) (builder : String) :
    Except Failure (Option String) :=
  match e.kind with
  | .phpController => (plannedResource d e builder).map fun r => some (phpController d r)
  | .tsClient => (plannedResource d e builder).map fun r => some (tsClient d r)
  | .manifest => .ok none

/-- Queue the sources of planned files. -/
def queueSources (d : Data) (builder : String) : List PlannedArtifact → BuilderProgram κ Unit
  | [] => pure ()
  | e :: es => do
    match ← ExceptT.mk (pure (renderPlanned d e builder)) with
    | some source => BuilderProgram.queue ⟨e.path⟩ source.toUTF8
    | none => pure ()
    queueSources d builder es

/-- Queues all planned files of a kind. -/
def sourcesBuilder (kind : ArtifactKind) : BuilderBehaviour κ := fun v =>
  queueSources v.artifact.data v.key (v.artifact.data.plan.ofKind kind)

/-! ## The list of what was generated -/

/-- What was generated, and from what. -/
structure Manifest where
  /-- The namespace of the project, in the form that names are made of. -/
  slug : String
  /-- The digest of the representation. -/
  fingerprint : String
  /-- The digest of each file. -/
  files : SortedMap String
  /-- The files of the run before that are produced no longer. -/
  stale : List String

/-- The list in JSON. -/
def Manifest.toJson (m : Manifest) : Json :=
  .object [("version", .int 1), ("namespace", .string m.slug),
    ("fingerprint", .string m.fingerprint), ("files", Json.ofMap Json.string m.files),
    ("stale", Json.strings m.stale)]

/-- The text of the list. -/
def Manifest.text (m : Manifest) : String := m.toJson.printIndented ++ "\n"

/-- The digests of planned sources. -/
def sourceHashes (d : Data) (builder : String) :
    List PlannedArtifact → SortedMap String → Except Failure (SortedMap String)
  | [], files => .ok files
  | e :: es, files =>
    match renderPlanned d e builder with
    | .error f => .error f
    | .ok none => sourceHashes d builder es files
    | .ok (some source) =>
      sourceHashes d builder es (files.insert e.path (contentHash source.toUTF8))

/-- Queues the list of what was generated, and warns of files that are produced no longer. -/
def manifestBuilder : BuilderBehaviour κ := fun v => do
  let d := v.artifact.data
  let files ← ExceptT.mk (pure (sourceHashes d v.key d.plan.entries .empty))
  let stale := v.options.previous.stale files.keys
  unless stale.isEmpty do
    BuilderProgram.warn v.scope "Previously generated files are no longer produced"
      (Json.obj [("stale", Json.strings stale)])
  match d.plan.ofKind .manifest with
  | [] => pure ()
  | target :: _ =>
    let m : Manifest := ⟨d.identity.slug, v.artifact.fingerprint, files, stale⟩
    BuilderProgram.queue ⟨target.path⟩ m.text.toUTF8

end StagedCodegen.Core
