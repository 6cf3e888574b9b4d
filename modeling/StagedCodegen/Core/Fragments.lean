import StagedCodegen.Core.Source
import StagedCodegen.Run.Fragments

/-!
# The core fragments

They fill every field of a draft from the options and the settings: the identity, the directories,
the resources, the capabilities behind the keys that resources name, and the plan of the files.
-/

namespace StagedCodegen.Core

open StagedCodegen.Representation

variable {κ : Type}

/-! ## Identity -/

/-- The identity of a project, unless its namespace has no word in it. -/
def identity (o : RunOptions) (key : String) : Except Failure Meta :=
  let title := if Text.isBlankText o.title then o.settings.project.title else o.title
  let slug := Text.slug title
  if slug = "" then
    .error (.rejected key ("namespace '" ++ title ++ "' has no usable characters"))
  else .ok ⟨title, slug, o.settings.project.version, o.origin, o.sourcePath.text⟩

/-- Says who the project is. -/
def identityFragment : FragmentBehaviour κ := fun v => do
  FragmentProgram.assign (.identity (← ExceptT.mk (pure (identity v.options v.key))))

/-! ## Directories -/

/-- The text without slashes at its end. -/
def dropEndSlashes (s : String) : String := String.ofList (Text.dropEndWhile (· == '/') s.toList)

/-- The text without slashes at its ends. -/
def trimSlashes (s : String) : String := String.ofList (Text.trimWhile (· == '/') s.toList)

/-- The directories that the settings name. -/
def layout (o : Settings.Output) : Layout :=
  ⟨dropEndSlashes o.dir, trimSlashes o.phpDir, trimSlashes o.tsDir⟩

/-- Says where output goes. -/
def layoutFragment : FragmentBehaviour κ := fun v =>
  FragmentProgram.assign (.layout (layout v.options.settings.output))

/-! ## Resources -/

/-- Give resources, one after another. -/
def giveResources : List Resource → FragmentProgram κ Unit
  | [] => pure ()
  | r :: rs => do
    FragmentProgram.assign (.resource r)
    giveResources rs

/-- Gives the resources of the settings. -/
def resourcesFragment : FragmentBehaviour κ := fun v =>
  giveResources v.options.settings.project.resources

/-! ## Capabilities -/

/-- The keys of capabilities that resources name, each once, in order. -/
def capabilityKeys (rs : List Resource) : List String :=
  (rs.filterMap (·.capability)).eraseDups

/-- The capability behind a key. -/
def capabilityEntry (configured : SortedMap String) (key : String) : CapabilityEntry :=
  match configured.get? key with
  | some capability => ⟨capability, .configured⟩
  | none => ⟨usualCapability, .fallback⟩

/-- The capabilities behind keys. -/
def capabilityMap (configured : SortedMap String) (keys : List String) : CapabilityMap :=
  ⟨.ofList (keys.map fun key => (key, capabilityEntry configured key)),
    keys.filter fun key => !configured.contains key⟩

/-- Warn the user of each key for which nothing is configured. -/
def warnOfMissing (scope : Scope) : (missing : List String) → FragmentProgram κ Unit
  | [] => pure ()
  | key :: rest => do
    FragmentProgram.warn scope "Capability key is not mapped, using default"
      (Json.obj [("key", .string key), ("default", .string usualCapability)])
    warnOfMissing scope rest

/-- Gives the capabilities behind the keys that resources name. -/
def capabilitiesFragment : FragmentBehaviour κ := fun v => do
  let d ← FragmentProgram.look
  let m := capabilityMap v.options.settings.project.capabilities
    (capabilityKeys d.resources.values)
  warnOfMissing v.scope m.missing
  FragmentProgram.assign (.capabilityMap m)

/-! ## The plan -/

/-- The file that lists what was generated. -/
def manifestFile : String := "manifest.json"

/-- The controller of a resource, as it is planned. -/
def plannedController (l : Layout) (name : String) : PlannedArtifact :=
  ⟨"php-controller:" ++ name, .phpController, l.phpPath (phpControllerFile name), some name⟩

/-- The client of a resource, as it is planned. -/
def plannedClient (l : Layout) (name : String) : PlannedArtifact :=
  ⟨"ts-client:" ++ name, .tsClient, l.tsPath (tsClientFile name), some name⟩

/-- The list of what was generated, as it is planned. -/
def plannedManifest (l : Layout) : PlannedArtifact :=
  ⟨"manifest", .manifest, l.rootPath manifestFile, none⟩

/-- All controllers, then all clients, then the list of both. -/
def plan (l : Layout) (names : List String) : ArtifactPlan :=
  ⟨names.map (plannedController l) ++ names.map (plannedClient l) ++ [plannedManifest l]⟩

/-- Plans the files. -/
def planFragment : FragmentBehaviour κ := fun v => do
  let d ← FragmentProgram.look
  match d.layout with
  | none => throw (.rejected v.key "layout must be assigned before planning artifacts")
  | some l => FragmentProgram.assign (.plan (plan l d.resources.keys))

end StagedCodegen.Core
