import StagedCodegen.Representation.Data
import StagedCodegen.Json.Record
import StagedCodegen.Json.Printer

/-!
# The representation in JSON

How each part of the representation is written as JSON and read from it. The members of an object
stand in the order of the fields, and a resource or capability that is none is left out.
-/

namespace StagedCodegen

namespace Representation

/-- A member that is left out when there is nothing to say. -/
def memberIfSome (name : String) : Option String → List (String × Json)
  | none => []
  | some s => [(name, .string s)]

/-! ## Writing -/

/-- The identity in JSON. -/
def Meta.toJson (m : Meta) : Json :=
  .object [("namespace", .string m.title), ("sanitized_namespace", .string m.slug),
    ("version", .string m.version), ("origin", .string m.origin),
    ("source_path", .string m.sourcePath)]

/-- The words for where a capability was found. -/
def capabilitySources : List (String × CapabilitySource) :=
  [("config", .configured), ("default", .fallback)]

/-- The word for where a capability was found. -/
def CapabilitySource.text : CapabilitySource → String
  | .configured => "config"
  | .fallback => "default"

/-- The capability behind a key in JSON. -/
def CapabilityEntry.toJson (e : CapabilityEntry) : Json :=
  .object [("capability", .string e.capability), ("source", .string e.source.text)]

/-- The capabilities in JSON. -/
def CapabilityMap.toJson (m : CapabilityMap) : Json :=
  .object [("entries", Json.ofMap CapabilityEntry.toJson m.entries),
    ("missing", Json.strings m.missing)]

/-- The directories in JSON. -/
def Layout.toJson (l : Layout) : Json :=
  .object [("output_dir", .string l.outputDir), ("php_dir", .string l.phpDir),
    ("ts_dir", .string l.tsDir)]

/-- The words for kinds of files. -/
def artifactKinds : List (String × ArtifactKind) :=
  [("php-controller", .phpController), ("ts-client", .tsClient), ("manifest", .manifest)]

/-- The word for a kind of file. -/
def ArtifactKind.text : ArtifactKind → String
  | .phpController => "php-controller"
  | .tsClient => "ts-client"
  | .manifest => "manifest"

/-- A planned file in JSON. -/
def PlannedArtifact.toJson (e : PlannedArtifact) : Json :=
  .object ([("id", .string e.id), ("kind", .string e.kind.text), ("path", .string e.path)] ++
    memberIfSome "resource" e.resource)

/-- The plan in JSON. -/
def ArtifactPlan.toJson (p : ArtifactPlan) : Json :=
  .object [("entries", .array (p.entries.map PlannedArtifact.toJson))]

/-- A resource in JSON. -/
def Resource.toJson (r : Resource) : Json :=
  .object ([("name", .string r.name), ("route", .string r.route)] ++
    memberIfSome "capability" r.capability)

/-- The whole representation in JSON. -/
def Data.toJson (d : Data) : Json :=
  .object [("meta", d.identity.toJson), ("capability_map", d.capabilityMap.toJson),
    ("layout", d.layout.toJson), ("artifact_plan", d.plan.toJson),
    ("resources", .array (d.resources.map Resource.toJson)),
    ("extras", Json.ofMap id d.extras)]

/-! ## Reading -/

/-- The identity that a JSON value gives. -/
def Meta.ofJson? (v : Json) : Option Meta := do
  match ← v.fields? true ["namespace", "sanitized_namespace", "version", "origin",
    "source_path"] with
  | [title, slug, version, origin, sourcePath] =>
    return {
      title := ← Json.required Json.string? title
      slug := ← Json.required Json.string? slug
      version := ← Json.required Json.string? version
      origin := ← Json.required Json.string? origin
      sourcePath := ← Json.required Json.string? sourcePath }
  | _ => none

/-- The capability behind a key that a JSON value gives. -/
def CapabilityEntry.ofJson? (v : Json) : Option CapabilityEntry := do
  match ← v.fields? true ["capability", "source"] with
  | [capability, source] =>
    return {
      capability := ← Json.required Json.string? capability
      source := ← Json.required (Json.choice? capabilitySources) source }
  | _ => none

/-- The capabilities that a JSON value gives. -/
def CapabilityMap.ofJson? (v : Json) : Option CapabilityMap := do
  match ← v.fields? true ["entries", "missing"] with
  | [entries, missing] =>
    return {
      entries := ← Json.required (Json.map? CapabilityEntry.ofJson?) entries
      missing := ← Json.defaulted (Json.list? Json.string?) [] missing }
  | _ => none

/-- The directories that a JSON value gives. -/
def Layout.ofJson? (v : Json) : Option Layout := do
  match ← v.fields? true ["output_dir", "php_dir", "ts_dir"] with
  | [outputDir, phpDir, tsDir] =>
    return {
      outputDir := ← Json.required Json.string? outputDir
      phpDir := ← Json.required Json.string? phpDir
      tsDir := ← Json.required Json.string? tsDir }
  | _ => none

/-- The planned file that a JSON value gives. -/
def PlannedArtifact.ofJson? (v : Json) : Option PlannedArtifact := do
  match ← v.fields? true ["id", "kind", "path", "resource"] with
  | [name, kind, path, resource] =>
    return {
      id := ← Json.required Json.string? name
      kind := ← Json.required (Json.choice? artifactKinds) kind
      path := ← Json.required Json.string? path
      resource := ← Json.optional Json.string? resource }
  | _ => none

/-- The plan that a JSON value gives. -/
def ArtifactPlan.ofJson? (v : Json) : Option ArtifactPlan := do
  match ← v.fields? true ["entries"] with
  | [entries] => return ⟨← Json.required (Json.list? PlannedArtifact.ofJson?) entries⟩
  | _ => none

/-- The resource that a JSON value gives. -/
def Resource.ofJson? (v : Json) : Option Resource := do
  match ← v.fields? true ["name", "route", "capability"] with
  | [name, route, capability] =>
    return {
      name := ← Json.required Json.string? name
      route := ← Json.required Json.string? route
      capability := ← Json.optional Json.string? capability }
  | _ => none

/-- The whole representation that a JSON value gives. -/
def Data.ofJson? (v : Json) : Option Data := do
  match ← v.fields? true
      ["meta", "capability_map", "layout", "artifact_plan", "resources", "extras"] with
  | [identity, capabilityMap, layout, plan, resources, extras] =>
    return {
      identity := ← Json.required Meta.ofJson? identity
      capabilityMap := ← Json.required CapabilityMap.ofJson? capabilityMap
      layout := ← Json.required Layout.ofJson? layout
      plan := ← Json.required ArtifactPlan.ofJson? plan
      resources := ← Json.required (Json.list? Resource.ofJson?) resources
      extras := ← Json.defaulted (Json.map? fun v => some v.canonical) SortedMap.empty extras }
  | _ => none

end Representation

end StagedCodegen
