import StagedCodegen.Settings
import StagedCodegen.Json.Record

/-!
# Settings as values

How settings are read from a tree of values and written as one. Where the values come from texts
that know only a few kinds of them, a `Coercion` says what else counts as a text or a truth value.
-/

namespace StagedCodegen

/-- What counts as a text, a truth value and a list of fields. -/
structure Coercion where
  /-- The text that a value stands for. -/
  text? : Json → Option String
  /-- The truth value that a value stands for. -/
  truth? : Json → Option Bool
  /-- A list of fields must not be longer than there are fields. -/
  exact : Bool

/-- Nothing stands for anything but itself. -/
def Coercion.strict : Coercion := ⟨Json.string?, Json.bool?, true⟩

namespace Settings

/-! ## Reading -/

/-- A map of texts. -/
def texts? (c : Coercion) (v : Json) : Option (SortedMap String) := Json.map? c.text? v

/-- The resource that a value gives. -/
def resource? (c : Coercion) (v : Json) : Option Representation.Resource := do
  match ← v.fields? c.exact ["name", "route", "capability"] with
  | [name, route, capability] =>
    return {
      name := ← Json.required c.text? name
      route := ← Json.required c.text? route
      capability := ← Json.optional c.text? capability }
  | _ => none

/-- The project that a value gives. -/
def Project.ofJson? (c : Coercion) (v : Json) : Option Project := do
  match ← v.fields? c.exact ["namespace", "version", "resources", "capabilities"] with
  | [title, version, resources, capabilities] =>
    return {
      title := ← Json.defaulted c.text? usual.title title
      version := ← Json.defaulted c.text? usual.version version
      resources := ← Json.defaulted (Json.list? (resource? c)) usual.resources resources
      capabilities := ← Json.defaulted (texts? c) usual.capabilities capabilities }
  | _ => none

/-- The directories that a value gives. -/
def Output.ofJson? (c : Coercion) (v : Json) : Option Output := do
  match ← v.fields? c.exact ["dir", "php_dir", "ts_dir"] with
  | [dir, phpDir, tsDir] =>
    return {
      dir := ← Json.defaulted c.text? usual.dir dir
      phpDir := ← Json.defaulted c.text? usual.phpDir phpDir
      tsDir := ← Json.defaulted c.text? usual.tsDir tsDir }
  | _ => none

/-- The way of generation that a value gives. -/
def Generation.ofJson? (c : Coercion) (v : Json) : Option Generation := do
  match ← v.fields? c.exact ["dry_run", "required_families"] with
  | [dryRun, families] =>
    return {
      dryRun := ← Json.defaulted c.truth? usual.dryRun dryRun
      requiredFamilies := ← Json.defaulted (Json.list? c.text?) usual.requiredFamilies families }
  | _ => none

/-- The logging that a value gives. -/
def Logging.ofJson? (c : Coercion) (v : Json) : Option Logging := do
  match ← v.fields? c.exact
      ["enabled", "level", "format", "output", "file", "color", "modules"] with
  | [enabled, level, format, output, file, color, modules] =>
    return {
      enabled := ← Json.defaulted c.truth? usual.enabled enabled
      level := ← Json.defaulted c.text? usual.level level
      format := ← Json.defaulted c.text? usual.format format
      output := ← Json.defaulted c.text? usual.output output
      file := ← Json.defaulted (fun v => (c.text? v).map Path.mk) usual.file file
      color := ← Json.defaulted c.truth? usual.color color
      modules := ← Json.defaulted (texts? c) usual.modules modules }
  | _ => none

/-- The settings that a value gives. -/
def ofJson? (c : Coercion) (v : Json) : Option Settings := do
  match ← v.fields? c.exact ["project", "output", "generation", "logging"] with
  | [project, output, generation, logging] =>
    return {
      project := ← Json.defaulted (Project.ofJson? c) usual.project project
      output := ← Json.defaulted (Output.ofJson? c) usual.output output
      generation := ← Json.defaulted (Generation.ofJson? c) usual.generation generation
      logging := ← Json.defaulted (Logging.ofJson? c) usual.logging logging }
  | _ => none

/-! ## Writing -/

/-- A resource as a value. -/
def resourceToJson (r : Representation.Resource) : Json :=
  .object [("name", .string r.name), ("route", .string r.route),
    ("capability", Json.ofString? r.capability)]

/-- The project as a value. -/
def Project.toJson (p : Project) : Json :=
  .object [("namespace", .string p.title), ("version", .string p.version),
    ("resources", .array (p.resources.map resourceToJson)),
    ("capabilities", Json.ofMap Json.string p.capabilities)]

/-- The directories as a value. -/
def Output.toJson (o : Output) : Json :=
  .object [("dir", .string o.dir), ("php_dir", .string o.phpDir), ("ts_dir", .string o.tsDir)]

/-- The way of generation as a value. -/
def Generation.toJson (g : Generation) : Json :=
  .object [("dry_run", .bool g.dryRun), ("required_families", Json.strings g.requiredFamilies)]

/-- The logging as a value. -/
def Logging.toJson (l : Logging) : Json :=
  .object [("enabled", .bool l.enabled), ("level", .string l.level), ("format", .string l.format),
    ("output", .string l.output), ("file", .string l.file.text), ("color", .bool l.color),
    ("modules", Json.ofMap Json.string l.modules)]

/-- The settings as a value. -/
def toJson (s : Settings) : Json :=
  .object [("project", s.project.toJson), ("output", s.output.toJson),
    ("generation", s.generation.toJson), ("logging", s.logging.toJson)]

end Settings

end StagedCodegen
