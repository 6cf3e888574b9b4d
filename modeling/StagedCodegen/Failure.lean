import StagedCodegen.Disk
import StagedCodegen.Json

/-!
# Failures

Everything that can go wrong in a run, one constructor per cause, each carrying what its text and
its machine-readable context are made of. Callers' own errors come in as a `Report`, a cause under
any number of layers of context; `Report.normalize` finds the failure that such a report stands for.
-/

namespace StagedCodegen

/-- The two kinds of helper, each with a surface of its own to register on. -/
inductive HelperKind where
  /-- Fills the draft. -/
  | fragment
  /-- Queues writes. -/
  | builder
deriving DecidableEq, Repr

/-- The word for a kind of helper. -/
def HelperKind.text : HelperKind → String
  | .fragment => "fragment"
  | .builder => "builder"

/-- Who has to act on a failure. -/
inductive Blame where
  /-- Whoever wrote the settings or registered the helpers. -/
  | validation
  /-- Whoever wrote an adapter. -/
  | developer
  /-- Whoever looks after the machine. -/
  | environmental
  /-- Nobody in particular. -/
  | unknown
deriving DecidableEq, Repr

/-- The short name, as diagnostics hold it. -/
def Blame.label : Blame → String
  | .validation => "Validation"
  | .developer => "Developer"
  | .environmental => "Environmental"
  | .unknown => "Unknown"

/-- The long name, as people see it. -/
def Blame.title (b : Blame) : String := b.label ++ "Error"

mutual
/-- A cause of failure. -/
inductive Failure where
  /-- A helper was registered on the surface of the other kind. -/
  | kindMismatch (key : String) (expected actual : HelperKind)
  /-- A helper's key is blank. -/
  | emptyKey (kind : HelperKind)
  /-- A fragment key is overridden a second time. -/
  | overrideConflict (key existing attempted : String)
  /-- Fragments depend on one another in a circle; the first key closes it. -/
  | dependencyCycle (keys : List String)
  /-- A fragment depends on a key that no active fragment has. -/
  | unknownDependency (key dependency : String)
  /-- A required family has members and none of them ran. -/
  | familyNotExecuted (family : String) (registered : List String)
  /-- The draft was finished without a field. -/
  | missingField (field : String)
  /-- A field of the draft belongs to somebody else. -/
  | fieldConflict (field owner writer : String)
  /-- The adapters do not fit together. -/
  | invalidAdapter (message : String)
  /-- A snapshot has a version that cannot be read. -/
  | snapshotVersion (expected actual : Nat)
  /-- A path leads out of its boundary. -/
  | pathEscape (path boundary : Path)
  /-- A helper refused its input. -/
  | rejected (key message : String)
  /-- The settings cannot be used. -/
  | settings (message : String)
  /-- A file operation failed at a path. -/
  | io (path : Path) (error : IoError)
  /-- A file operation failed during some activity. -/
  | environment (message : String) (error : IoError)
  /-- A text could not be read as what it should hold. -/
  | serialization (message : String)
  /-- A caller's own error. -/
  | external (report : Report)
/-- A caller's error: a cause under layers of context. -/
inductive Report where
  /-- A failure of this library. -/
  | failure (f : Failure)
  /-- A file operation that failed. -/
  | io (e : IoError)
  /-- Anything else. -/
  | text (s : String)
  /-- A report with something said about it. -/
  | context (message : String) (inner : Report)
end

instance : Inhabited Failure := ⟨.missingField ""⟩
instance : Inhabited Report := ⟨.text ""⟩

/-! ## Texts -/

mutual
/-- The text of a failure. -/
def Failure.message : (f : Failure) → String
  | .kindMismatch key expected actual =>
    "Helper '" ++ key ++ "' is a " ++ actual.text ++ " helper and cannot be registered on the " ++
      expected.text ++ " surface"
  | .emptyKey kind => kind.text ++ " helper key cannot be empty"
  | .overrideConflict key existing attempted =>
    "Override conflict for fragment '" ++ key ++ "': already overridden by " ++ existing ++
      ", attempted again by " ++ attempted
  | .dependencyCycle keys =>
    "Fragment dependency cycle detected: " ++ Text.joinTexts " -> " keys
  | .unknownDependency key dependency =>
    "Fragment '" ++ key ++ "' depends on unknown fragment '" ++ dependency ++ "'"
  | .familyNotExecuted family registered =>
    "Required fragment family '" ++ family ++ "' was registered (" ++
      Text.joinTexts ", " registered ++ ") but no helper in it executed"
  | .missingField field => "IR draft is missing required field '" ++ field ++ "'"
  | .fieldConflict field owner writer =>
    "Fragment '" ++ writer ++ "' cannot assign '" ++ field ++ "': field is owned by '" ++ owner ++
      "'"
  | .invalidAdapter message => "Invalid adapter extension: " ++ message
  | .snapshotVersion expected actual =>
    "IR snapshot version " ++ toString actual ++ " is not supported (expected " ++
      toString expected ++ ")"
  | .pathEscape path boundary =>
    "Adapter extensions must write inside " ++ boundary.text ++ ": " ++ path.text ++
      " resolves outside it"
  | .rejected key message => "Helper '" ++ key ++ "' failed: " ++ message
  | .settings message => "Configuration error: " ++ message
  | .io path e => "I/O error at " ++ path.text ++ ": " ++ e.text
  | .environment message e => message ++ ": " ++ e.text
  | .serialization message => "Serialization error: " ++ message
  | .external report => report.message
termination_by structural f => f
/-- The outermost layer of a report. -/
def Report.message : (r : Report) → String
  | .failure f => f.message
  | .io e => e.text
  | .text s => s
  | .context message _ => message
termination_by structural r => r
end

mutual
/-- The text of a failure, and then the texts of what caused it. -/
def Failure.layers : (f : Failure) → List String
  | .io path e => [(Failure.io path e).message, e.text]
  | .environment message e => [(Failure.environment message e).message, e.text]
  | .serialization message => [(Failure.serialization message).message, message]
  | .external report => report.layers
  | .kindMismatch key expected actual => [(Failure.kindMismatch key expected actual).message]
  | .emptyKey kind => [(Failure.emptyKey kind).message]
  | .overrideConflict key existing attempted =>
    [(Failure.overrideConflict key existing attempted).message]
  | .dependencyCycle keys => [(Failure.dependencyCycle keys).message]
  | .unknownDependency key dependency => [(Failure.unknownDependency key dependency).message]
  | .familyNotExecuted family registered => [(Failure.familyNotExecuted family registered).message]
  | .missingField field => [(Failure.missingField field).message]
  | .fieldConflict field owner writer => [(Failure.fieldConflict field owner writer).message]
  | .invalidAdapter message => [(Failure.invalidAdapter message).message]
  | .snapshotVersion expected actual => [(Failure.snapshotVersion expected actual).message]
  | .pathEscape path boundary => [(Failure.pathEscape path boundary).message]
  | .rejected key message => [(Failure.rejected key message).message]
  | .settings message => [(Failure.settings message).message]
termination_by structural f => f
/-- All layers of a report, the outermost one first. -/
def Report.layers : (r : Report) → List String
  | .failure f => f.layers
  | .io e => [e.text]
  | .text s => [s]
  | .context message inner => message :: inner.layers
termination_by structural r => r
end

/-- The layers of a report in one line. -/
def Report.fullText (r : Report) : String := Text.joinTexts ": " r.layers

/-! ## Classification -/

/-- Who has to act on a failure. -/
def Failure.blame : Failure → Blame
  | .kindMismatch .. | .emptyKey .. | .overrideConflict .. | .dependencyCycle ..
  | .unknownDependency .. | .familyNotExecuted .. | .missingField .. | .fieldConflict ..
  | .rejected .. | .settings .. => .validation
  | .invalidAdapter .. | .snapshotVersion .. | .pathEscape .. => .developer
  | .io .. | .environment .. => .environmental
  | .serialization .. | .external .. => .unknown

/-- What a program can use of a failure. -/
def Failure.context : Failure → Json
  | .kindMismatch key expected actual =>
    Json.obj [("key", .string key), ("expected", .string expected.text),
      ("actual", .string actual.text)]
  | .emptyKey kind => Json.obj [("kind", .string kind.text)]
  | .overrideConflict key existing attempted =>
    Json.obj [("key", .string key), ("origins", Json.strings [existing, attempted])]
  | .dependencyCycle keys => Json.obj [("keys", Json.strings keys)]
  | .unknownDependency key dependency =>
    Json.obj [("key", .string key), ("dependency", .string dependency)]
  | .familyNotExecuted family registered =>
    Json.obj [("family", .string family), ("registered", Json.strings registered)]
  | .missingField field => Json.obj [("field", .string field)]
  | .fieldConflict field owner writer =>
    Json.obj [("field", .string field), ("owner", .string owner), ("writer", .string writer)]
  | .pathEscape path boundary =>
    Json.obj [("path", .string path.text), ("boundary", .string boundary.text)]
  | .rejected key _ => Json.obj [("key", .string key)]
  | .io path _ => Json.obj [("path", .string path.text)]
  | .snapshotVersion expected actual =>
    Json.obj [("expected", .int expected), ("actual", .int actual)]
  | .invalidAdapter _ | .settings _ | .environment .. | .serialization _ | .external _ =>
    Json.obj []

/-! ## Callers' reports -/

/-- What a report is about, all context aside. -/
def Report.cause : (r : Report) → Report
  | .context _ inner => inner.cause
  | r => r
termination_by structural r => r

/-- The failure that a report stands for. A failure of this library comes through unchanged, and a
failed file operation becomes one of the environment; context does not hide either of them. Any
other report stays what it is, with all its context. -/
def Report.normalize (r : Report) : Failure :=
  match r.cause with
  | .failure f => f
  | .io e => .environment "I/O failure" e
  | _ => .external r

end StagedCodegen
