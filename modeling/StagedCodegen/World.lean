import StagedCodegen.Attempt
import StagedCodegen.Diagnostic
import StagedCodegen.Digest.Blake3

/-!
# The state of a run

Everything that a run can change: the files, what was said to the user, what the file writer
remembers, and whatever state the clients keep among themselves.
-/

namespace StagedCodegen

/-! ## Records of writes -/

/-- What became of a write. -/
inductive WriteStatus where
  /-- The file has new contents. -/
  | written
  /-- The file had these contents already. -/
  | unchanged
  /-- The write was not carried out. -/
  | skipped
deriving DecidableEq, Repr

/-- The word for what became of a write. -/
def WriteStatus.text : WriteStatus → String
  | .written => "written"
  | .unchanged => "unchanged"
  | .skipped => "skipped"

/-- What a file writer says of one write. -/
structure WriteRecord where
  /-- The file. -/
  path : Path
  /-- What became of the write. -/
  status : WriteStatus
  /-- The digest of the contents. -/
  hash : String
  /-- Why the write was not carried out. -/
  reason : Option String
deriving DecidableEq, Repr

/-- A record in JSON. A reason is left out when there is none. -/
def WriteRecord.toJson (r : WriteRecord) : Json :=
  .object ([("path", .string r.path.text), ("status", .string r.status.text),
    ("hash", .string r.hash)] ++ (r.reason.map fun s => ("reason", Json.string s)).toList)

/-! ## The state -/

/-- The state of a run, with a part `κ` for the clients. -/
structure World (κ : Type) where
  /-- The files. -/
  disk : Disk
  /-- What was said to the user, the oldest first. -/
  diagnostics : List Diagnostic
  /-- What the file writer remembers. -/
  records : List WriteRecord
  /-- The state of the clients. -/
  client : κ

namespace World

variable {κ : Type}

/-- Say something to the user. -/
def say (w : World κ) (d : Diagnostic) : World κ :=
  { w with diagnostics := w.diagnostics ++ [d] }

/-- Warn the user. -/
def warn (w : World κ) (scope : Scope) (message : String) (context : Json) : World κ :=
  w.say (.warning scope message context)

/-- Tell the user of a failure. -/
def report (w : World κ) (scope : Scope) (f : Failure) : World κ := w.say (.ofFailure scope f)

end World

end StagedCodegen
