import StagedCodegen.Containment
import StagedCodegen.World

/-!
# Writing files

A file writer is whatever takes contents for a path and says what became of them. The one that
works on the disk leaves files alone that have the right contents already, replaces others by way
of a neighbour, so that no reader sees half a file, and remembers the last record of every path.

Writes that were queued are applied under a root: first all paths are resolved, and only when none
of them leads out of it is anything written.
-/

namespace StagedCodegen

/-- Something that writes files, working on the state `σ`. -/
structure FileWriter (σ : Type) where
  /-- Write contents to a path. -/
  write : Path → ByteArray → Act σ WriteRecord

/-- A write that waits to be applied. -/
structure QueuedWrite where
  /-- Where it goes, seen from the root of the workspace. -/
  path : Path
  /-- What is to be written. -/
  contents : ByteArray
  /-- The key of the helper that queued it. -/
  origin : String

/-! ## Summaries -/

/-- Add a record in place of the earlier one of the same path, if there is one. -/
def remember (r : WriteRecord) : List WriteRecord → List WriteRecord
  | [] => [r]
  | s :: rest => if s.path.same r.path then r :: rest else s :: remember r rest

/-- What a writer says of all its writes. -/
structure WriteSummary where
  /-- One record for each path. -/
  records : List WriteRecord
  /-- How many files have new contents. -/
  written : Nat
  /-- How many had their contents already. -/
  unchanged : Nat
  /-- How many writes were not carried out. -/
  skipped : Nat
deriving DecidableEq, Repr

namespace WriteSummary

/-- The summary of some records. -/
def ofRecords (rs : List WriteRecord) : WriteSummary :=
  let count (s : WriteStatus) := rs.countP (·.status = s)
  ⟨rs, count .written, count .unchanged, count .skipped⟩

/-- The record of a path. -/
def record? (s : WriteSummary) (p : Path) : Option WriteRecord :=
  s.records.find? (·.path.same p)

/-- Nothing was written. -/
def isEmpty (s : WriteSummary) : Bool := s.records.isEmpty

/-- A summary in JSON. -/
def toJson (s : WriteSummary) : Json :=
  .object [("records", .array (s.records.map WriteRecord.toJson)), ("written", .int s.written),
    ("unchanged", .int s.unchanged), ("skipped", .int s.skipped)]

end WriteSummary

/-! ## The writer on the disk -/

/-- The digest of contents. -/
def contentHash (contents : ByteArray) : String := Digest.Blake3.hex contents

/-- The neighbour of a file that is written first. -/
def temporaryPath (p : Path) : Path :=
  p.withFileName ((p.fileName?).getD "" ++ ".genpipe.tmp")

/-- Make the directory of a file, with those above it. -/
def Disk.makeRoomFor (d : Disk) (p : Path) : Except Failure Unit × Disk :=
  match p.parent? with
  | none => (.ok (), d)
  | some parent =>
    match d.makeDirs parent with
    | (.ok (), d) => (.ok (), d)
    | (.error e, d) => (.error (.io parent e), d)

/-- Replace a file by way of its neighbour. -/
def Disk.replace (d : Disk) (p : Path) (contents : ByteArray) : Except Failure Unit × Disk :=
  match d.makeRoomFor p with
  | (.error f, d) => (.error f, d)
  | (.ok (), d) =>
    let temporary := temporaryPath p
    match d.write temporary contents with
    | .error e => (.error (.io temporary e), d)
    | .ok d =>
      match d.rename temporary p with
      | .ok d => (.ok (), d)
      | .error e =>
        match d.unlink temporary with
        | .ok d => (.error (.io p e), d)
        | .error _ => (.error (.io p e), d)

namespace World

variable {κ : Type}

/-- The record of a write, and the state in which the writer remembers it. -/
def noted (w : World κ) (r : WriteRecord) : Except Failure WriteRecord × World κ :=
  (.ok r, { w with records := remember r w.records })

/-- Write a file on the disk, or with `dryRun` say what would be written. -/
def writeFile (dryRun : Bool) (p : Path) (contents : ByteArray) : Act (World κ) WriteRecord :=
  fun w =>
    let hash := contentHash contents
    match w.disk.read p with
    | .error e =>
      if e.kind = .notFound then change w hash else (.error (.io p e), w)
    | .ok existing =>
      if contentHash existing = hash then w.noted ⟨p, .unchanged, hash, none⟩
      else change w hash
where
  /-- Write contents that the file does not have. -/
  change (w : World κ) (hash : String) : Except Failure WriteRecord × World κ :=
    if dryRun then w.noted ⟨p, .skipped, hash, some "dry-run"⟩
    else match w.disk.replace p contents with
      | (.ok (), d) => { w with disk := d }.noted ⟨p, .written, hash, none⟩
      | (.error f, d) => (.error f, { w with disk := d })

/-- What the writer says of all its writes. -/
def summary (w : World κ) : WriteSummary := .ofRecords w.records

end World

/-- The writer that works on the disk. -/
def diskWriter {κ : Type} (dryRun : Bool) : FileWriter (World κ) := ⟨World.writeFile dryRun⟩

/-! ## Applying queued writes -/

/-- Where all queued writes go, none of which may lead out of the root. -/
def targets (d : Disk) (root : Path) : List QueuedWrite → Except Failure (List Path)
  | [] => .ok []
  | q :: qs =>
    match d.resolveWithin root q.path with
    | .error f => .error f
    | .ok p =>
      match targets d root qs with
      | .error f => .error f
      | .ok ps => .ok (p :: ps)

/-- Write contents to paths, one after another. -/
def FileWriter.writeAll {σ : Type} (writer : FileWriter σ) :
    List (Path × ByteArray) → Act σ (List WriteRecord)
  | [] => pure []
  | (p, contents) :: rest => do
    let r ← writer.write p contents
    let rs ← writer.writeAll rest
    return r :: rs

/-- Apply queued writes under a root. -/
def FileWriter.apply {κ : Type} (writer : FileWriter (World κ)) (root : Path)
    (writes : List QueuedWrite) : Act (World κ) (List WriteRecord) := fun w =>
  match targets w.disk root writes with
  | .error f => (.error f, w)
  | .ok ps => writer.writeAll (ps.zip (writes.map (·.contents))) w

end StagedCodegen
