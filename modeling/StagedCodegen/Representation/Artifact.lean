import StagedCodegen.Representation.Codec
import StagedCodegen.Digest.Blake3
import StagedCodegen.Failure

/-!
# Artifacts

A finished representation together with the values that live only as long as the run does. What
leaves the run is a snapshot: the data alone, with the names of what was withheld. An artifact
takes new data from a snapshot and keeps its own attachments.
-/

namespace StagedCodegen

namespace Representation

/-- A value that is attached to an artifact and never written out. -/
inductive Attachment where
  /-- A number. -/
  | number (n : Int)
  /-- A text. -/
  | text (s : String)
deriving DecidableEq, Repr

/-- A finished representation. -/
structure Artifact where
  /-- The data. -/
  data : Data
  /-- How often the data was replaced since the artifact was made. -/
  edition : Nat
  /-- The values attached to it. -/
  attachments : SortedMap Attachment

/-- The only version of snapshots that can be read. -/
def snapshotVersion : Nat := 1

/-- The data of an artifact as others see it. -/
structure Snapshot where
  /-- The version of the form of the data. -/
  version : Nat
  /-- The data. -/
  data : Data
  /-- The names of the attachments that were withheld. -/
  stripped : List String

namespace Artifact

/-- A new artifact without attachments. -/
def new (data : Data) : Artifact := ⟨data, 0, .empty⟩

/-- The artifact with other data. -/
def withData (a : Artifact) (data : Data) : Artifact :=
  { a with data := data, edition := a.edition + 1 }

/-- What others see of the artifact. -/
def snapshot (a : Artifact) : Snapshot := ⟨snapshotVersion, a.data, a.attachments.keys⟩

/-- The artifact with the data of a snapshot. -/
def applySnapshot (a : Artifact) (s : Snapshot) : Except Failure Artifact :=
  if s.version = snapshotVersion then .ok (a.withData s.data)
  else .error (.snapshotVersion snapshotVersion s.version)

/-- The data in compact JSON. -/
def bytes (a : Artifact) : ByteArray := a.data.toJson.print.toUTF8

/-- The digest of the data. -/
def fingerprint (a : Artifact) : String := Digest.Blake3.hex a.bytes

/-- The data was not replaced between the two artifacts, of which one was made from the other. -/
def sameData (a b : Artifact) : Bool := a.edition == b.edition

end Artifact

/-- A snapshot in JSON. -/
def Snapshot.toJson (s : Snapshot) : Json :=
  .object [("version", .int s.version), ("data", s.data.toJson),
    ("stripped", Json.strings s.stripped)]

/-- The snapshot that a JSON value gives. -/
def Snapshot.ofJson? (v : Json) : Option Snapshot := do
  match ← v.fields? true ["version", "data", "stripped"] with
  | [version, data, stripped] =>
    return {
      version := ← Json.required (Json.natBelow? (Nat.pow 2 32)) version
      data := ← Json.required Data.ofJson? data
      stripped := ← Json.defaulted (Json.list? Json.string?) [] stripped }
  | _ => none

end Representation

end StagedCodegen
