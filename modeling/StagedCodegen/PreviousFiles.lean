import StagedCodegen.Failure
import StagedCodegen.Json.Parser
import StagedCodegen.Json.Record

/-!
# What the run before produced

Each run leaves a list of the files that it produced. The next one reads it, to see which of them
are produced no longer.
-/

namespace StagedCodegen

/-- The files that the run before produced, each with the digest of its contents. -/
structure PreviousFiles where
  /-- The digest of each file. -/
  files : SortedMap String
deriving DecidableEq

namespace PreviousFiles

/-- There was no run before. -/
def none : PreviousFiles := ⟨.empty⟩

/-- The files that a JSON value lists. -/
def ofJson? (v : Json) : Option PreviousFiles := do
  match ← v.fields? true ["files"] with
  | [files] => return ⟨← Json.defaulted (Json.map? Json.string?) .empty files⟩
  | _ => Option.none

/-- The files that a file lists. A file that does not exist lists none. -/
def load (d : Disk) (p : Path) : Except Failure PreviousFiles :=
  if d.exists_ p then
    match d.read p with
    | .error e => .error (.io p e)
    | .ok contents =>
      match (String.fromUTF8? contents).bind fun s => (Json.parse? s).bind ofJson? with
      | some previous => .ok previous
      | Option.none => .error (.serialization "the list of files cannot be read")
  else .ok none

/-- The files that are not among the current ones. -/
def stale (previous : PreviousFiles) (current : List String) : List String :=
  previous.files.keys.filter fun p => !current.contains p

end PreviousFiles

end StagedCodegen
