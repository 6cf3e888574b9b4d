import StagedCodegen.Json.Printer
import StagedCodegen.Pipeline
import StagedCodegen.Settings.Validation
import StagedCodegen.Terminal.Style
import StagedCodegen.Terminal.Table

/-!
# What the user sees

The texts in which schedules, summaries of writes, the results of validation and failures are
shown on a terminal.
-/

namespace StagedCodegen

open Terminal

namespace Presentation

/-- The heading of a section. -/
def heading (title : String) : String := underlined (bold title)

/-! ## Failures -/

/-- A failure in one line, after the kind of those who have to act on it. -/
def failure (f : Failure) : String :=
  bold (red ("[" ++ f.blame.title ++ "]")) ++ " " ++ f.message

/-! ## Schedules -/

/-- The cells of a list, each row after its number. -/
def numbered (rows : List (List String)) : List (List String) :=
  rows.zipIdx.map fun (row, i) => toString (i + 1) :: row

/-- Where a helper comes from, as it stands in a table. -/
def originCell (origin : Option String) : String := origin.getD "-"

/-- The table of fragments. -/
def fragmentTable (fs : List FragmentEntry) : Table :=
  ⟨["#", "Key", "Mode", "Depends on", "Origin"], numbered (fs.map fun f =>
    [f.key, f.mode.text, Text.joinTexts ", " f.dependsOn, originCell f.origin])⟩

/-- The table of builders. -/
def builderTable (bs : List BuilderEntry) : Table :=
  ⟨["#", "Key", "Priority", "Origin"], numbered (bs.map fun b =>
    [b.key, toString b.priority, originCell b.origin])⟩

/-- A list of keys after a title, if there are any. -/
def keysIfAny (opening closing : String) (keys : List String) : String :=
  if keys.isEmpty then "" else opening ++ Text.joinTexts ", " keys ++ closing

/-- A schedule. -/
def plan (s : PipelineSchedule) : String :=
  heading "Fragments" ++ "\n\n" ++ (fragmentTable s.fragments).text ++ "\n\n" ++
    keysIfAny "Superseded by override: " "\n\n" s.superseded ++
    heading "Builders" ++ "\n\n" ++ (builderTable s.builders).text ++ "\n" ++
    keysIfAny "\nExtensions: " "\n" s.extensions

/-- A schedule for programs. -/
def planJson (s : PipelineSchedule) : String := s.toJson.printIndented

/-! ## Summaries -/

/-- The word for what became of a write, in its colour. -/
def statusCell (r : WriteRecord) : String :=
  let word := match r.status with
    | .written => green r.status.text
    | .unchanged => dimmed r.status.text
    | .skipped => yellow r.status.text
  match r.reason with
  | some reason => word ++ " (" ++ reason ++ ")"
  | none => word

/-- The table of written files, by their paths from a root. -/
def recordTable (root : Path) (rs : List WriteRecord) : Table :=
  ⟨["File", "Status", "Hash"], rs.map fun r =>
    [((r.path.stripPrefix? root).getD r.path).text, statusCell r,
      String.ofList (r.hash.toList.take 12)]⟩

/-- A diagnostic in one line. -/
def diagnosticLine (d : Diagnostic) : String :=
  let word := match d.level with
    | .warning => yellow d.level.text
    | .error => red d.level.text
  word ++ " [" ++ d.scope ++ "] " ++ d.message ++ "\n"

/-- What generation has done, in numbers. -/
def counts (s : WriteSummary) : String :=
  "\n" ++ toString s.written ++ " written, " ++ toString s.unchanged ++ " unchanged, " ++
    toString s.skipped ++ " skipped\n"

/-- What generation has done. -/
def generated (s : WriteSummary) (ds : List Diagnostic) (root : Path) (dryRun : Bool) : String :=
  heading (if dryRun then "Generation (dry run)" else "Generation") ++ "\n\n" ++
    (if s.isEmpty then "No files produced.\n" else (recordTable root s.records).text ++ "\n") ++
    counts s ++ String.join (ds.map diagnosticLine)

/-! ## Validation -/

/-- The result of validation. -/
def validation (problems : List Settings.Problem) : String :=
  match problems with
  | [] => green "✓" ++ " Configuration is valid"
  | ps => red "✗" ++ " Configuration has " ++ toString ps.length ++ " problem(s):\n" ++
      String.join (ps.map fun p => "  - " ++ p.text ++ "\n")

end Presentation

end StagedCodegen
