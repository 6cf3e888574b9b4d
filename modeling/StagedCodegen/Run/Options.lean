import StagedCodegen.PreviousFiles
import StagedCodegen.Settings

/-!
# Options of a run

What a run is told before it begins.
-/

namespace StagedCodegen

/-- What a run is told before it begins. -/
structure RunOptions where
  /-- What the run is for. -/
  phase : String
  /-- The settings. -/
  settings : Settings
  /-- The namespace to be generated for, blank for that of the settings. -/
  title : String
  /-- The name of the description of the project. -/
  origin : String
  /-- Where that description is. -/
  sourcePath : Path
  /-- The root of the workspace. -/
  workspace : Path
  /-- The scope of what the run itself says. -/
  scope : String
  /-- What the run before produced. -/
  previous : PreviousFiles

end StagedCodegen
