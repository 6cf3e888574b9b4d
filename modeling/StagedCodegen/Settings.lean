import StagedCodegen.Representation.Data
import StagedCodegen.Path

/-!
# Settings

What the user decides: the project with its resources and capabilities, where output goes, how
generation is checked, and what is logged.
-/

namespace StagedCodegen

/-- The families of which a helper must run, unless the user says otherwise. -/
def usualFamilies : List String := ["ir.meta", "ir.capability-map", "ir.layout", "ir.artifacts"]

namespace Settings

/-- The project that is generated for. -/
structure Project where
  /-- The namespace as the user writes it. -/
  title : String
  /-- The version of the project. -/
  version : String
  /-- What the project serves. -/
  resources : List Representation.Resource
  /-- The capability behind each key that resources name. -/
  capabilities : SortedMap String
deriving DecidableEq

/-- The directories that output goes to. -/
structure Output where
  /-- The directory of all output, inside the workspace. -/
  dir : String
  /-- The directory of controllers, inside that. -/
  phpDir : String
  /-- The directory of clients, inside that. -/
  tsDir : String
deriving DecidableEq

/-- How generation goes. -/
structure Generation where
  /-- Nothing is written. -/
  dryRun : Bool
  /-- The families of which a helper must run. -/
  requiredFamilies : List String
deriving DecidableEq

/-- What is logged, how and where. -/
structure Logging where
  /-- Anything is logged at all. -/
  enabled : Bool
  /-- What is logged: a level, or a list of directives. -/
  level : String
  /-- The form of a line. -/
  format : String
  /-- Where lines go. -/
  output : String
  /-- The file that they go to, if they go to a file. -/
  file : Path
  /-- Lines have colours, where that is possible. -/
  color : Bool
  /-- The levels of single modules. -/
  modules : SortedMap String
deriving DecidableEq

/-- The usual settings of the project. -/
def Project.usual : Project := ⟨"", "0.1.0", [], .empty⟩

/-- The usual directories. -/
def Output.usual : Output := ⟨"generated", "php", "ts"⟩

/-- The usual way of generation. -/
def Generation.usual : Generation := ⟨false, usualFamilies⟩

/-- The usual logging. -/
def Logging.usual : Logging :=
  ⟨true, "warn", "text", "stderr", ⟨".genpipe/genpipe.log"⟩, true, .empty⟩

end Settings

/-- All settings. -/
structure Settings where
  /-- The project. -/
  project : Settings.Project
  /-- Where output goes. -/
  output : Settings.Output
  /-- How generation goes. -/
  generation : Settings.Generation
  /-- What is logged. -/
  logging : Settings.Logging
deriving DecidableEq

/-- The settings of a user who says nothing. -/
def Settings.usual : Settings := ⟨.usual, .usual, .usual, .usual⟩

end StagedCodegen
