import StagedCodegen.SortedMap
import StagedCodegen.Json

/-!
# The intermediate representation

What is generated from: who the project is, where its output goes, which files are planned, its
resources and the capabilities that guard them, and whatever else helpers keep under names of their
own.
-/

namespace StagedCodegen

namespace Representation

/-- Who the project is and where its description came from. -/
structure Meta where
  /-- The namespace as somebody wrote it. -/
  title : String
  /-- The namespace in the form that names are made of. -/
  slug : String
  /-- The version of the project. -/
  version : String
  /-- The name of the description. -/
  origin : String
  /-- Where the description is. -/
  sourcePath : String
deriving DecidableEq, Repr

/-- Where a capability was found. -/
inductive CapabilitySource where
  /-- In the settings. -/
  | configured
  /-- Nowhere: it is the usual one. -/
  | fallback
deriving DecidableEq, Repr

/-- The capability behind a key. -/
structure CapabilityEntry where
  /-- The capability. -/
  capability : String
  /-- Where it was found. -/
  source : CapabilitySource
deriving DecidableEq, Repr

/-- The capabilities behind the keys that resources name. -/
structure CapabilityMap where
  /-- The capability of each key. -/
  entries : SortedMap CapabilityEntry
  /-- The keys for which nothing was configured. -/
  missing : List String
deriving DecidableEq

/-- The directories that output goes to. -/
structure Layout where
  /-- The directory of all output. -/
  outputDir : String
  /-- The directory of controllers, inside that. -/
  phpDir : String
  /-- The directory of clients, inside that. -/
  tsDir : String
deriving DecidableEq, Repr

/-- The path of a controller. -/
def Layout.phpPath (l : Layout) (file : String) : String :=
  l.outputDir ++ "/" ++ l.phpDir ++ "/" ++ file

/-- The path of a client. -/
def Layout.tsPath (l : Layout) (file : String) : String :=
  l.outputDir ++ "/" ++ l.tsDir ++ "/" ++ file

/-- The path of a file that is neither. -/
def Layout.rootPath (l : Layout) (file : String) : String := l.outputDir ++ "/" ++ file

/-- The kinds of files that are generated. -/
inductive ArtifactKind where
  /-- A controller in PHP. -/
  | phpController
  /-- A client in TypeScript. -/
  | tsClient
  /-- The list of what was generated. -/
  | manifest
deriving DecidableEq, Repr

/-- A file that is to be generated. -/
structure PlannedArtifact where
  /-- Its name in the plan. -/
  id : String
  /-- What kind of file it is. -/
  kind : ArtifactKind
  /-- Where it goes. -/
  path : String
  /-- The resource that it is about. -/
  resource : Option String
deriving DecidableEq, Repr

/-- The files that are to be generated. -/
structure ArtifactPlan where
  /-- The files, in the order of generation. -/
  entries : List PlannedArtifact
deriving DecidableEq, Repr

/-- The planned files of one kind. -/
def ArtifactPlan.ofKind (p : ArtifactPlan) (kind : ArtifactKind) : List PlannedArtifact :=
  p.entries.filter (·.kind = kind)

/-- Something that the project serves. -/
structure Resource where
  /-- Its name. -/
  name : String
  /-- The route under which it is served. -/
  route : String
  /-- The key of the capability that guards it. -/
  capability : Option String
deriving DecidableEq, Repr

/-- The whole representation. -/
structure Data where
  /-- Who the project is. -/
  identity : Meta
  /-- The capabilities. -/
  capabilityMap : CapabilityMap
  /-- Where output goes. -/
  layout : Layout
  /-- The planned files. -/
  plan : ArtifactPlan
  /-- The resources. -/
  resources : List Resource
  /-- Whatever else helpers keep, under names of their own. -/
  extras : SortedMap Json

/-- The first resource of a name. -/
def Data.resource? (d : Data) (name : String) : Option Resource :=
  d.resources.find? (·.name = name)

end Representation

end StagedCodegen
