import StagedCodegen.Failure
import StagedCodegen.Json.Parser
import StagedCodegen.Settings.Codec
import StagedCodegen.Settings.KeyPath
import StagedCodegen.Text.Numeral
import StagedCodegen.Text.Utf8
import StagedCodegen.Toml.Parser

/-!
# Where settings come from

Settings are layered: the usual ones, the file of the user, the file of the workspace, the file of
the stage that the workspace is in, and the environment. Each layer sets keys in the tree that
those before it have left; at the end the tree is read, with whatever can stand for a text or a
truth value.
-/

namespace StagedCodegen

/-- The variables of the environment with their values. -/
abbrev Environment := List (String × String)

namespace Settings

/-- What is set by a layer: keys with their values. -/
abbrev Layer := List (String × Json)

/-- Set all keys of a layer. -/
def applyLayer (tree : Json) (l : Layer) : Json :=
  l.foldl (fun tree (k, v) => (KeyPath.ofString k).set v tree) tree

/-- The usual settings, as far as they are set before anything else. -/
def usualLayer : Layer :=
  [("project.version", .string "0.1.0"), ("output.dir", .string "generated"),
    ("output.php_dir", .string "php"), ("output.ts_dir", .string "ts"),
    ("generation.dry_run", .bool false),
    ("generation.required_families", Json.strings usualFamilies)]

/-! ## Values that stand for others -/

/-- Words for true. -/
def trueWords : List String := ["1", "true", "on", "yes"]

/-- Words for false. -/
def falseWords : List String := ["0", "false", "off", "no"]

/-- The text that a scalar stands for. -/
def scalarText? : Json → Option String
  | .string s => some s
  | .bool b => some (if b then "true" else "false")
  | .number (.int n) => some (toString n)
  | .number (.float bits) => some (Decimal.plain.write bits)
  | _ => none

/-- The truth value that a scalar stands for. -/
def scalarTruth? : Json → Option Bool
  | .bool b => some b
  | .number (.int n) => some (n != 0)
  | .number (.float bits) => some (bits != 0 && bits != 0x8000000000000000)
  | .string s =>
    let word := Text.lowercase s
    if word ∈ trueWords then some true else if word ∈ falseWords then some false else none
  | _ => none

/-- What stands for a text or a truth value in a tree of layers. -/
def lenient : Coercion := ⟨scalarText?, scalarTruth?, false⟩

/-! ## Files -/

/-- A number that a tree can hold: a whole one too large for 64 bits with a sign is not whole. -/
def fitNumber : Json.Number → Json.Number
  | .int n => if n < 9223372036854775808 then .int n else .float (Decimal.nearest false n.toNat 0)
  | n => n

mutual
/-- The value with numbers that a tree can hold. -/
def fit : (v : Json) → Json
  | .number n => .number (fitNumber n)
  | .array xs => .array (fitItems xs)
  | .object ms => .object (fitMembers ms)
  | v => v
termination_by structural v => v
/-- `fit` of each item. -/
def fitItems : (xs : List Json) → List Json
  | [] => []
  | x :: xs => fit x :: fitItems xs
termination_by structural xs => xs
/-- `fit` of each member's value. -/
def fitMembers : (ms : List (String × Json)) → List (String × Json)
  | [] => []
  | m :: ms => fitMember m :: fitMembers ms
termination_by structural ms => ms
/-- `fit` of one member's value. -/
def fitMember : (m : String × Json) → String × Json
  | (k, v) => (k, fit v)
termination_by structural m => m
end

/-- The layer that a text of some form gives, if the text has this form. -/
abbrev Reader := String → Option Layer

/-- What the program takes from where it runs. -/
structure Host where
  /-- The directory that the platform keeps for the settings of the user. -/
  directory? : Option Path
  /-- The readers of further forms of files, by extension. -/
  readers : List (String × Reader)

/-- Nothing is taken from where the program runs. -/
def Host.bare : Host := ⟨none, []⟩

/-- The readers of all files, by extension: lines of keys and tables, one object, and what else can
be read. -/
def Host.allReaders (host : Host) : List (String × Reader) :=
  ("toml", fun s => (Toml.parse? s).bind Json.members?) ::
    ("json", fun s => (Json.parse? s).bind fun v => (fit v.canonical).members?) :: host.readers

/-- The file that a path names, with its reader: the path itself, or else the path with the
extension of a reader behind its last name. -/
def findFile? (host : Host) (d : Disk) (p : Path) : Option (Path × Reader) :=
  if d.isFile p then (p.extension?.bind (List.lookup · host.allReaders)).map (p, ·)
  else
    p.fileName?.bind fun name =>
      host.allReaders.findSome? fun (ext, reader) =>
        let q := p.withFileName (name ++ "." ++ ext)
        if d.isFile q then some (q, reader) else none

/-- The layer of a file. A file that cannot be found gives an empty one, unless it is required. -/
def fileLayer (host : Host) (d : Disk) (required : Bool) (p : Path) : Except Failure Layer :=
  match (findFile? host d p).bind fun (q, reader) => (d.read q).toOption.map (·, reader) with
  | none => if required then .error (.settings ("no settings at " ++ p.text)) else .ok []
  | some (contents, reader) =>
    match reader (Text.decodeLossy (Text.dropByteOrderMark contents)) with
    | some l => .ok l
    | none => .error (.settings ("malformed settings at " ++ p.text))

/-! ## The environment -/

/-- A text as the scalar that it spells. -/
def spelled (s : String) : Json :=
  if Text.lowercase s = "true" then .bool true
  else if Text.lowercase s = "false" then .bool false
  else match Text.Numeral.integer? s with
    | some n => .int n
    | none =>
      match Text.Numeral.double? s with
      | some bits => .number (.float bits)
      | none => .string s

/-- The key that a variable sets: what follows the name of the program, with points for double
underscores. -/
def variableKey? (name : String) : Option String :=
  let cs := (Text.lowercase name).toList
  let opening := "genpipe__".toList
  if opening.isPrefixOf cs then
    some (String.ofList (Text.replace ['_', '_'] ['.'] (cs.drop opening.length)))
  else none

/-- The layer of the environment. -/
def environmentLayer (env : Environment) : Layer :=
  env.filterMap fun (name, value) => (variableKey? name).map (·, spelled value)

/-! ## Loading -/

/-- The file of a workspace. -/
def workspaceFile (workspace : Path) : Path := workspace.join ⟨"genpipe.toml"⟩

/-- The file of the stage that a workspace is in. -/
def stageFile (env : Environment) (workspace : Path) : Path :=
  let stage := (env.lookup "GENPIPE_ENV").getD "development"
  (workspace.join ⟨"config"⟩).join ⟨stage ++ ".toml"⟩

/-- The value of a variable that is not empty. -/
def nonEmpty? (env : Environment) (name : String) : Option String :=
  (env.lookup name).filter (· ≠ "")

/-- The directory of the user's settings: in the directory that a variable names, or in the user's
own, or else the one that the platform keeps. -/
def userDirectory? (host : Host) (env : Environment) : Option Path :=
  match nonEmpty? env "XDG_CONFIG_HOME", nonEmpty? env "HOME" with
  | some dir, _ => some ((Path.mk dir).join ⟨"genpipe"⟩)
  | none, some home => some (((Path.mk home).join ⟨".config"⟩).join ⟨"genpipe"⟩)
  | none, none => host.directory?

/-- The file of the user. -/
def userFile? (host : Host) (env : Environment) : Option Path :=
  (userDirectory? host env).map (·.join ⟨"config.toml"⟩)

/-- The file of the user without links, if it exists. -/
def existingUserFile? (host : Host) (d : Disk) (env : Environment) : Option Path :=
  (userFile? host env).bind fun p =>
    if d.exists_ p then some ((d.canonicalize p).toOption.getD p) else none

/-- The files of all layers, in order. -/
def files (host : Host) (d : Disk) (env : Environment) (workspace : Path) : List Path :=
  (existingUserFile? host d env).toList ++
    ([workspaceFile workspace, stageFile env workspace].filter d.exists_)

/-- The tree that layers give, from nothing. -/
def treeOf (ls : List Layer) : Json := ls.foldl applyLayer (.object [])

/-- The settings that layers give. They make a tree of their own first, which is then laid over the
usual settings: a list that is set item by item does not start from the usual one. -/
def ofLayers (ls : List Layer) : Except Failure Settings :=
  match ofJson? lenient (treeOf [usualLayer, KeyPath.membersOf (treeOf ls)]) with
  | some s => .ok s
  | none => .error (.settings "the settings have another form")

/-- The settings for a workspace. -/
def load (host : Host) (d : Disk) (env : Environment) (workspace : Path) :
    Except Failure Settings := do
  let ls ← (files host d env workspace).mapM (fileLayer host d false)
  ofLayers (ls ++ [environmentLayer env])

/-- The settings of one file alone. -/
def loadFile (host : Host) (d : Disk) (p : Path) : Except Failure Settings :=
  if d.exists_ p then do ofLayers [← fileLayer host d true p]
  else .error (.settings ("Configuration file not found: " ++ p.text))

end Settings

end StagedCodegen
