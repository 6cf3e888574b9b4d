import Std.Time.DateTime
import StagedCodegen.CommandLine.Process
import StagedCodegen.Log.Clock
import StagedCodegen.Text.Utf8

/-!
# The executable

Takes a picture of the files that the program may look at, lets the program run on it, and carries
out what has changed. Nothing is decided here.
-/

namespace StagedCodegen.Executable

/-- The place of an absolute path. -/
def placeOf (p : String) : Place := (p.splitOn "/").filter (· ≠ "")

/-- A file, if it can be read. -/
def readFile? (p : String) : IO (Option ByteArray) := do
  try return some (← IO.FS.readBinFile p) catch _ => return none

/-- Everything at and below an absolute path without links, which is there. -/
partial def picture (p : String) : IO (List (Place × Node)) := do
  let here ← IO.FS.realPath p
  if ← here.isDir then
    let mut entries := [(placeOf p, Node.dir)]
    for e in ← here.readDir do
      let q := e.path.toString
      match (← e.path.symlinkMetadata).type with
      | .symlink =>
        let target ← try pure (← IO.FS.realPath q).toString catch _ => pure "/nowhere"
        entries := (placeOf q, Node.link ⟨target⟩) :: entries
      | _ => entries := (← picture q) ++ entries
    return entries
  else
    return (← readFile? p).toList.map fun c => (placeOf p, Node.file c)

/-- The directories above a place. -/
def above (p : Place) : List (Place × Node) :=
  (((List.range p.length).map p.take).filter (· ≠ [])).map (·, Node.dir)

/-- Everything at and below a path, if it is there, and the directories above it. -/
def pictureOf (p : String) : IO (List (Place × Node)) := do
  try
    let real := (← IO.FS.realPath p).toString
    return (← picture real) ++ above (placeOf real)
  catch _ => return []

/-- The environment of the process. -/
def environment : IO Environment := do
  let contents := (← readFile? "/proc/self/environ").getD .empty
  return (Text.split '\x00' (Text.decodeLossy contents).toList).filterMap fun entry =>
    (Text.splitOnce '=' entry).map fun (name, value) => (String.ofList name, String.ofList value)

/-- The paths that the program may look at. -/
def interests (env : Environment) (args : List String) : List String :=
  let words := args.map fun s => ((Text.splitOnce '=' s.toList).map (String.ofList ·.2)).getD s
  "." :: (Settings.userFile? .bare env).toList.map Path.text ++ words.filter (fun s => s ≠ "")

/-- The files before the program runs. -/
def before (env : Environment) (args : List String) : IO Disk := do
  let entries ← (interests env args).flatMapM pictureOf
  return ⟨entries, placeOf (← IO.FS.realPath ".").toString⟩

/-- Carry out one change. -/
def change : Place × Node → IO Unit
  | (at_, .dir) => IO.FS.createDirAll at_.path.text
  | (at_, .file c) => do
    if let some parent := at_.path.parent? then IO.FS.createDirAll parent.text
    IO.FS.writeBinFile at_.path.text c
  | (_, .link _) => pure ()

/-- Two nodes are equal. -/
def sameNode : Option Node → Node → Bool
  | some .dir, .dir => true
  | some (.file c), .file d => c == d
  | some (.link p), .link q => p.same q
  | _, _ => false

/-- Carry out what has changed. -/
def carryOut (old new : Disk) : IO Unit := do
  for e in new.entries.reverse do
    unless sameNode (old.lookup e.1) e.2 do change e
  for e in old.entries do
    if (new.lookup e.1).isNone then IO.FS.removeFile e.1.path.text

end StagedCodegen.Executable

open StagedCodegen in
/-- Run the program. -/
def main (args : List String) : IO UInt32 := do
  let env ← Executable.environment
  let disk ← Executable.before env args
  let now ← Std.Time.Timestamp.now
  let time := Log.Clock.text now.toNanosecondsSinceUnixEpoch.val.toNat
  let o := CommandLine.run .bare time env args disk
  Executable.carryOut disk o.console.disk
  IO.print (Log.Piece.joined o.console.stdout)
  IO.eprint (Log.Piece.joined o.console.stderr)
  return o.exitCode.toUInt32
