import StagedCodegen.Attempt
import StagedCodegen.Log.Filter
import StagedCodegen.Log.Line

/-!
# Consoles

What a program has written: its files, and what went to its two outputs. Lines of the log are kept
apart from everything else, with their form and level. A console has at most one log.
-/

namespace StagedCodegen.Log

/-- Where lines go. -/
inductive Destination where
  /-- The output for results. -/
  | stdout
  /-- The output for failures. -/
  | stderr
  /-- A file. -/
  | file (p : Path)
deriving DecidableEq

/-- Something that was written to an output. -/
inductive Piece where
  /-- A text. -/
  | plain (s : String)
  /-- A line of the log, without its end. -/
  | logged (form : Form) (level : Level) (line : String)

/-- The text of a piece. -/
def Piece.text : Piece → String
  | .plain s => s
  | .logged _ _ line => line ++ "\n"

/-- The text of pieces, one after another. -/
def Piece.joined (ps : List Piece) : String := String.join (ps.map Piece.text)

/-- Where a log goes: what it lets pass, and how and where it is written. -/
structure Sink where
  /-- What decides which events are logged. -/
  filter : Filter
  /-- The form of lines. -/
  form : Form
  /-- Lines have colours. -/
  color : Bool
  /-- Where lines go. -/
  destination : Destination

/-- What a program has written. -/
structure Console where
  /-- The files. -/
  disk : Disk
  /-- What went to the output for results. -/
  stdout : List Piece
  /-- What went to the output for failures. -/
  stderr : List Piece
  /-- The log. -/
  log : Option Sink

namespace Console

/-- The console of a program that has written nothing. -/
def start (d : Disk) : Console := ⟨d, [], [], none⟩

/-- Write a text to the output for results. -/
def print (s : String) (c : Console) : Console := { c with stdout := c.stdout ++ [.plain s] }

/-- Write a text to the output for failures. -/
def complain (s : String) (c : Console) : Console := { c with stderr := c.stderr ++ [.plain s] }

/-- Add a text to the end of a file, if there is a file. -/
def append (p : Path) (s : String) (d : Disk) : Disk :=
  match d.read p with
  | .ok contents => (d.write p (contents ++ s.toUTF8)).toOption.getD d
  | .error _ => d

/-- Log an event that happens at some time, if it passes. -/
def record (time : String) (e : Event) (c : Console) : Console :=
  match c.log with
  | none => c
  | some log =>
    if log.filter.enabled e then
      let line := e.line log.form log.color time (e.spans.filter log.filter.opens)
      let piece := Piece.logged log.form e.level line
      match log.destination with
      | .stdout => { c with stdout := c.stdout ++ [piece] }
      | .stderr => { c with stderr := c.stderr ++ [piece] }
      | .file p => { c with disk := append p piece.text c.disk }
    else c

/-- Log events that happen at some time. -/
def recordAll (time : String) (es : List Event) (c : Console) : Console :=
  es.foldl (fun c e => c.record time e) c

/-- An event that does not pass leaves no trace. -/
theorem record_of_not_enabled {time : String} {e : Event} {c : Console}
    (h : ∀ log ∈ c.log, log.filter.enabled e = false) : c.record time e = c := by
  unfold record
  split
  · rfl
  · next log hl => simp [h log (by simp [hl])]

end Console

end StagedCodegen.Log
