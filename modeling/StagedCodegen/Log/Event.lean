import StagedCodegen.Json.Printer
import StagedCodegen.Log.Level

/-!
# Events of the log

Something that happened: how important it is, where it comes from, what it says, what it tells
programs, and the spans that it happened in.
-/

namespace StagedCodegen.Log

/-- The facts that an event or a span has, by name. -/
abbrev Facts := List (String × Json)

/-- A stretch of work that events happen in. -/
structure Span where
  /-- Its name. -/
  name : String
  /-- How important it is. -/
  level : Level
  /-- Where it comes from. -/
  target : String
  /-- What it tells programs. -/
  facts : Facts

/-- Something that happened. -/
structure Event where
  /-- How important it is. -/
  level : Level
  /-- Where it comes from. -/
  target : String
  /-- What it says. -/
  message : String
  /-- What it tells programs. -/
  facts : Facts
  /-- The spans around it, the outermost first. -/
  spans : List Span

/-- The names of all fields of an event. -/
def Event.fieldNames (e : Event) : List String := "message" :: e.facts.map (·.1)

end StagedCodegen.Log
