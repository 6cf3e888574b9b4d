import StagedCodegen.Log.Event
import StagedCodegen.Terminal.Style

/-!
# Lines of the log

An event as a line: for people, with or without colours, or as an object for programs.
-/

namespace StagedCodegen.Log

open Terminal

/-- The forms of lines. -/
inductive Form where
  /-- For people. -/
  | text
  /-- For programs. -/
  | json
deriving DecidableEq, Repr

/-- The word for a form. -/
def Form.word : Form → String
  | .text => "text"
  | .json => "json"

namespace Line

/-! ## Lines for people -/

/-- A character as a line shows it. What a terminal would act on is spelled out, line breaks and
tabs aside. -/
def visibleChar (c : Char) : List Char :=
  let n := c.toNat
  let digits := [Text.Hex.digit (n / 16), Text.Hex.digit (n % 16)]
  if n ∈ [0x07, 0x08, 0x0c, 0x1b, 0x7f] then ['\\', 'x'] ++ digits
  else if 0x80 ≤ n && n ≤ 0x9f then ['\\', 'u', '{'] ++ digits ++ ['}']
  else [c]

/-- A text as a line shows it. -/
def visible (s : String) : String := String.ofList (s.toList.flatMap visibleChar)

/-- A text with a code, if lines have colours. -/
def styled (color : Bool) (parameter : String) (s : String) : String :=
  if color then weighted parameter s else s

/-- The number of the colour of a level. -/
def colorOf : Level → String
  | .error => "31"
  | .warn => "33"
  | .info => "32"
  | .debug => "34"
  | .trace => "35"

/-- The word for a level, at the right of five columns. -/
def levelColumn (l : Level) : String :=
  String.ofList (List.replicate (5 - l.text.length) ' ') ++ l.text

/-- The value of a fact. -/
def value : Json → String
  | .string s => s
  | v => v.print

/-- A fact. -/
def fact (color : Bool) (f : String × Json) : String :=
  styled color "3" f.1 ++ styled color "2" "=" ++ visible (value f.2)

/-- Facts, with a blank between them. -/
def facts (color : Bool) (fs : Facts) : String := " ".intercalate (fs.map (fact color))

/-- A span with its facts. -/
def span (color : Bool) (s : Span) : String :=
  let inBraces := if s.facts.isEmpty then "" else
    styled color "1" "\x7b" ++ facts color s.facts ++ styled color "1" "\x7d"
  styled color "1" s.name ++ inBraces ++ styled color "2" ":"

/-- The line for people. -/
def text (color : Bool) (time : String) (spans : List Span) (e : Event) : String :=
  let around := if spans.isEmpty then "" else String.join (spans.map (span color)) ++ " "
  styled color "2" time ++ " " ++ styled color (colorOf e.level) (levelColumn e.level) ++ " " ++
    around ++ styled color "2" e.target ++ styled color "2" ":" ++ " " ++ visible e.message ++
    String.join (e.facts.map fun f => " " ++ fact color f)

/-! ## Lines for programs -/

/-- A span as an object. -/
def spanToJson (s : Span) : Json := .object (s.facts ++ [("name", .string s.name)])

/-- The object for programs. -/
def object (time : String) (spans : List Span) (e : Event) : Json :=
  .object ([("timestamp", .string time), ("level", .string e.level.text),
    ("fields", .object (("message", .string e.message) :: e.facts)),
    ("target", .string e.target)] ++
    (spans.getLast?.map fun s => ("span", spanToJson s)).toList ++
    (if spans.isEmpty then [] else [("spans", .array (spans.map spanToJson))]))

end Line

/-- The line of an event at some time, within those of its spans that are seen. -/
def Event.line (form : Form) (color : Bool) (time : String) (spans : List Span) (e : Event) :
    String :=
  match form with
  | .text => Line.text color time spans e
  | .json => (Line.object time spans e).print

end StagedCodegen.Log
