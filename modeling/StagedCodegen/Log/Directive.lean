import StagedCodegen.Log.Level
import StagedCodegen.Text.Blank
import StagedCodegen.Text.Split

/-!
# Directives for the log

A directive says up to which level events pass that come from some target, within some span, or
with some fields: `target[span{field=value,field}]=level`. All parts but one may be left out. A
word alone is a level if it spells one, and else a target all of whose events pass.

The form of a directive is read from its text without the blanks around it, while its words are cut
out of the text itself, at the same places.
-/

namespace StagedCodegen.Log

/-- A field that an event or a span must have. -/
structure FieldPattern where
  /-- Its name. -/
  name : String
  /-- The value that it must have, if any will not do. -/
  value : Option String
deriving DecidableEq, Repr

/-- Up to which level some events pass. -/
structure Directive where
  /-- Up to which level. -/
  threshold : Threshold
  /-- How the target of events begins. -/
  target : Option String
  /-- The span around events. -/
  span : Option String
  /-- The fields of the event or the span. -/
  fields : List FieldPattern
deriving DecidableEq, Repr

/-- Why a text is no directive. -/
inductive DirectiveError where
  /-- It has another form. -/
  | malformed
  /-- What stands for the level is none. -/
  | unknownLevel
deriving DecidableEq, Repr

/-- The text of an error. -/
def DirectiveError.text : DirectiveError → String
  | .malformed => "invalid filter directive"
  | .unknownLevel =>
    "error parsing level filter: expected one of \"off\", \"error\", \"warn\", \"info\", " ++
      "\"debug\", \"trace\", or a number 0-5"

namespace Directive

/-- The directive that lets all events pass. -/
def everything : Directive := ⟨.upTo .trace, none, none, []⟩

/-- The directive for all events up to a level. -/
def ofThreshold (t : Threshold) : Directive := { everything with threshold := t }

/-! ## Reading -/

/-- What is being read, with the characters of an unfinished word, the last first. -/
inductive Reading where
  /-- Nothing yet. -/
  | start
  /-- A level or a target. -/
  | word (read : List Char)
  /-- The name of a span. -/
  | span (read : List Char)
  /-- A field of a span. -/
  | field (read : List Char)
  /-- The end of the fields. -/
  | fieldsEnd
  /-- The end of a span. -/
  | spanEnd
  /-- A level. -/
  | level (read : List Char)
  /-- The end of the directive. -/
  | done

/-- The word of the characters that were read, the last first. -/
def wordOf (read : List Char) : String := String.ofList read.reverse

/-- The field that a text describes: a name, maybe an equals sign and a value. -/
def fieldOf (read : List Char) : Except DirectiveError FieldPattern :=
  match Text.split '=' read.reverse with
  | [[]] => .error .malformed
  | name :: value :: _ => .ok ⟨String.ofList name, some (String.ofList value)⟩
  | name :: [] => .ok ⟨String.ofList name, none⟩
  | [] => .error .malformed

/-- The directive with a level, which is the lowest if nothing stands for it. -/
def withLevel (d : Directive) (level : List Char) : Except DirectiveError Directive :=
  if level.isEmpty then .ok d
  else match Threshold.ofChars? level with
    | some t => .ok { d with threshold := t }
    | none => .error .unknownLevel

/-- A directive can begin with this character. -/
def startsWord (c : Char) : Bool :=
  c.isAlphanum || c ∈ ['-', ':', '_'] || (128 ≤ c.toNat && !Text.isBlank c)

/-- Read a character `c`, in whose place the text has `r`. -/
def step (d : Directive) (c r : Char) : Reading → Except DirectiveError (Directive × Reading)
  | .start =>
    if c = '[' then .ok (d, .span [])
    else if startsWord c then .ok (d, .word [r])
    else .error .malformed
  | .word read =>
    if c = '=' then .ok ({ d with target := some (wordOf read) }, .level [])
    else if c = '[' then .ok ({ d with target := some (wordOf read) }, .span [])
    else if c = ',' then .error .malformed
    else .ok (d, .word (r :: read))
  | .span read =>
    if c = ']' then .ok ({ d with span := some (wordOf read) }, .spanEnd)
    else if c = '{' then
      let name := if read.isEmpty then none else some (wordOf read)
      .ok ({ d with span := name }, .field [])
    else .ok (d, .span (r :: read))
  | .field read =>
    if c = '}' || c = ',' then do
      let f ← fieldOf read
      return ({ d with fields := d.fields ++ [f] }, if c = '}' then .fieldsEnd else .field [])
    else .ok (d, .field (r :: read))
  | .fieldsEnd => if c = ']' then .ok (d, .spanEnd) else .error .malformed
  | .spanEnd => if c = '=' then .ok (d, .level []) else .error .malformed
  | .level read =>
    if c = ',' then do
      let d ← d.withLevel read.reverse
      return (d, .done)
    else .ok (d, .level (r :: read))
  | .done => .error .malformed

/-- What a directive is in the end, when `rest` is left of the text. -/
def finish (d : Directive) (rest : List Char) : Reading → Except DirectiveError Directive
  | .word read =>
    let word := read.reverse ++ rest
    match Threshold.ofChars? word with
    | some t => .ok { d with threshold := t }
    | none => .ok { d with target := some (String.ofList word) }
  | .level read => d.withLevel (read.reverse ++ rest)
  | .spanEnd | .done => .ok d
  | _ => .error .malformed

/-- Read characters, each with the one that the text has in its place, and then what is left. -/
def readFrom (rest : List Char) (d : Directive) (s : Reading) :
    List (Char × Char) → Except DirectiveError Directive
  | [] => d.finish rest s
  | (c, r) :: more => do
    let (d, s) ← d.step c r s
    readFrom rest d s more

/-- The directive that a text spells. -/
def parse (s : String) : Except DirectiveError Directive :=
  let shape := Text.trimWhile Text.isBlank s.toList
  readFrom (s.toList.drop shape.length) everything .start (shape.zip s.toList)

/-- The parts of a list of directives, without those that are empty. -/
def parts (s : String) : List String :=
  ((Text.split ',' s.toList).filter (!·.isEmpty)).map String.ofList

end Directive

end StagedCodegen.Log
