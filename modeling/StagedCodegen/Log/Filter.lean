import StagedCodegen.Log.Directive
import StagedCodegen.Log.Event

/-!
# Filters of the log

A filter decides which events are logged. Of the rules that fit an event, the most specific one
says up to which level it passes; an event that no rule fits does not pass. Within a span that some
directive names, or whose fields it asks for, events pass up to the level of that directive as well.
-/

namespace StagedCodegen.Log

/-! ## Rules -/

/-- Up to which level events pass that come from a target and have some fields. -/
structure Rule where
  /-- How the target begins. -/
  target : Option String
  /-- The names of the fields. -/
  fields : List String
  /-- Up to which level. -/
  threshold : Threshold
deriving DecidableEq, Repr

namespace Rule

/-- The rule is meant for what comes from a target. -/
def fitsTarget (r : Rule) (target : String) : Bool :=
  r.target.all fun t => t.toList.isPrefixOf target.toList

/-- The rule is meant for an event. -/
def fits (r : Rule) (e : Event) : Bool :=
  r.fitsTarget e.target && r.fields.all (e.fieldNames.contains ·)

/-- Which of two rules is more specific: the one with the longer target, then the one with more
fields, and at last the one that comes later in the dictionary. -/
def compare (r s : Rule) : Ordering :=
  let length (r : Rule) := (r.target.map (·.utf8ByteSize + 1)).getD 0
  (Ord.compare (length r) (length s)).then <|
    (Ord.compare r.fields.length s.fields.length).then <|
      (Ord.compare (r.target.getD "") (s.target.getD "")).then (Ord.compare r.fields s.fields)

/-- The rule that counts of two, of which `s` was given later. -/
def moreSpecific (r s : Rule) : Rule := if r.compare s = .gt then r else s

/-- The most specific of some rules, the latest of those that are equally so. -/
def mostSpecific? : List Rule → Option Rule
  | [] => none
  | r :: rs => some (rs.foldl moreSpecific r)

end Rule

/-! ## Filters -/

/-- What decides which events are logged. -/
structure Filter where
  /-- The rules for events, in the order given. -/
  rules : List Rule
  /-- The directives for the events in spans. -/
  spanned : List Directive

/-- The rule that a directive is for all events, if it asks neither for a span nor for a value. -/
def Directive.rule? (d : Directive) : Option Rule :=
  if d.span.isSome || d.fields.any (·.value.isSome) then none
  else some ⟨d.target, d.fields.map (·.name), d.threshold⟩

/-- A directive is meant for a span. -/
def Directive.fitsSpan (d : Directive) (s : Span) : Bool :=
  d.target.all (fun t => t.toList.isPrefixOf s.target.toList) && d.span.all (· == s.name) &&
    d.fields.all fun f => s.facts.any (·.1 == f.name)

/-- A span has the values that a directive asks for. -/
def Directive.matchesSpan (d : Directive) (s : Span) : Bool :=
  d.fields.all fun f => f.value.all fun v => s.facts.any fun (name, fact) =>
    name == f.name && fact.string? == some v

namespace Filter

/-- The filter of some directives, and of the usual one if there are none. -/
def ofDirectives (usual : Option Directive) (ds : List Directive) : Filter :=
  let ds := if ds.isEmpty then usual.toList else ds
  ⟨ds.filterMap Directive.rule?, ds.filter fun d => d.span.isSome || !d.fields.isEmpty⟩

/-- The filter with one more directive. -/
def add (f : Filter) (d : Directive) : Filter :=
  match d.rule? with
  | some r => { f with rules := f.rules ++ [r] }
  | none => { f with spanned := f.spanned ++ [d] }

/-- The most specific of the rules that fit lets a level pass. -/
def passes (f : Filter) (fits : Rule → Bool) (level : Level) : Bool :=
  (Rule.mostSpecific? (f.rules.filter fits)).any (·.threshold.passes level)

/-- A span is seen around its events. -/
def opens (f : Filter) (s : Span) : Bool :=
  f.spanned.any (·.fitsSpan s) || f.passes (·.fitsTarget s.target) s.level

/-- A span lets events of a level pass. -/
def passesWithin (f : Filter) (level : Level) (s : Span) : Bool :=
  f.spanned.any fun d => d.fitsSpan s && d.matchesSpan s && d.threshold.passes level

/-- An event is logged. -/
def enabled (f : Filter) (e : Event) : Bool :=
  e.spans.any (f.passesWithin e.level) || f.passes (·.fits e) e.level

end Filter

end StagedCodegen.Log
