import StagedCodegen.Failure
import StagedCodegen.Json.Record

/-!
# Diagnostics

What a run has to say to its user besides its outcome: warnings and failures, each under the scope
of whoever raised it.
-/

namespace StagedCodegen

/-- How serious a diagnostic is. -/
inductive Severity where
  /-- Something to look at. -/
  | warning
  /-- Something that failed. -/
  | error
deriving DecidableEq, Repr

/-- The word for a severity. -/
def Severity.text : Severity → String
  | .warning => "warning"
  | .error => "error"

/-- The name under which diagnostics are raised: names joined by points, the outermost first. -/
abbrev Scope := String

/-- The scope of a part of what a scope names. -/
def Scope.child (scope : Scope) (name : String) : Scope := scope ++ "." ++ name

/-- One thing said to the user. -/
structure Diagnostic where
  /-- How serious it is. -/
  level : Severity
  /-- Who said it. -/
  scope : Scope
  /-- The text. -/
  message : String
  /-- What a program can use of it. -/
  context : Json

/-- The warning with a text and a context. -/
def Diagnostic.warning (scope : Scope) (message : String) (context : Json) : Diagnostic :=
  ⟨.warning, scope, message, context⟩

/-- The diagnostic that tells of a failure. -/
def Diagnostic.ofFailure (scope : Scope) (f : Failure) : Diagnostic :=
  ⟨.error, scope, f.message,
    Json.obj [("kind", .string f.blame.label), ("context", f.context)]⟩

/-- The severity that a value names. -/
def Severity.ofJson? : Json → Option Severity :=
  Json.choice? [("warning", .warning), ("error", .error)]

/-- The diagnostic that a value gives. Its context may be left out. -/
def Diagnostic.ofJson? (v : Json) : Option Diagnostic := do
  match ← v.fields? true ["level", "scope", "message", "context"] with
  | [level, scope, message, context] =>
    return {
      level := ← Json.required Severity.ofJson? level
      scope := ← Json.required Json.string? scope
      message := ← Json.required Json.string? message
      context := context.getD .null }
  | _ => none

end StagedCodegen
