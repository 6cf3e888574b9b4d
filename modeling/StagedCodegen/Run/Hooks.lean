import StagedCodegen.Representation.Artifact
import StagedCodegen.Run.Ledger
import StagedCodegen.Run.Options

/-!
# Extensions and their hooks

An extension is asked for its hook before anything else runs. The hooks see the finished artifact,
may replace it, and may begin a transaction. When one of them fails, whatever those before it have
begun is undone.
-/

namespace StagedCodegen

open StagedCodegen.Representation

/-- What a hook leaves behind. -/
structure HookOutcome (κ : Type) where
  /-- The artifact that replaces the one it was given. -/
  artifact : Option Artifact
  /-- What it has begun. -/
  transaction : Option (Transaction κ)

/-- Nothing changed and nothing begun. -/
def HookOutcome.unchanged {κ : Type} : HookOutcome κ := ⟨none, none⟩

/-- What a hook knows besides the artifact. -/
structure HookView where
  /-- The options of the run. -/
  options : RunOptions
  /-- The key of the extension. -/
  key : String
  /-- The scope of what it says. -/
  scope : Scope

/-- What a hook does. -/
abbrev Hook (κ : Type) := HookView → Artifact → Act (World κ) (HookOutcome κ)

/-- Something that takes part in a run through a hook. -/
structure Extension (κ : Type) where
  /-- Its key. -/
  key : String
  /-- Give a hook for a run, or none. -/
  register : RunOptions → Act (World κ) (Option (Hook κ))

/-- Ask extensions for their hooks, the first of which has the given index. -/
def collectHooksFrom {κ : Type} (o : RunOptions) :
    (index : Nat) → List (Extension κ) → Act (Session κ) (List (String × Hook κ))
  | _, [] => pure []
  | i, e :: rest => do
    let hook ← Session.call (.register i) (e.register o)
    let hooks ← collectHooksFrom o (i + 1) rest
    match hook with
    | some h => return (e.key, h) :: hooks
    | none => return hooks

/-- Ask all extensions for their hooks. -/
def collectHooks {κ : Type} (o : RunOptions) (es : List (Extension κ)) :
    Act (Session κ) (List (String × Hook κ)) := collectHooksFrom o 0 es

/-- Run hooks, the first of which has the given index, one after another. -/
def runHooksFrom {κ : Type} (o : RunOptions) : (index : Nat) → List (String × Hook κ) →
    Artifact → Ledger κ → Act (Session κ) (Artifact × Ledger κ)
  | _, [], a, l => pure (a, l)
  | i, (key, hook) :: rest, a, l => fun s =>
    match Session.call (.hook i) (hook ⟨o, key, Scope.child o.scope key⟩ a) s with
    | (.error f, s) => (.error f, (l.rollbackAll s).2)
    | (.ok outcome, s) =>
      let a := outcome.artifact.getD a
      let l := match outcome.transaction with
        | some t => l.record key t
        | none => l
      (do Session.complete .extension key; runHooksFrom o (i + 1) rest a l) s

/-- Run all hooks. The result is the artifact they leave and what they have begun. -/
def runHooks {κ : Type} (o : RunOptions) (hooks : List (String × Hook κ)) (a : Artifact) :
    Act (Session κ) (Artifact × Ledger κ) := runHooksFrom o 0 hooks a []

end StagedCodegen
