import StagedCodegen.Program
import StagedCodegen.Registry
import StagedCodegen.Representation.Artifact
import StagedCodegen.Run.Options
import StagedCodegen.Run.Session
import StagedCodegen.Writes

/-!
# The builder phase

Builders run in the order of their schedule. They see the artifact and queue writes, which are
applied only after the run.
-/

namespace StagedCodegen

open StagedCodegen.Representation

/-- What a builder can ask for. -/
inductive BuilderRequest (κ : Type) where
  /-- Change the world, and see it. -/
  | outside (change : World κ → World κ)
  /-- Queue a write. -/
  | queue (path : Path) (contents : ByteArray)

/-- What a builder gets to its requests. -/
def BuilderRequest.Answer {κ : Type} : BuilderRequest κ → Type
  | .outside _ => World κ
  | .queue _ _ => Unit

/-- The requests of builders with their answers. -/
def builderInterface (κ : Type) : Interface := ⟨BuilderRequest κ, BuilderRequest.Answer⟩

/-- What a builder knows. -/
structure BuilderView where
  /-- The options of the run. -/
  options : RunOptions
  /-- The artifact. -/
  artifact : Artifact
  /-- The key of the builder. -/
  key : String
  /-- The scope of what it says. -/
  scope : Scope

/-- A program of a builder. -/
abbrev BuilderProgram (κ α : Type) := ExceptT Failure (Program (builderInterface κ)) α

/-- What a builder does. -/
abbrev BuilderBehaviour (κ : Type) := BuilderView → BuilderProgram κ Unit

namespace BuilderProgram

variable {κ : Type}

/-- Change the world, and see it. -/
def outside (change : World κ → World κ) : BuilderProgram κ (World κ) :=
  ExceptT.lift (Program.request (I := builderInterface κ) (.outside change))

/-- Queue a write. -/
def queue (path : Path) (contents : ByteArray) : BuilderProgram κ Unit :=
  ExceptT.lift (Program.request (I := builderInterface κ) (.queue path contents))

/-- Warn the user. -/
def warn (scope : Scope) (message : String) (context : Json) : BuilderProgram κ Unit := do
  let _ ← outside fun w => w.warn scope message context

end BuilderProgram

/-- What a request of the builder with this key does to the world and the queue. -/
def serveBuilder {κ : Type} (key : String) :
    (r : BuilderRequest κ) → World κ × List QueuedWrite → r.Answer × (World κ × List QueuedWrite)
  | .outside change, (w, q) => (change w, (change w, q))
  | .queue path contents, (w, q) => ((), (w, q ++ [⟨path, contents, key⟩]))

/-- The queue that a builder leaves. -/
def runBuilder {κ : Type} (o : RunOptions) (a : Artifact) (e : BuilderEntry)
    (behaviour : BuilderBehaviour κ) (queue : List QueuedWrite) :
    Act (World κ) (List QueuedWrite) := fun w =>
  let view : BuilderView := ⟨o, a, e.key, Scope.child o.scope e.key⟩
  let program : Program (builderInterface κ) (Except Failure Unit) := (behaviour view).run
  match program.run (serveBuilder e.key) (w, queue) with
  | (.ok (), (w, q)) => (.ok q, w)
  | (.error f, (w, _)) => (.error f, w)

/-- Run builders one after another. -/
def buildInOrder {κ : Type} (o : RunOptions) (a : Artifact)
    (bs : List (BuilderEntry × BuilderBehaviour κ)) :
    (order : List Nat) → List QueuedWrite → Act (Session κ) (List QueuedWrite)
  | [], queue => pure queue
  | i :: rest, queue =>
    match bs[i]? with
    | none => buildInOrder o a bs rest queue
    | some (e, behaviour) => do
      let queue ← Session.call (.builder i) (runBuilder o a e behaviour queue)
      Session.complete .builder e.key
      buildInOrder o a bs rest queue

/-- Run all builders. The result is the queue of writes. -/
def runBuilders {κ φ : Type} (r : Registry φ (BuilderBehaviour κ)) (o : RunOptions)
    (a : Artifact) : Act (Session κ) (List QueuedWrite) :=
  buildInOrder o a r.builders (Schedule.builders r.builderEntries) []

end StagedCodegen
