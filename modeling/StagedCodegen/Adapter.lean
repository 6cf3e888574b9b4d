import StagedCodegen.Adapter.Sandbox
import StagedCodegen.Program
import StagedCodegen.Representation.Artifact
import StagedCodegen.Settings
import StagedCodegen.SourceFormat

/-!
# Adapters

An adapter gets a snapshot of the artifact, queues files, and may submit a snapshot from which the
next adapter's artifact is made. Adapters come from factories; before any of them runs, all
factories must have succeeded and all names must differ. When an adapter fails, the whole sandbox
is rolled back.
-/

namespace StagedCodegen

open StagedCodegen.Representation

/-! ## What an adapter can do -/

/-- What an adapter can ask for. -/
inductive AdapterRequest (κ : Type) where
  /-- Change the world, and see it. -/
  | outside (change : World κ → World κ)
  /-- See the snapshot. -/
  | look
  /-- Change the snapshot, which nobody else sees. -/
  | edit (change : Snapshot → Snapshot)
  /-- Submit a snapshot, in place of one submitted earlier. -/
  | submit (s : Snapshot)
  /-- Queue a file. -/
  | queue (path : Path) (contents : ByteArray)

/-- What an adapter gets to its requests. -/
def AdapterRequest.Answer {κ : Type} : AdapterRequest κ → Type
  | .outside _ => World κ
  | .look => Snapshot
  | .edit _ => Unit
  | .submit _ => Except Failure Unit
  | .queue _ _ => Except Failure Path

/-- The requests of adapters with their answers. -/
def adapterInterface (κ : Type) : Interface := ⟨AdapterRequest κ, AdapterRequest.Answer⟩

/-- What an adapter knows. -/
structure AdapterView where
  /-- Its name, without blanks around it. -/
  name : String
  /-- The directory inside which all files go. -/
  outputDir : Path
  /-- The directory of the description of the project. -/
  configDirectory : Path
  /-- There is a directory for temporary files. -/
  hasScratch : Bool
  /-- The formatters of both languages. -/
  formatters : Formatters
  /-- The scope of what it says. -/
  scope : Scope

/-- A program of an adapter, which fails with a report of its own. -/
abbrev AdapterProgram (κ α : Type) := ExceptT Report (Program (adapterInterface κ)) α

namespace AdapterProgram

variable {κ : Type}

/-- Change the world, and see it. -/
def outside (change : World κ → World κ) : AdapterProgram κ (World κ) :=
  ExceptT.lift (Program.request (I := adapterInterface κ) (.outside change))

/-- See the snapshot. -/
def look : AdapterProgram κ Snapshot :=
  ExceptT.lift (Program.request (I := adapterInterface κ) .look)

/-- Change the snapshot. -/
def edit (change : Snapshot → Snapshot) : AdapterProgram κ Unit :=
  ExceptT.lift (Program.request (I := adapterInterface κ) (.edit change))

/-- Submit a snapshot. -/
def submit (s : Snapshot) : AdapterProgram κ (Except Failure Unit) :=
  ExceptT.lift (Program.request (I := adapterInterface κ) (.submit s))

/-- Queue a file. -/
def queue (path : Path) (contents : ByteArray) : AdapterProgram κ (Except Failure Path) :=
  ExceptT.lift (Program.request (I := adapterInterface κ) (.queue path contents))

end AdapterProgram

/-- Something that takes part in generation from inside a sandbox. -/
structure Adapter (κ : Type) where
  /-- Its name. -/
  name : String
  /-- What it does. -/
  behaviour : AdapterView → AdapterProgram κ Unit

/-- Something that makes adapters. -/
abbrev AdapterFactory (κ : Type) :=
  Artifact → Settings → Attempt Report (World κ) (List (Adapter κ))

/-! ## Making adapters -/

/-- Accept adapters of the factory with this index, whose names must differ from those in `seen`.
The result is the adapters, without blanks around their names. -/
def acceptAdapters {κ : Type} (factory : Nat) :
    (seen : List String) → List (Adapter κ) → Except Failure (List (Adapter κ))
  | _, [] => .ok []
  | seen, a :: rest =>
    let name := Text.trim a.name
    if name = "" then
      .error (.invalidAdapter
        ("factory #" ++ toString factory ++ " produced an extension without a name"))
    else if name ∈ seen then
      .error (.invalidAdapter ("duplicate adapter extension name '" ++ name ++ "'"))
    else
      match acceptAdapters factory (name :: seen) rest with
      | .error f => .error f
      | .ok accepted => .ok ({ a with name := name } :: accepted)

/-- Let factories make their adapters, the first of them having the given index, after the adapters
in `made`. -/
def collectAdaptersFrom {κ : Type} (a : Artifact) (s : Settings) :
    (index : Nat) → (made : List (Adapter κ)) → List (AdapterFactory κ) →
      Act (World κ) (List (Adapter κ))
  | _, made, [] => pure made
  | i, made, factory :: rest => fun w =>
    match factory a s w with
    | (.error r, w) =>
      (.error (.invalidAdapter ("factory #" ++ toString i ++ " failed: " ++ r.fullText)), w)
    | (.ok produced, w) =>
      match acceptAdapters i (made.map (·.name)) produced with
      | .error f => (.error f, w)
      | .ok accepted => collectAdaptersFrom a s (i + 1) (made ++ accepted) rest w

/-- Let all factories make their adapters. -/
def collectAdapters {κ : Type} (a : Artifact) (s : Settings) (factories : List (AdapterFactory κ)) :
    Act (World κ) (List (Adapter κ)) := collectAdaptersFrom a s 0 [] factories

/-! ## Running adapters -/

/-- The state that an adapter works on. -/
structure AdapterState (κ : Type) where
  /-- The world. -/
  world : World κ
  /-- The snapshot. -/
  snapshot : Snapshot
  /-- What was submitted last. -/
  submitted : Option Snapshot
  /-- The sandbox. -/
  sandbox : Sandbox

/-- What a request of the adapter of this name does. -/
def AdapterState.serve {κ : Type} (name : String) :
    (r : AdapterRequest κ) → AdapterState κ → r.Answer × AdapterState κ
  | .outside change, s => (change s.world, { s with world := change s.world })
  | .look, s => (s.snapshot, s)
  | .edit change, s => ((), { s with snapshot := change s.snapshot })
  | .submit next, s =>
    if next.version = snapshotVersion then (.ok (), { s with submitted := some next })
    else (.error (.snapshotVersion snapshotVersion next.version), s)
  | .queue path contents, s =>
    match s.sandbox.stage s.world.disk name path contents with
    | (result, sandbox) => (result, { s with sandbox := sandbox })

/-- What adapters are run with. -/
structure AdapterOptions where
  /-- The directory inside which all files go. -/
  outputDir : Path
  /-- The directory of the description of the project. -/
  configDirectory : Path
  /-- The formatters of both languages. -/
  formatters : Formatters
  /-- The scope of what is said. -/
  scope : Scope

/-- Run one adapter. The result is the artifact that it leaves, and the sandbox. -/
def runAdapter {κ : Type} (o : AdapterOptions) (adapter : Adapter κ) (a : Artifact)
    (sandbox : Sandbox) (w : World κ) : Except Failure Artifact × Sandbox × World κ :=
  let view : AdapterView := {
    name := adapter.name
    outputDir := sandbox.outputDir
    configDirectory := o.configDirectory
    hasScratch := sandbox.hasScratch
    formatters := o.formatters
    scope := Scope.child o.scope adapter.name }
  let program : Program (adapterInterface κ) (Except Report Unit) := (adapter.behaviour view).run
  match program.run (AdapterState.serve adapter.name) ⟨w, a.snapshot, none, sandbox⟩ with
  | (.error r, s) => (.error r.normalize, s.sandbox, s.world)
  | (.ok (), s) =>
    match s.submitted with
    | none => (.ok a, s.sandbox, s.world)
    | some next => (a.applySnapshot next, s.sandbox, s.world)

/-- Run adapters one after another. When one fails, the sandbox is rolled back and the user told. -/
def runInSandbox {κ : Type} (o : AdapterOptions) :
    List (Adapter κ) → Artifact → Sandbox → World κ →
      Except Failure Artifact × Sandbox × World κ
  | [], a, sandbox, w => (.ok a, sandbox, w)
  | adapter :: rest, a, sandbox, w =>
    match runAdapter o adapter a sandbox w with
    | (.error f, sandbox, w) =>
      (.error f, sandbox.rollback, w.report (Scope.child o.scope adapter.name) f)
    | (.ok a, sandbox, w) => runInSandbox o rest a sandbox w

/-- Let factories make adapters, and run them. The result is the artifact that they leave, and the
sandbox with the files that they queued. -/
def runAdapters {κ : Type} (o : AdapterOptions) (factories : List (AdapterFactory κ))
    (a : Artifact) (s : Settings) : Act (World κ) (Artifact × Sandbox) := fun w =>
  match collectAdapters a s factories w with
  | (.error f, w) => (.error f, w.report o.scope f)
  | (.ok adapters, w) =>
    match Sandbox.new w.disk o.outputDir (!adapters.isEmpty) with
    | .error f => (.error f, w)
    | .ok sandbox =>
      match runInSandbox o adapters a sandbox w with
      | (.error f, _, w) => (.error f, w)
      | (.ok a, sandbox, w) => (.ok (a, sandbox), w)

end StagedCodegen
