import StagedCodegen.Adapter
import StagedCodegen.Run.Hooks

/-!
# Adapters in a pipeline

All adapters of a run take part through one hook. Their sandbox is a transaction of the run, so the
files that they queued are written only after everything else has succeeded.
-/

namespace StagedCodegen

open StagedCodegen.Representation

/-- Adapters that take part in the runs of a pipeline. -/
structure Adapters (κ : Type) where
  /-- What makes the adapters. -/
  factories : List (AdapterFactory κ)
  /-- What writes their files. -/
  writer : FileWriter (World κ)
  /-- The formatters of both languages. -/
  formatters : Formatters

namespace Adapters

variable {κ : Type}

/-- The key of the extension through which adapters take part. -/
def key : String := "genpipe.adapter-extensions"

/-- The directory of the description of the project. -/
def configDirectory (o : RunOptions) : Path :=
  match o.sourcePath.parent? with
  | some dir => if dir.text.isEmpty then o.workspace else o.workspace.join dir
  | none => o.workspace

/-- Run the adapters. The artifact is replaced only if one of them has submitted a snapshot. -/
def hook (as : Adapters κ) : Hook κ := fun v a => do
  let options : AdapterOptions := {
    outputDir := v.options.workspace.join ⟨v.options.settings.output.dir⟩
    configDirectory := configDirectory v.options
    formatters := as.formatters
    scope := v.scope }
  let (next, sandbox) ← runAdapters options as.factories a v.options.settings
  return {
    artifact := if next.sameData a then none else some next
    transaction := some (sandbox.transaction as.writer) }

/-- The extension through which the adapters take part. -/
def extension (as : Adapters κ) : Extension κ := ⟨key, fun _ => pure (some as.hook)⟩

end Adapters

end StagedCodegen
