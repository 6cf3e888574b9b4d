import StagedCodegen.Helper
import StagedCodegen.Representation.Artifact

/-!
# Drafts

A representation in the making. Every field belongs to whoever wrote it first; others may write it
only if they override. Each resource, extra value and attachment is a field of its own.

Main statement: `assign_eq_error_iff` says exactly when a write is refused.
-/

namespace StagedCodegen

namespace Representation

/-- A representation in the making. -/
structure Draft where
  /-- Who the project is. -/
  identity : Option Meta
  /-- The capabilities. -/
  capabilityMap : Option CapabilityMap
  /-- Where output goes. -/
  layout : Option Layout
  /-- The planned files. -/
  plan : Option ArtifactPlan
  /-- The resources, by name. -/
  resources : SortedMap Resource
  /-- The extra values, by name. -/
  extras : SortedMap Json
  /-- The attachments, by name. -/
  attachments : SortedMap Attachment
  /-- The owner of each field that was written. -/
  owners : SortedMap String

/-- Who writes, and how. -/
structure Writer where
  /-- The key of the helper. -/
  key : String
  /-- How it stands to others. -/
  mode : HelperMode
deriving DecidableEq, Repr

/-- A write to one field of a draft. -/
inductive DraftWrite where
  /-- Say who the project is. -/
  | identity (m : Meta)
  /-- Give the capabilities. -/
  | capabilityMap (m : CapabilityMap)
  /-- Say where output goes. -/
  | layout (l : Layout)
  /-- Plan the files. -/
  | plan (p : ArtifactPlan)
  /-- Give a resource. -/
  | resource (r : Resource)
  /-- Keep an extra value under a name. -/
  | extra (name : String) (v : Json)
  /-- Attach a value under a name. -/
  | attachment (name : String) (v : Attachment)

/-- The name of the field that a write is for. -/
def DraftWrite.field : DraftWrite → String
  | .identity _ => "meta"
  | .capabilityMap _ => "capability_map"
  | .layout _ => "layout"
  | .plan _ => "artifact_plan"
  | .resource r => "resources." ++ r.name
  | .extra name _ => "extras." ++ name
  | .attachment name _ => "attachments." ++ name

namespace Draft

/-- Nothing yet. -/
def empty : Draft := ⟨none, none, none, none, .empty, .empty, .empty, .empty⟩

/-- The owner of a field. -/
def owner? (d : Draft) (field : String) : Option String := d.owners.get? field

/-- Put the value of a write into its field. -/
def store (d : Draft) : DraftWrite → Draft
  | .identity m => { d with identity := some m }
  | .capabilityMap m => { d with capabilityMap := some m }
  | .layout l => { d with layout := some l }
  | .plan p => { d with plan := some p }
  | .resource r => { d with resources := d.resources.insert r.name r }
  | .extra name v => { d with extras := d.extras.insert name v }
  | .attachment name v => { d with attachments := d.attachments.insert name v }

/-- Write a field, which then belongs to the writer. -/
def assign (d : Draft) (w : Writer) (write : DraftWrite) : Except Failure Draft :=
  match d.owner? write.field with
  | some owner =>
    if owner ≠ w.key ∧ w.mode ≠ .override then
      .error (.fieldConflict write.field owner w.key)
    else .ok { d.store write with owners := d.owners.insert write.field w.key }
  | none => .ok { d.store write with owners := d.owners.insert write.field w.key }

/-- A write is refused exactly when its field has another owner and the writer does not override;
the failure names all three. -/
theorem assign_eq_error_iff {d : Draft} {w : Writer} {write : DraftWrite} {f : Failure} :
    d.assign w write = .error f ↔
      ∃ owner, d.owner? write.field = some owner ∧ owner ≠ w.key ∧ w.mode = .extend ∧
        f = .fieldConflict write.field owner w.key := by
  have hmode : w.mode ≠ .override ↔ w.mode = .extend := by cases w.mode <;> simp
  unfold assign
  cases d.owner? write.field with
  | none => simp
  | some owner =>
    simp only [Option.some.injEq, exists_eq_left', hmode]
    split
    · next h =>
      refine ⟨fun hf => ⟨h.1, h.2, (Except.error.inj hf).symm⟩, ?_⟩
      rintro ⟨-, -, rfl⟩
      rfl
    · next h => exact iff_of_false nofun fun ⟨hother, hextend, _⟩ => h ⟨hother, hextend⟩

/-- What a write makes of a draft. One that is refused leaves it as it is. -/
def put (d : Draft) (w : Writer) (write : DraftWrite) : Except Failure Unit × Draft :=
  match d.assign w write with
  | .ok d' => (.ok (), d')
  | .error failure => (.error failure, d)

/-- The finished artifact, if all four fields that everything needs were written. -/
def finalize (d : Draft) : Except Failure Artifact :=
  match d.identity, d.capabilityMap, d.layout, d.plan with
  | none, _, _, _ => .error (.missingField "meta")
  | _, none, _, _ => .error (.missingField "capability_map")
  | _, _, none, _ => .error (.missingField "layout")
  | _, _, _, none => .error (.missingField "artifact_plan")
  | some identity, some capabilityMap, some layout, some plan =>
    .ok ⟨⟨identity, capabilityMap, layout, plan, d.resources.values, d.extras⟩, 0, d.attachments⟩

end Draft

end Representation

end StagedCodegen
