import Mathlib.Logic.Function.Basic
import StagedCodegen.Run.Fragments

/-!
# The fields of a draft

A draft keeps its values apart from their owners: the values in one container for each kind of
field, the owners under texts in a single one. What it amounts to is one map from fields to owners
and values (`Draft.view`). The texts of different fields differ (`Field.text_injective`), so what
is done to one field touches no other.

Main statement: a draft that is written to, by whomever and in whatever order, does what this map
does and is nothing besides (`Draft.writes_refine`).
-/

namespace StagedCodegen

namespace Representation

/-! ## Fields -/

/-- A field of a draft. -/
inductive Field where
  /-- Who the project is. -/
  | identity
  /-- The capabilities. -/
  | capabilityMap
  /-- Where output goes. -/
  | layout
  /-- The planned files. -/
  | plan
  /-- The resource of this name. -/
  | resource (name : String)
  /-- The extra value of this name. -/
  | extra (name : String)
  /-- The attachment of this name. -/
  | attachment (name : String)
deriving DecidableEq

/-- The text under which the owner of a field is kept. -/
def Field.text : Field → String
  | .identity => "meta"
  | .capabilityMap => "capability_map"
  | .layout => "layout"
  | .plan => "artifact_plan"
  | .resource name => "resources." ++ name
  | .extra name => "extras." ++ name
  | .attachment name => "attachments." ++ name

/-- Different fields have different texts, whatever their names are. -/
theorem Field.text_injective : Function.Injective Field.text := by
  intro f g h
  rw [← String.toList_inj] at h
  -- texts of different kinds differ before the name begins
  cases f <;> cases g <;> simp [text] at h ⊢ <;> exact String.toList_inj.mp h

/-- The field that a write is for. -/
def DraftWrite.target : DraftWrite → Field
  | .identity _ => .identity
  | .capabilityMap _ => .capabilityMap
  | .layout _ => .layout
  | .plan _ => .plan
  | .resource r => .resource r.name
  | .extra name _ => .extra name
  | .attachment name _ => .attachment name

theorem DraftWrite.field_eq (write : DraftWrite) : write.field = write.target.text := by
  cases write <;> rfl

/-! ## The map of fields -/

/-- A map from fields to their owners and to what was written to them. -/
abbrev FieldMap := Field → Option (String × DraftWrite)

/-- A write to the map. It is refused if the field has another owner and the writer does not
override, and then nothing changes. -/
def FieldMap.put (m : FieldMap) (w : Writer) (write : DraftWrite) :
    Except Failure Unit × FieldMap :=
  match m write.target with
  | some (owner, _) =>
    if owner ≠ w.key ∧ w.mode = .extend then
      (.error (.fieldConflict write.target.text owner w.key), m)
    else (.ok (), Function.update m write.target (some (w.key, write)))
  | none => (.ok (), Function.update m write.target (some (w.key, write)))

/-- Writes by different writers, one after another, with what came of each. -/
def putAll {σ : Type} (put : σ → Writer → DraftWrite → Except Failure Unit × σ) :
    List (Writer × DraftWrite) → σ → List (Except Failure Unit) × σ
  | [], s => ([], s)
  | (w, write) :: rest, s =>
    let others := putAll put rest (put s w write).2
    ((put s w write).1 :: others.1, others.2)

namespace Draft

variable {d d' : Draft} {w : Writer} {write : DraftWrite} {f : Field} {failure : Failure}

/-! ## Values and owners -/

/-- What was written to a field last. -/
def value? (d : Draft) : Field → Option DraftWrite
  | .identity => d.identity.map .identity
  | .capabilityMap => d.capabilityMap.map .capabilityMap
  | .layout => d.layout.map .layout
  | .plan => d.plan.map .plan
  | .resource name => (d.resources.get? name).map .resource
  | .extra name => (d.extras.get? name).map (.extra name)
  | .attachment name => (d.attachments.get? name).map (.attachment name)

/-- The map that a draft amounts to. -/
def view (d : Draft) : FieldMap := fun f =>
  (d.owner? f.text).bind fun owner => (d.value? f).map fun v => (owner, v)

theorem view_eq_some_iff {owner : String} {v : DraftWrite} :
    d.view f = some (owner, v) ↔ d.owner? f.text = some owner ∧ d.value? f = some v := by
  rw [view]
  cases d.owner? f.text <;> cases d.value? f <;> simp

theorem value?_empty (f : Field) : empty.value? f = none := by cases f <;> rfl

theorem owner?_empty (text : String) : empty.owner? text = none := rfl

/-- Storing a value changes the field that it is for, and no other. -/
theorem value?_store (d : Draft) (write : DraftWrite) (f : Field) :
    (d.store write).value? f = if f = write.target then some write else d.value? f := by
  cases write with
  | identity | capabilityMap | layout | plan => cases f <;> rfl
  | resource r =>
    cases f with
    | resource name =>
      by_cases h : name = r.name <;>
        simp [store, value?, DraftWrite.target, SortedMap.get?_insert, h]
    | _ => rfl
  | extra k v =>
    cases f with
    | extra name =>
      by_cases h : name = k <;> simp [store, value?, DraftWrite.target, SortedMap.get?_insert, h]
    | _ => rfl
  | attachment k v =>
    cases f with
    | attachment name =>
      by_cases h : name = k <;> simp [store, value?, DraftWrite.target, SortedMap.get?_insert, h]
    | _ => rfl

/-- The draft once a write was accepted. -/
def written (d : Draft) (w : Writer) (write : DraftWrite) : Draft :=
  { d.store write with owners := d.owners.insert write.field w.key }

theorem value?_written (d : Draft) (w : Writer) (write : DraftWrite) (f : Field) :
    (d.written w write).value? f = if f = write.target then some write else d.value? f := by
  rw [← value?_store]
  cases f <;> rfl

theorem owner?_written (d : Draft) (w : Writer) (write : DraftWrite) (text : String) :
    (d.written w write).owner? text =
      if text = write.target.text then some w.key else d.owner? text := by
  rw [← DraftWrite.field_eq]
  exact SortedMap.get?_insert d.owners write.field text w.key

theorem view_written (d : Draft) (w : Writer) (write : DraftWrite) :
    (d.written w write).view = Function.update d.view write.target (some (w.key, write)) := by
  funext f
  rw [view, value?_written, owner?_written]
  by_cases hf : f = write.target
  · subst hf
    simp
  · rw [if_neg hf, if_neg fun htext => hf (Field.text_injective htext), Function.update_of_ne hf]
    rfl

/-! ## Writing -/

theorem assign_of_ok (h : d.assign w write = .ok d') : d' = d.written w write := by
  unfold assign at h
  split at h
  · split at h
    · cases h
    · exact (Except.ok.inj h).symm
  · exact (Except.ok.inj h).symm

/-- A write is refused exactly when its field has another owner and the writer does not override;
the failure names all three. -/
theorem put_eq_error_iff : (d.put w write).1 = .error failure ↔
    ∃ owner, d.owner? write.target.text = some owner ∧ owner ≠ w.key ∧ w.mode = .extend ∧
      failure = .fieldConflict write.target.text owner w.key := by
  rw [← DraftWrite.field_eq, ← assign_eq_error_iff, put]
  cases d.assign w write <;> simp

theorem put_of_error (h : (d.put w write).1 = .error failure) : (d.put w write).2 = d := by
  rw [put] at h ⊢
  cases hassign : d.assign w write with
  | error g => rfl
  | ok d' => simp [hassign] at h

theorem put_of_ok (h : (d.put w write).1 = .ok ()) : (d.put w write).2 = d.written w write := by
  rw [put] at h ⊢
  cases hassign : d.assign w write with
  | error g => simp [hassign] at h
  | ok d' => exact assign_of_ok hassign

/-! ## Drafts that were written to -/

/-- A field has a value just if it has an owner, and nothing else has an owner. -/
structure Owned (d : Draft) : Prop where
  value_iff : ∀ f : Field, (∃ v, d.value? f = some v) ↔ ∃ owner, d.owner? f.text = some owner
  text : ∀ text owner, d.owner? text = some owner → ∃ f : Field, f.text = text

theorem owned_empty : empty.Owned where
  value_iff f := by simp [value?_empty, owner?_empty]
  text text owner h := by simp [owner?_empty] at h

theorem Owned.written (h : d.Owned) (w : Writer) (write : DraftWrite) :
    (d.written w write).Owned where
  value_iff f := by
    rw [value?_written, owner?_written]
    by_cases hf : f = write.target
    · rw [if_pos hf, if_pos (congrArg Field.text hf)]
      simp
    · rw [if_neg hf, if_neg fun htext => hf (Field.text_injective htext)]
      exact h.value_iff f
  text text owner howner := by
    rw [owner?_written] at howner
    split at howner
    · next htext => exact ⟨write.target, htext.symm⟩
    · exact h.text text owner howner

theorem Owned.put (h : d.Owned) (w : Writer) (write : DraftWrite) : (d.put w write).2.Owned := by
  rcases hresult : (d.put w write).1 with failure | ⟨⟩
  · rwa [put_of_error hresult]
  · rw [put_of_ok hresult]
    exact h.written w write

theorem Owned.owner?_eq (h : d.Owned) (f : Field) :
    d.owner? f.text = (d.view f).map Prod.fst := by
  rw [view]
  cases howner : d.owner? f.text with
  | none => rfl
  | some owner =>
    obtain ⟨v, hv⟩ := (h.value_iff f).mpr ⟨owner, howner⟩
    rw [hv]
    rfl

theorem Owned.value?_eq (h : d.Owned) (f : Field) : d.value? f = (d.view f).map Prod.snd := by
  rw [view]
  cases hvalue : d.value? f with
  | none => cases d.owner? f.text <;> rfl
  | some v =>
    obtain ⟨owner, howner⟩ := (h.value_iff f).mp ⟨v, hvalue⟩
    rw [howner]
    rfl

/-- One write does to the draft what it does to the map. -/
theorem Owned.put_eq (h : d.Owned) (w : Writer) (write : DraftWrite) :
    d.view.put w write = ((d.put w write).1, (d.put w write).2.view) := by
  rcases hresult : (d.put w write).1 with failure | ⟨⟩
  · obtain ⟨owner, howner, hother, hmode, rfl⟩ := put_eq_error_iff.mp hresult
    obtain ⟨v, hv⟩ := (h.value_iff _).mpr ⟨owner, howner⟩
    rw [put_of_error hresult, FieldMap.put, view_eq_some_iff.mpr ⟨howner, hv⟩]
    simp only
    rw [if_pos ⟨hother, hmode⟩]
  · rw [put_of_ok hresult, view_written, FieldMap.put]
    split
    · next owner v hview =>
      split
      · next hrefused =>
        have howner := (view_eq_some_iff.mp hview).1
        have herror := put_eq_error_iff.mpr ⟨owner, howner, hrefused.1, hrefused.2, rfl⟩
        rw [hresult] at herror
        cases herror
      · rfl
    · rfl

/-- After any writes the draft is owned, and they have done to it what they do to the map. -/
theorem Owned.refines (h : d.Owned) (ws : List (Writer × DraftWrite)) :
    (putAll Draft.put ws d).2.Owned ∧
      putAll FieldMap.put ws d.view =
        ((putAll Draft.put ws d).1, (putAll Draft.put ws d).2.view) := by
  induction ws generalizing d with
  | nil => exact ⟨h, rfl⟩
  | cons entry rest ih =>
    obtain ⟨w, write⟩ := entry
    obtain ⟨howned, hrest⟩ := ih (h.put w write)
    refine ⟨howned, ?_⟩
    simp only [putAll, h.put_eq, hrest]

/-- The map of a draft is all there is to it. -/
theorem Owned.eq_of_view (h : d.Owned) (h' : d'.Owned) (hview : d.view = d'.view) : d = d' := by
  have hvalue : ∀ f, d.value? f = d'.value? f := fun f => by
    rw [h.value?_eq, h'.value?_eq, hview]
  have howner : ∀ text, d.owner? text = d'.owner? text := by
    intro text
    by_cases htext : ∃ f : Field, f.text = text
    · obtain ⟨f, rfl⟩ := htext
      rw [h.owner?_eq, h'.owner?_eq, hview]
    · have hnone : ∀ {e : Draft}, e.Owned → e.owner? text = none := fun he =>
        Option.eq_none_iff_forall_ne_some.mpr fun owner ho => htext (he.text text owner ho)
      rw [hnone h, hnone h']
  have hidentity : d.identity = d'.identity :=
    Option.map_injective (fun _ _ heq => DraftWrite.identity.inj heq) (hvalue .identity)
  have hcapabilities : d.capabilityMap = d'.capabilityMap :=
    Option.map_injective (fun _ _ heq => DraftWrite.capabilityMap.inj heq) (hvalue .capabilityMap)
  have hlayout : d.layout = d'.layout :=
    Option.map_injective (fun _ _ heq => DraftWrite.layout.inj heq) (hvalue .layout)
  have hplan : d.plan = d'.plan :=
    Option.map_injective (fun _ _ heq => DraftWrite.plan.inj heq) (hvalue .plan)
  have hresources : d.resources = d'.resources := SortedMap.ext_get? fun name =>
    Option.map_injective (fun _ _ heq => DraftWrite.resource.inj heq) (hvalue (.resource name))
  have hextras : d.extras = d'.extras := SortedMap.ext_get? fun name =>
    Option.map_injective (fun _ _ heq => (DraftWrite.extra.inj heq).2) (hvalue (.extra name))
  have hattachments : d.attachments = d'.attachments := SortedMap.ext_get? fun name =>
    Option.map_injective (fun _ _ heq => (DraftWrite.attachment.inj heq).2)
      (hvalue (.attachment name))
  have howners : d.owners = d'.owners := SortedMap.ext_get? howner
  cases d
  cases d'
  simp only at hidentity hcapabilities hlayout hplan hresources hextras hattachments howners
  rw [hidentity, hcapabilities, hlayout, hplan, hresources, hextras, hattachments, howners]

/-- Whatever was written to a draft, by whomever and in whatever order: what came of each write and
the map that the draft amounts to are those of the map written to; a field has a value just if it
has an owner, and nothing else has one; and drafts with the same map are the same. A further write
is refused just if its field belongs to another and the writer does not override, with a failure
that names the owner, and then the draft stays as it is; otherwise its field has this value and this
owner, and no other field changes. -/
theorem writes_refine (ws : List (Writer × DraftWrite)) :
    let results := (putAll Draft.put ws empty).1
    let d := (putAll Draft.put ws empty).2
    putAll FieldMap.put ws (fun _ => none) = (results, d.view) ∧
    (∀ f : Field, (∃ v, d.value? f = some v) ↔ ∃ owner, d.owner? f.text = some owner) ∧
    (∀ text owner, d.owner? text = some owner → ∃ f : Field, f.text = text) ∧
    (∀ ws', (putAll Draft.put ws' empty).2.view = d.view →
      (putAll Draft.put ws' empty).2 = d) ∧
    ∀ (w : Writer) (write : DraftWrite),
      (∀ failure, (d.put w write).1 = .error failure ↔
        ∃ owner, d.owner? write.target.text = some owner ∧ owner ≠ w.key ∧ w.mode = .extend ∧
          failure = .fieldConflict write.target.text owner w.key) ∧
      (∀ failure, (d.put w write).1 = .error failure → (d.put w write).2 = d) ∧
      ((d.put w write).1 = .ok () → ∀ f : Field,
        (d.put w write).2.value? f = (if f = write.target then some write else d.value? f) ∧
        (d.put w write).2.owner? f.text =
          if f = write.target then some w.key else d.owner? f.text) := by
  intro results d
  obtain ⟨howned, hputs⟩ := owned_empty.refines ws
  refine ⟨hputs, howned.value_iff, howned.text, ?_, fun w write => ⟨?_, ?_, ?_⟩⟩
  · exact fun ws' hview => (owned_empty.refines ws').1.eq_of_view howned hview
  · exact fun failure => put_eq_error_iff
  · exact fun failure => put_of_error
  · intro hok f
    rw [put_of_ok hok, owner?_written]
    simp only [value?_written, Field.text_injective.eq_iff, true_and]

end Draft

end Representation

end StagedCodegen
