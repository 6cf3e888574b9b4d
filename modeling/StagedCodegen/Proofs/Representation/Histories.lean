import StagedCodegen.Proofs.Representation.Snapshots

/-!
# What a draft is finished to

Helpers write to a draft in turn, and some of their writes are refused. Of this history the draft
keeps for each field what was accepted for it last (`Draft.value?_putAll`), and what it is finished
to has just that (`Draft.value?_of_finalize`). A refused write leaves no trace. But it is refused
only because somebody wrote to its field before, so every field that is written to at all has a
value (`Draft.exists_acceptedWrite_iff`).

Main statement: `Draft.finalize_history`.
-/

namespace StagedCodegen

namespace Representation

/-! ## Histories -/

/-- The writes that were accepted, by what came of each. -/
def acceptedWrites (outcomes : List ((Writer × DraftWrite) × Except Failure Unit)) :
    List DraftWrite :=
  (outcomes.filter (·.2.isOk)).map (·.1.2)

theorem acceptedWrites_cons_ok (entry : Writer × DraftWrite)
    (outcomes : List ((Writer × DraftWrite) × Except Failure Unit)) :
    acceptedWrites ((entry, .ok ()) :: outcomes) = entry.2 :: acceptedWrites outcomes := rfl

/-- Of some writes, the last one to a field. -/
def lastWrite (writes : List DraftWrite) (f : Field) : Option DraftWrite :=
  (writes.filter (·.target = f)).getLast?

section LastWrite

variable {writes : List DraftWrite} {f : Field}

theorem lastWrite_cons (write : DraftWrite) (writes : List DraftWrite) (f : Field) :
    lastWrite (write :: writes) f =
      (lastWrite writes f).or (if f = write.target then some write else none) := by
  rw [lastWrite, lastWrite]
  by_cases hf : f = write.target
  · rw [if_pos hf, List.filter_cons_of_pos (by simp [hf]), List.getLast?_cons]
    cases (writes.filter (·.target = f)).getLast? <;> rfl
  · rw [if_neg hf, List.filter_cons_of_neg (by simpa using Ne.symm hf), Option.or_none]

theorem lastWrite_eq_none_iff : lastWrite writes f = none ↔ ∀ write ∈ writes, write.target ≠ f := by
  simp [lastWrite]

theorem lastWrite_ne_none_iff : lastWrite writes f ≠ none ↔ ∃ write ∈ writes, write.target = f := by
  simp [lastWrite_eq_none_iff]

end LastWrite

/-- What an artifact has in a field. -/
def Artifact.value? (a : Artifact) : Field → Option DraftWrite
  | .identity => some (.identity a.data.identity)
  | .capabilityMap => some (.capabilityMap a.data.capabilityMap)
  | .layout => some (.layout a.data.layout)
  | .plan => some (.plan a.data.plan)
  | .resource name => (a.data.resource? name).map .resource
  | .extra name => (a.data.extras.get? name).map (.extra name)
  | .attachment name => (a.attachments.get? name).map (.attachment name)

/-- Where resources ascend, they are those that are found. -/
theorem Data.Ascending.mem_resources_iff {a : Artifact} (h : a.data.Ascending) {r : Resource} :
    r ∈ a.data.resources ↔ a.value? (.resource r.name) = some (.resource r) := by
  have hfound : a.data.resource? r.name = some r ↔ r ∈ a.data.resources :=
    h.resource?_eq_some_iff.trans (and_iff_left rfl)
  rw [Artifact.value?, Option.map_eq_some_iff]
  simp [hfound]

namespace Draft

variable {d : Draft} {f : Field} {failure : Failure}

/-! ## The values that a history leaves -/

theorem value?_put (d : Draft) (w : Writer) (write : DraftWrite) (f : Field) :
    (d.put w write).2.value? f =
      if (d.put w write).1.isOk ∧ f = write.target then some write else d.value? f := by
  rcases hresult : (d.put w write).1 with failure | ⟨⟩
  · rw [put_of_error hresult, if_neg fun h => Bool.false_ne_true h.1]
  · rw [put_of_ok hresult, value?_written]
    simp [Except.isOk, Except.toBool]

/-- A field has what was accepted for it last, or else what it had before. -/
theorem value?_putAll (ws : List (Writer × DraftWrite)) (d : Draft) (f : Field) :
    (putAll Draft.put ws d).2.value? f =
      (lastWrite (acceptedWrites (ws.zip (putAll Draft.put ws d).1)) f).or (d.value? f) := by
  induction ws generalizing d with
  | nil => rfl
  | cons entry ws ih =>
    obtain ⟨w, write⟩ := entry
    simp only [putAll, List.zip_cons_cons]
    rw [ih, value?_put]
    rcases (d.put w write).1 with failure | ⟨⟩
    · rfl
    · rw [acceptedWrites_cons_ok, lastWrite_cons, Option.or_assoc]
      by_cases hf : f = write.target <;> simp [hf, Except.isOk, Except.toBool]

/-- After a write its field has a value, whether it was accepted or not. -/
theorem Owned.value?_put_ne_none_iff (h : d.Owned) (w : Writer) (write : DraftWrite) :
    (d.put w write).2.value? f ≠ none ↔ write.target = f ∨ d.value? f ≠ none := by
  rcases hresult : (d.put w write).1 with failure | ⟨⟩
  · -- whoever owns the field has put a value there
    obtain ⟨owner, howner, -⟩ := put_eq_error_iff.mp hresult
    obtain ⟨v, hv⟩ := (h.value_iff _).mpr ⟨owner, howner⟩
    rw [put_of_error hresult]
    refine ⟨.inr, ?_⟩
    rintro (rfl | hvalue)
    · simp [hv]
    · exact hvalue
  · rw [put_of_ok hresult, value?_written]
    by_cases hf : f = write.target
    · simp [hf]
    · simp [hf, Ne.symm hf]

theorem Owned.value?_putAll_ne_none_iff (h : d.Owned) (ws : List (Writer × DraftWrite)) :
    (putAll Draft.put ws d).2.value? f ≠ none ↔
      (∃ x ∈ ws, x.2.target = f) ∨ d.value? f ≠ none := by
  induction ws generalizing d with
  | nil => simp [putAll]
  | cons entry ws ih =>
    obtain ⟨w, write⟩ := entry
    simp only [putAll]
    rw [ih (h.put w write), h.value?_put_ne_none_iff, ← or_assoc]
    refine or_congr_left (or_comm.trans ?_)
    simp

section History

variable (ws : List (Writer × DraftWrite))

theorem value?_putAll_empty (f : Field) : (putAll Draft.put ws empty).2.value? f =
    lastWrite (acceptedWrites (ws.zip (putAll Draft.put ws empty).1)) f := by
  rw [value?_putAll, value?_empty, Option.or_none]

/-- For every field that is written to, some write is accepted. -/
theorem exists_acceptedWrite_iff (f : Field) : (∃ x ∈ ws, x.2.target = f) ↔
    ∃ write ∈ acceptedWrites (ws.zip (putAll Draft.put ws empty).1), write.target = f := by
  rw [← lastWrite_ne_none_iff, ← value?_putAll_empty, owned_empty.value?_putAll_ne_none_iff,
    value?_empty]
  simp

end History

/-! ## Finishing -/

/-- The fields without which nothing is finished, in the order in which they are missed. -/
def mandatory : List Field := [.identity, .capabilityMap, .layout, .plan]

theorem exists_finalize_eq_ok_iff :
    (∃ a, d.finalize = .ok a) ↔ ∀ f ∈ mandatory, d.value? f ≠ none := by
  unfold finalize
  split <;> simp [mandatory, value?, *]

theorem finalize_eq_error_iff : d.finalize = .error failure ↔
    ∃ f, mandatory.find? (fun f => d.value? f = none) = some f ∧
      failure = .missingField f.text := by
  rcases d with ⟨_ | identity, _ | capabilityMap, _ | layout, _ | plan, resources, extras⟩ <;>
    simp [finalize, mandatory, value?, Field.text, eq_comm]

/-- What is finished has in each field what the draft has. -/
theorem value?_of_finalize (hnames : ByName d.resources) {a : Artifact} (h : d.finalize = .ok a)
    (f : Field) : a.value? f = d.value? f := by
  unfold finalize at h
  split at h <;> cases h
  cases f with
  | resource name => exact congrArg (Option.map _) (hnames.find?_values name)
  | identity | capabilityMap | layout | plan | extra | attachment =>
    simp [Artifact.value?, value?, *]

/-- **What a history is finished to.** Whatever is written to a draft, by whomever and in whatever
order, it can be finished just if a write to each of the four mandatory fields was accepted, and
otherwise the first of these that has none is missed. What it is finished to has in each field what
was accepted for it last, and nothing in a field for which nothing was accepted. Its resources
ascend by name, are the last ones that were accepted under their names, and have between them every
name under which one was put at all. -/
theorem finalize_history (ws : List (Writer × DraftWrite)) :
    let d := (putAll Draft.put ws empty).2
    let writes := acceptedWrites (ws.zip (putAll Draft.put ws empty).1)
    ((∃ a, d.finalize = .ok a) ↔ ∀ f ∈ mandatory, ∃ write ∈ writes, write.target = f) ∧
      (∀ failure, d.finalize = .error failure ↔
        ∃ f, mandatory.find? (fun f => ∀ write ∈ writes, write.target ≠ f) = some f ∧
          failure = .missingField f.text) ∧
      ∀ a, d.finalize = .ok a → (∀ f, a.value? f = lastWrite writes f) ∧ a.data.Ascending ∧
        (∀ r, r ∈ a.data.resources ↔
          lastWrite writes (.resource r.name) = some (.resource r)) ∧
        ∀ name, name ∈ a.data.resources.map (·.name) ↔ ∃ x ∈ ws, x.2.target = .resource name := by
  intro d writes
  have hvalue : ∀ f, d.value? f = lastWrite writes f := value?_putAll_empty ws
  refine ⟨?_, fun failure => ?_, fun a ha => ?_⟩
  · simp only [exists_finalize_eq_ok_iff, hvalue, lastWrite_ne_none_iff]
  · simp only [finalize_eq_error_iff, hvalue, lastWrite_eq_none_iff]
  · have hnames : ByName d.resources := byName_putAll byName_empty ws
    have hascending := ascending_of_finalize hnames ha
    have hlast : ∀ f, a.value? f = lastWrite writes f := fun f =>
      (value?_of_finalize hnames ha f).trans (hvalue f)
    refine ⟨hlast, hascending, fun r => ?_, fun name => ?_⟩
    · rw [hascending.mem_resources_iff, hlast]
    · rw [exists_acceptedWrite_iff, ← lastWrite_ne_none_iff, ← hlast, List.mem_map]
      simp only [← hascending.resource?_eq_some_iff]
      rw [Artifact.value?, Ne, Option.map_eq_none_iff, Option.eq_none_iff_forall_ne_some]
      simp

/-- A rival is refused a resource, gives another one, and then overrides. -/
def rivals : List (Writer × DraftWrite) :=
  [(⟨"a", .extend⟩, .identity ⟨"demo", "demo", "0.1.0", "genpipe.toml", "genpipe.toml"⟩),
    (⟨"a", .extend⟩, .capabilityMap ⟨.empty, []⟩),
    (⟨"a", .extend⟩, .layout ⟨"generated", "php", "ts"⟩), (⟨"a", .extend⟩, .plan ⟨[]⟩),
    (⟨"a", .extend⟩, .resource ⟨"books", "/books", none⟩),
    (⟨"b", .extend⟩, .resource ⟨"books", "/shelf", none⟩),
    (⟨"b", .extend⟩, .resource ⟨"atlas", "/atlas", none⟩),
    (⟨"b", .override⟩, .resource ⟨"books", "/all", none⟩)]

theorem finalize_history_rivals :
    ∃ a, (putAll Draft.put rivals empty).2.finalize = .ok a ∧ a.data.Ascending ∧
      a.data.resource? "books" = some ⟨"books", "/all", none⟩ ∧
      ⟨"atlas", "/atlas", none⟩ ∈ a.data.resources ∧
      a.data.resource? "films" = none := by
  obtain ⟨hok, -, hholds⟩ := finalize_history rivals
  obtain ⟨a, ha⟩ := hok.mpr (by decide)
  obtain ⟨hlast, hascending, hresources, -⟩ := hholds a ha
  have hfilms : (a.data.resource? "films").map DraftWrite.resource = none :=
    hlast (.resource "films")
  have hbooks : (a.data.resource? "books").map DraftWrite.resource =
      some (.resource ⟨"books", "/all", none⟩) :=
    hlast (.resource "books")
  obtain ⟨r, hr, heq⟩ := Option.map_eq_some_iff.mp hbooks
  cases heq
  exact ⟨a, ha, hascending, hr, (hresources _).mpr rfl, Option.map_eq_none_iff.mp hfilms⟩

end Draft

end Representation

end StagedCodegen
