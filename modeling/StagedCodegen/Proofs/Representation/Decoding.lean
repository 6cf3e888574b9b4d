import Mathlib.Algebra.Group.Nat.Defs
import StagedCodegen.Proofs.Json.RoundTrip
import StagedCodegen.Representation.Artifact

/-!
# Snapshots can be decoded

Each part of a snapshot is read from JSON as it is written to JSON: what is left out is read as
nothing, and every word stands for what it was written for. So the text of a snapshot gives that
snapshot, and data that differs has texts that differ. What is asked of the snapshot concerns its
extras alone, since nothing else can be nested deeply or hold numbers.

Main statement: `Snapshot.read?_print`.
-/

namespace StagedCodegen.Representation

/-! ## Parts -/

theorem Meta.ofJson?_toJson (m : Meta) : Meta.ofJson? m.toJson = some m := by
  simp [Meta.ofJson?, Meta.toJson, Json.fields?, Json.required, Json.string?]

/-- Every word for where a capability was found is read as that. -/
theorem CapabilitySource.choice?_text (c : CapabilitySource) :
    Json.choice? capabilitySources (.string c.text) = some c := by
  cases c <;> decide

theorem CapabilityEntry.ofJson?_toJson (e : CapabilityEntry) :
    CapabilityEntry.ofJson? e.toJson = some e := by
  simp [CapabilityEntry.ofJson?, CapabilityEntry.toJson, Json.fields?, Json.required, Json.string?,
    e.source.choice?_text]

theorem CapabilityMap.ofJson?_toJson (m : CapabilityMap) :
    CapabilityMap.ofJson? m.toJson = some m := by
  have hentries : Json.map? CapabilityEntry.ofJson?
      (Json.ofMap CapabilityEntry.toJson m.entries) = some m.entries :=
    Json.map?_ofMap fun e _ => e.2.ofJson?_toJson
  simp [CapabilityMap.ofJson?, CapabilityMap.toJson, Json.fields?, Json.required, Json.defaulted,
    hentries, Json.list?_strings]

theorem Layout.ofJson?_toJson (l : Layout) : Layout.ofJson? l.toJson = some l := by
  simp [Layout.ofJson?, Layout.toJson, Json.fields?, Json.required, Json.string?]

/-- Every word for a kind of file is read as that kind. -/
theorem ArtifactKind.choice?_text (k : ArtifactKind) :
    Json.choice? artifactKinds (.string k.text) = some k := by
  cases k <;> decide

theorem PlannedArtifact.ofJson?_toJson (e : PlannedArtifact) :
    PlannedArtifact.ofJson? e.toJson = some e := by
  obtain ⟨id, kind, path, resource⟩ := e
  cases resource <;>
    simp [PlannedArtifact.ofJson?, PlannedArtifact.toJson, memberIfSome, Json.fields?,
      Json.required, Json.optional, Json.string?, kind.choice?_text]

theorem ArtifactPlan.ofJson?_toJson (p : ArtifactPlan) :
    ArtifactPlan.ofJson? p.toJson = some p := by
  have hentries : Json.list? PlannedArtifact.ofJson?
      (.array (p.entries.map PlannedArtifact.toJson)) = some p.entries :=
    Json.list?_map fun e _ => e.ofJson?_toJson
  simp [ArtifactPlan.ofJson?, ArtifactPlan.toJson, Json.fields?, Json.required, hentries]

theorem Resource.ofJson?_toJson (r : Resource) : Resource.ofJson? r.toJson = some r := by
  obtain ⟨name, route, capability⟩ := r
  cases capability <;>
    simp [Resource.ofJson?, Resource.toJson, memberIfSome, Json.fields?, Json.required,
      Json.optional, Json.string?]

/-! ## Whole snapshots -/

/-- The extras are in the form in which values are kept. -/
def Data.Canonical (d : Data) : Prop := ∀ e ∈ d.extras.entries, e.2.canonical = e.2

theorem Data.ofJson?_toJson {d : Data} (h : d.Canonical) : Data.ofJson? d.toJson = some d := by
  have hresources : Json.list? Resource.ofJson? (.array (d.resources.map Resource.toJson)) =
      some d.resources := Json.list?_map fun r _ => r.ofJson?_toJson
  have hextras : Json.map? (fun v => some v.canonical) (Json.ofMap id d.extras) = some d.extras :=
    Json.map?_ofMap fun e he => congrArg some (h e he)
  simp [Data.ofJson?, Data.toJson, Json.fields?, Json.required, Json.defaulted,
    d.identity.ofJson?_toJson, d.capabilityMap.ofJson?_toJson, d.layout.ofJson?_toJson,
    d.plan.ofJson?_toJson, hresources, hextras]

theorem natBelow?_int {n bound : Nat} (h : n < bound) : Json.natBelow? bound (.int n) = some n := by
  simp [Json.natBelow?, Json.int?, h]

/-- The fields of a snapshot, whatever reads the version: a bound that is written out would be
counted up to when the proof is checked. -/
theorem Snapshot.fields_toJson {s : Snapshot} (h : s.data.Canonical) {read : Json → Option Nat}
    (hread : read (.int s.version) = some s.version) :
    (do
      match ← s.toJson.fields? true ["version", "data", "stripped"] with
      | [version, data, stripped] =>
        return {
          version := ← Json.required read version
          data := ← Json.required Data.ofJson? data
          stripped := ← Json.defaulted (Json.list? Json.string?) [] stripped }
      | _ => none : Option Snapshot) = some s := by
  simp [toJson, Json.fields?, Json.required, Json.defaulted, hread, Data.ofJson?_toJson h,
    Json.list?_strings]

theorem Snapshot.ofJson?_toJson {s : Snapshot} (hversion : s.version < 2 ^ 32)
    (h : s.data.Canonical) : Snapshot.ofJson? s.toJson = some s := by
  have h32 : Nat.pow 2 32 = 2 ^ 32 := rfl
  exact fields_toJson h (natBelow?_int (by omega))

/-! ## Depth -/

section Depth

open Json (Readable ReadableMembers ReadableMember)

variable {depth : Nat}

theorem readable_memberIfSome (name : String) (s : Option String) :
    ReadableMembers (memberIfSome name s) depth := by
  cases s with
  | none => trivial
  | some s => exact ⟨trivial, trivial⟩

theorem CapabilityMap.readable_toJson (m : CapabilityMap) (h : 3 < depth) :
    m.toJson.Readable depth := by
  have hentry : ∀ e : CapabilityEntry, e.toJson.Readable (depth - 1 - 1) := fun _ =>
    ⟨by omega, trivial, trivial, trivial⟩
  exact ⟨by omega, Json.readable_ofMap (by omega) hentry m.entries,
    Json.readable_strings m.missing (by omega), trivial⟩

theorem ArtifactPlan.readable_toJson (p : ArtifactPlan) (h : 3 < depth) :
    p.toJson.Readable depth := by
  have hentry : ∀ e ∈ p.entries, e.toJson.Readable (depth - 1 - 1) := fun _ _ =>
    ⟨by omega, trivial, trivial, trivial, readable_memberIfSome _ _⟩
  exact ⟨by omega, ⟨by omega, Json.readableItems_map.mpr hentry⟩, trivial⟩

/-- Data can be read if its extras can: whatever else it holds are texts, in few brackets. -/
theorem Data.readable_toJson_iff {d : Data} (hdepth : 4 < depth) :
    d.toJson.Readable depth ↔ ∀ e ∈ d.extras.entries, e.2.Readable (depth - 2) := by
  have hresources : ∀ r ∈ d.resources, r.toJson.Readable (depth - 1 - 1) := fun _ _ =>
    ⟨by omega, trivial, trivial, readable_memberIfSome _ _⟩
  have hextras : (Json.ofMap id d.extras).Readable (depth - 1) ↔
      ∀ e ∈ d.extras.entries, e.2.Readable (depth - 2) :=
    (and_iff_right (by omega)).trans Json.readableMembers_map
  constructor
  · rintro ⟨-, -, -, -, -, -, h, -⟩
    exact hextras.mp h
  · intro h
    exact ⟨by omega, ⟨by omega, trivial, trivial, trivial, trivial, trivial, trivial⟩,
      d.capabilityMap.readable_toJson (by omega), ⟨by omega, trivial, trivial, trivial, trivial⟩,
      d.plan.readable_toJson (by omega), ⟨by omega, Json.readableItems_map.mpr hresources⟩,
      hextras.mpr h, trivial⟩

/-- A snapshot can be read if its extras can. -/
theorem Snapshot.readable_toJson_iff {s : Snapshot} (hversion : s.version < 2 ^ 32)
    (hdepth : 5 < depth) :
    s.toJson.Readable depth ↔ ∀ e ∈ s.data.extras.entries, e.2.Readable (depth - 3) := by
  have hnumber : (Json.int s.version).Readable (depth - 1) := by
    refine ⟨?_, ?_⟩ <;> omega
  have hdata : s.data.toJson.Readable (depth - 1) ↔
      ∀ e ∈ s.data.extras.entries, e.2.Readable (depth - 1 - 2) :=
    Data.readable_toJson_iff (by omega)
  constructor
  · rintro ⟨-, -, h, -⟩
    exact hdata.mp h
  · intro h
    exact ⟨by omega, hnumber, hdata.mpr h, Json.readable_strings _ (by omega), trivial⟩

end Depth

/-! ## Texts -/

/-- The snapshot that a text gives. -/
def Snapshot.read? (text : String) : Option Snapshot := (Json.parse? text).bind ofJson?

/-- Data with equal texts is equal, since one text gives one value. -/
theorem Data.eq_of_toUTF8_print {d e : Data} (hd : d.Canonical) (he : e.Canonical)
    (hdread : d.toJson.Readable 128) (heread : e.toJson.Readable 128)
    (h : d.toJson.print.toUTF8 = e.toJson.print.toUTF8) : d = e := by
  have htext : d.toJson.print = e.toJson.print := String.toByteArray_inj.mp h
  have hjson : some d.toJson = some e.toJson := by
    rw [← Json.parse?_print hdread, ← Json.parse?_print heread, htext]
  have hdata : some d = some e := by
    rw [← Data.ofJson?_toJson hd, ← Data.ofJson?_toJson he, Option.some.inj hjson]
  exact Option.some.inj hdata

/-- **Snapshots can be decoded.** If the extras of a snapshot are in the form in which values are
kept, hold no doubles and no numbers beyond 64 bits, and nest no deeper than the reader allows, then
its text gives that snapshot. So artifacts whose data is of this kind and differs are never digested
from the same bytes. -/
theorem Snapshot.read?_print {s : Snapshot} (hversion : s.version < 2 ^ 32)
    (hcanonical : s.data.Canonical) (hreadable : s.toJson.Readable 128) :
    read? s.toJson.print = some s ∧
      ∀ a b : Artifact, a.data.Canonical → b.data.Canonical → a.data.toJson.Readable 128 →
        b.data.toJson.Readable 128 → a.data ≠ b.data → a.bytes ≠ b.bytes := by
  refine ⟨?_, fun a b ha hb haread hbread hne h => hne ?_⟩
  · rw [read?, Json.parse?_print hreadable, Option.bind_some, ofJson?_toJson hversion hcanonical]
  · exact Data.eq_of_toUTF8_print ha hb haread hbread h

/-- A snapshot with something of everything: what is left out and what is not, a number below zero,
and extras inside each other. -/
def shop : Snapshot where
  version := 1
  data := {
    identity := ⟨"Acme \"Demo\"", "acme-demo", "0.1.0", "genpipe.toml", "genpipe.toml"⟩
    capabilityMap := ⟨SortedMap.empty.insert "write" ⟨"edit_posts", .configured⟩, ["read"]⟩
    layout := ⟨"generated", "php", "ts"⟩
    plan := ⟨[⟨"books", .phpController, "generated/php/Books.php", some "books"⟩,
      ⟨"manifest", .manifest, "generated/manifest.json", none⟩]⟩
    resources := [⟨"books", "/books", some "write"⟩, ⟨"films", "/films", none⟩]
    extras := SortedMap.empty.insert "limits"
      (.object [("lowest", .array [.int (-5), .null]), ("open", .object [("at", .int 9)])]) }
  stripped := ["books.override"]

/-- The same shop without its guard. -/
def opened : Artifact :=
  .new { shop.data with resources := [⟨"books", "/books", none⟩, ⟨"films", "/films", none⟩] }

theorem canonical_shop : shop.data.Canonical := List.forall_mem_singleton.mpr rfl

theorem readable_shop {depth : Nat} (h : 3 < depth) :
    ∀ e ∈ shop.data.extras.entries, e.2.Readable depth := by
  have hlowest : (Json.array [.int (-5), .null]).Readable (depth - 1) :=
    ⟨by omega, ⟨by decide, by decide⟩, trivial, trivial⟩
  have hopen : (Json.object [("at", .int 9)]).Readable (depth - 1) :=
    ⟨by omega, ⟨by decide, by decide⟩, trivial⟩
  exact List.forall_mem_singleton.mpr ⟨by omega, hlowest, hopen, trivial⟩

theorem read?_print_shop :
    shop.version < 2 ^ 32 ∧ shop.data.Canonical ∧ shop.toJson.Readable 128 ∧
      Snapshot.read? shop.toJson.print = some shop ∧
      (Artifact.new shop.data).bytes ≠ opened.bytes := by
  have hversion : shop.version < 2 ^ 32 := by decide
  have hreadable : shop.toJson.Readable 128 :=
    (Snapshot.readable_toJson_iff hversion (by omega)).mpr (readable_shop (by omega))
  obtain ⟨hread, hbytes⟩ := Snapshot.read?_print hversion canonical_shop hreadable
  refine ⟨hversion, canonical_shop, hreadable, hread, ?_⟩
  refine hbytes _ opened canonical_shop canonical_shop ?_ ?_ fun heq => ?_
  · exact (Data.readable_toJson_iff (by omega)).mpr (readable_shop (by omega))
  · exact (Data.readable_toJson_iff (by omega)).mpr (readable_shop (by omega))
  · exact absurd (congrArg Data.resources heq) (by decide)

end StagedCodegen.Representation
