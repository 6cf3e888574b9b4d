import StagedCodegen.Proofs.Representation.Fields

/-!
# The order of resources

A draft keeps its resources by name, so what is finished has them in ascending order, and each is
found under its name. Nobody restores that order later: data that comes in a snapshot is taken as it
is. So the resources of an artifact ascend as long as nobody submits a snapshot, and from then on
just if those of the last snapshot do.

Main statement: `Artifact.ascending_applyAll_iff`.
-/

namespace StagedCodegen.Representation

/-! ## Resources by name -/

/-- Every resource is bound to its name. -/
def ByName (m : SortedMap Resource) : Prop := ∀ e ∈ m.entries, e.2.name = e.1

section ByName

variable {m : SortedMap Resource}

theorem byName_empty : ByName .empty := fun _ h => absurd h List.not_mem_nil

theorem ByName.insert (h : ByName m) (r : Resource) : ByName (m.insert r.name r) := by
  intro e he
  rcases Bindings.mem_insert he with rfl | he
  · rfl
  · exact h e he

theorem ByName.foldl (h : ByName m) (rs : List Resource) :
    ByName (rs.foldl (fun m r => m.insert r.name r) m) := by
  induction rs generalizing m with
  | nil => exact h
  | cons r rs ih => exact ih (h.insert r)

theorem ByName.values_ascending (h : ByName m) : m.values.Pairwise (·.name < ·.name) := by
  refine List.pairwise_map.mpr (m.sorted.imp_of_mem fun hx hy hlt => ?_)
  rwa [h _ hx, h _ hy]

theorem ByName.find?_values (h : ByName m) (name : String) :
    m.values.find? (·.name = name) = m.get? name := by
  rw [ByName] at h
  rw [SortedMap.values, SortedMap.get?]
  generalize m.entries = entries at h
  induction entries with
  | nil => rfl
  | cons e entries ih =>
    obtain ⟨he, hentries⟩ := List.forall_mem_cons.mp h
    rw [List.map_cons, List.find?_cons, Bindings.get?, ih hentries, he]
    by_cases hname : name = e.1
    · simp [hname]
    · simp [hname, Ne.symm hname]

end ByName

/-- The resources ascend by name, and no two have the same. -/
def Data.Ascending (d : Data) : Prop := d.resources.Pairwise (·.name < ·.name)

instance (d : Data) : Decidable d.Ascending :=
  inferInstanceAs (Decidable (d.resources.Pairwise _))

/-- Where resources ascend, each is found by its name. -/
theorem Data.Ascending.resource?_eq_some_iff {d : Data} (h : d.Ascending) {name : String}
    {r : Resource} : d.resource? name = some r ↔ r ∈ d.resources ∧ r.name = name := by
  rw [Data.Ascending] at h
  rw [Data.resource?]
  generalize d.resources = rs at h
  induction rs with
  | nil => simp
  | cons r' rs ih =>
    obtain ⟨hr', hrs⟩ := List.pairwise_cons.mp h
    rw [List.find?_cons, List.mem_cons]
    by_cases hname : r'.name = name
    · rw [decide_eq_true hname]
      constructor
      · intro heq
        obtain rfl := Option.some.inj heq
        exact ⟨.inl rfl, hname⟩
      · rintro ⟨rfl | hr, hrname⟩
        · rfl
        · exact absurd (hname.trans hrname.symm) (Std.ne_of_lt (hr' r hr))
    · rw [decide_eq_false hname]
      refine (ih hrs).trans (and_congr_left fun hrname => ⟨.inr, fun hr => ?_⟩)
      refine hr.resolve_left ?_
      rintro rfl
      exact hname hrname

/-! ## Drafts -/

namespace Draft

variable {d : Draft}

theorem byName_put (h : ByName d.resources) (w : Writer) (write : DraftWrite) :
    ByName (d.put w write).2.resources := by
  rcases hresult : (d.put w write).1 with failure | ⟨⟩
  · rwa [put_of_error hresult]
  · rw [put_of_ok hresult]
    cases write with
    | resource r => exact h.insert r
    | identity | capabilityMap | layout | plan | extra | attachment => exact h

theorem byName_putAll (h : ByName d.resources) (ws : List (Writer × DraftWrite)) :
    ByName (putAll Draft.put ws d).2.resources := by
  induction ws generalizing d with
  | nil => exact h
  | cons entry rest ih => exact ih (byName_put h entry.1 entry.2)

theorem ascending_of_finalize (h : ByName d.resources) {a : Artifact} (ha : d.finalize = .ok a) :
    a.data.Ascending := by
  unfold finalize at ha
  split at ha <;> cases ha
  exact h.values_ascending

end Draft

/-! ## Snapshots -/

namespace Artifact

/-- The artifact with the data of one snapshot after another. -/
def applyAll (a : Artifact) : List Snapshot → Except Failure Artifact
  | [] => .ok a
  | s :: ss =>
    match a.applySnapshot s with
    | .error f => .error f
    | .ok b => b.applyAll ss

variable {a : Artifact} {ss : List Snapshot}

/-- Snapshots that can be read leave the data of the last one. -/
theorem applyAll_eq (h : ∀ s ∈ ss, s.version = snapshotVersion) : a.applyAll ss =
    .ok ⟨(ss.getLast?.map (·.data)).getD a.data, a.edition + ss.length, a.attachments⟩ := by
  induction ss generalizing a with
  | nil => rfl
  | cons s ss ih =>
    obtain ⟨hs, hss⟩ := List.forall_mem_cons.mp h
    rw [applyAll, applySnapshot, if_pos hs]
    simp only
    rw [ih hss, List.getLast?_cons, withData]
    rcases ss.getLast? with _ | last <;> simp <;> omega

/-- **Who keeps resources in order.** Whatever is written to a draft, the resources of what it is
finished to ascend. Whatever snapshots of the version that can be read are applied to that, one
after another, it has the data of the last of them; so its resources ascend just if those of the
last snapshot do, or if there is none. And where they ascend, each of them is found by its name. -/
theorem ascending_applyAll_iff {ws : List (Writer × DraftWrite)}
    (ha : (putAll Draft.put ws .empty).2.finalize = .ok a)
    (hss : ∀ s ∈ ss, s.version = snapshotVersion) :
    a.data.Ascending ∧ ∃ b, a.applyAll ss = .ok b ∧
      b.data = (ss.getLast?.map (·.data)).getD a.data ∧
      (b.data.Ascending ↔ ∀ s, ss.getLast? = some s → s.data.Ascending) ∧
      (b.data.Ascending → ∀ name r,
        b.data.resource? name = some r ↔ r ∈ b.data.resources ∧ r.name = name) := by
  have hascending : a.data.Ascending :=
    Draft.ascending_of_finalize (Draft.byName_putAll byName_empty ws) ha
  refine ⟨hascending, _, applyAll_eq hss, rfl, ?_, fun h _ _ => h.resource?_eq_some_iff⟩
  rcases ss.getLast? with _ | last
  · simpa using hascending
  · simp

/-! ## Disorder -/

/-- All that a draft needs, and a resource. -/
def books : List (Writer × DraftWrite) :=
  [.identity ⟨"demo", "demo", "0.1.0", "genpipe.toml", "genpipe.toml"⟩,
    .capabilityMap ⟨.empty, []⟩, .layout ⟨"generated", "php", "ts"⟩, .plan ⟨[]⟩,
    .resource ⟨"books", "/books", none⟩].map (⟨"a", .extend⟩, ·)

/-- What this draft is finished to. -/
def library : Artifact where
  data := ⟨⟨"demo", "demo", "0.1.0", "genpipe.toml", "genpipe.toml"⟩, ⟨.empty, []⟩,
    ⟨"generated", "php", "ts"⟩, ⟨[]⟩, [⟨"books", "/books", none⟩], .empty⟩
  edition := 0
  attachments := .empty

/-- A snapshot of it with these resources. -/
def shelved (rs : List Resource) : Snapshot :=
  { library.snapshot with data := { library.data with resources := rs } }

theorem finalize_books : (putAll Draft.put books .empty).2.finalize = .ok library := rfl

theorem ascending_applyAll_iff_books :
    let ss := [shelved [], shelved [⟨"atlas", "/atlas", none⟩, ⟨"books", "/books", none⟩]]
    (putAll Draft.put books .empty).2.finalize = .ok library ∧
      (∀ s ∈ ss, s.version = snapshotVersion) ∧ ∃ b, library.applyAll ss = .ok b ∧
      b.data.Ascending := by
  intro ss
  have hss : ∀ s ∈ ss, s.version = snapshotVersion := by decide
  obtain ⟨-, b, happlied, -, hiff, -⟩ := ascending_applyAll_iff finalize_books hss
  refine ⟨finalize_books, hss, b, happlied, hiff.mpr fun s hs => ?_⟩
  obtain rfl := Option.some.inj hs
  decide

/-- A resource is put after another of a larger name, and then a second one of its name, which is
not found. -/
theorem disorder_is_taken :
    let s := shelved [⟨"books", "/books", none⟩, ⟨"atlas", "/atlas", none⟩, ⟨"books", "/all", none⟩]
    (putAll Draft.put books .empty).2.finalize = .ok library ∧ s.version = snapshotVersion ∧
      ∃ b, library.applySnapshot s = .ok b ∧ ¬b.data.Ascending ∧
        ⟨"books", "/all", none⟩ ∈ b.data.resources ∧
        b.data.resource? "books" = some ⟨"books", "/books", none⟩ :=
  ⟨finalize_books, rfl, _, rfl, by decide, by decide, by decide⟩

end Artifact

end StagedCodegen.Representation
