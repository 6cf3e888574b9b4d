import StagedCodegen.Proofs.Core.Success
import StagedCodegen.Proofs.Core.Targets

/-!
# What the core helpers queue

Settings may name a resource more than once. The last one of each name is what counts
(`Core.LastOfName`): these are the resources of the artifact (`Core.mem_resources_dataOf`), in
ascending order of their names. The plan has the names only, and the builders look the resources up
again, one builder after another. They find the same resources in the same order
(`Core.sourceWrites_eq`), so each of them is rendered to the path that is planned for it.

Main statement: `Core.queue_of_core_run`.
-/

namespace StagedCodegen

open StagedCodegen.Representation

variable {κ : Type} {o : RunOptions}

/-- Without extensions, a run builds the artifact that was drafted. -/
theorem Pipeline.built_of_prepares_alone {p : Pipeline κ} (hp : p.extensions = []) {w : World κ}
    {b : Artifact} {l : Ledger κ} {queue : List QueuedWrite} {u : Session κ}
    (h : p.Prepares o w b l queue u) :
    (∃ s s', runFragments p.registry p.requiredFamilies o s = (.ok b, s')) ∧
      ∃ t, InTurn (BuilderSucceeds o b p.registry.builders)
        (Schedule.builders p.registry.builderEntries) ([], t) (queue, u) := by
  obtain ⟨hooks, a, s, t, begins, hooked, hbuilt⟩ := h
  obtain ⟨s₀, hcollect, hdraft⟩ := begins_iff.1 begins
  rw [hp] at hcollect
  cases hcollect
  cases hooked
  exact ⟨⟨_, _, hdraft⟩, _, hbuilt⟩

namespace Core

variable {d : Data} {l : Layout} {rs chosen : List Resource} {r c : Resource}

/-! ## The last resource of each name -/

/-- The resource stands in the list, and none of those behind it has its name. -/
def LastOfName (rs : List Resource) (r : Resource) : Prop :=
  ∃ before after, rs = before ++ r :: after ∧ ∀ r' ∈ after, r'.name ≠ r.name

theorem lastOfName_iff :
    LastOfName rs r ↔ (rs.filter (·.name = r.name)).getLast? = some r := by
  constructor
  · rintro ⟨before, after, rfl, hafter⟩
    have hnone : after.filter (·.name = r.name) = [] :=
      List.filter_eq_nil_iff.mpr fun r' hr' => by simpa using hafter r' hr'
    rw [List.filter_append, List.filter_cons_of_pos (by simp), hnone, List.getLast?_concat]
  · intro h
    -- the list is cut where the last one that passes the filter stands
    obtain ⟨passed, hpassed⟩ := List.getLast?_eq_some_iff.mp h
    obtain ⟨before, rest, rfl, -, hrest⟩ := List.filter_eq_append_iff.mp hpassed
    obtain ⟨skipped, after, rfl, -, -, hafter⟩ := List.filter_eq_cons_iff.mp hrest
    refine ⟨before ++ skipped, after, by rw [List.append_assoc], fun r' hr' => ?_⟩
    simpa using List.filter_eq_nil_iff.mp hafter r' hr'

instance (rs : List Resource) (r : Resource) : Decidable (LastOfName rs r) :=
  decidable_of_iff _ lastOfName_iff.symm

/-! ## The resources of the artifact -/

theorem ascending_dataOf (o : RunOptions) (m : Meta) : (dataOf o m).Ascending :=
  (byName_resourceMap _).values_ascending

/-- The artifact has the last resource of each name. -/
theorem mem_resources_dataOf {m : Meta} :
    c ∈ (dataOf o m).resources ↔ LastOfName o.settings.project.resources c := by
  rw [lastOfName_iff, ← get?_resourceMap, ← resource?_dataOf o m,
    (ascending_dataOf o m).resource?_eq_some_iff, and_iff_left rfl]

theorem name_resources_dataOf (o : RunOptions) (m : Meta) :
    (dataOf o m).resources.map (·.name) = (resourceMap o.settings.project.resources).keys := by
  rw [dataOf, SortedMap.values, SortedMap.keys, List.map_map]
  exact List.map_congr_left (byName_resourceMap _)

/-! ## What is rendered where -/

/-- Files that are planned in the same way, for resources whose sources are known. -/
theorem sources_map {f : String → PlannedArtifact} {render : Resource → String}
    (h : ∀ c ∈ rs, source? d (f c.name) = some (render c)) :
    sources d ((rs.map (·.name)).map f) = rs.map fun c => ((f c.name).path, render c) := by
  induction rs with
  | nil => rfl
  | cons c rs ih =>
    obtain ⟨hc, hrs⟩ := List.forall_mem_cons.mp h
    rw [List.map_cons, List.map_cons, sources_cons, hc, ih hrs]
    rfl

/-- The controller of a resource, as it is queued. -/
def controllerWrite (d : Data) (l : Layout) (c : Resource) : QueuedWrite :=
  ⟨⟨(plannedController l c.name).path⟩, (phpController d c).toUTF8, "builder.php.controllers"⟩

/-- The client of a resource, as it is queued. -/
def clientWrite (d : Data) (l : Layout) (c : Resource) : QueuedWrite :=
  ⟨⟨(plannedClient l c.name).path⟩, (tsClient d c).toUTF8, "builder.ts.clients"⟩

/-- Where resources ascend, whoever looks one of them up by its name finds that one. -/
theorem sourceWrites_eq (h : d.Ascending) (hplan : d.plan = plan l (d.resources.map (·.name))) :
    sourceWrites d =
      d.resources.map (controllerWrite d l) ++ d.resources.map (clientWrite d l) := by
  have hfound : ∀ c ∈ d.resources, d.resource? c.name = some c :=
    fun c hc => h.resource?_eq_some_iff.mpr ⟨hc, rfl⟩
  have hcontrollers : ∀ c ∈ d.resources,
      source? d (plannedController l c.name) = some (phpController d c) :=
    fun c hc => congrArg (Option.map (phpController d)) (hfound c hc)
  have hclients : ∀ c ∈ d.resources,
      source? d (plannedClient l c.name) = some (tsClient d c) :=
    fun c hc => congrArg (Option.map (tsClient d)) (hfound c hc)
  rw [sourceWrites, hplan, ofKind_phpController, ofKind_tsClient, sources_map hcontrollers,
    sources_map hclients, List.map_map, List.map_map]
  rfl

/-! ## Runs -/

/-- The artifact of a run of the core helpers alone is what the core fragments make of the
settings. -/
theorem exists_identity_of_run {p q : Pipeline κ} {w : World κ} {r : RunResult} {s : Session κ}
    (hempty : p.registry = .empty) (halone : p.extensions = [])
    (hcore : registerAll p = (.ok (), q)) (hrun : q.run o w = (.ok r, s)) :
    ∃ m, identity o "ir.meta.core" = .ok m ∧ r.artifact = ⟨dataOf o m, 0, .empty⟩ := by
  obtain rfl := eq_of_registerAll hempty hcore
  obtain ⟨ledger, u, hprepared⟩ := Pipeline.prepares_of_run hrun
  obtain ⟨⟨t, t', hdraft⟩, -⟩ :=
    Pipeline.built_of_prepares_alone (p := { p with registry := registry }) halone hprepared
  exact exists_identity_of_runFragments hdraft

theorem speakable_of_identity {m : Meta} {key : String} (h : identity o key = .ok m) :
    Speakable o ∧ m.slug = Text.slug (usedTitle o) := by
  by_cases hspeakable : Speakable o
  · rw [identity_of_speakable hspeakable] at h
    cases h
    exact ⟨hspeakable, rfl⟩
  · rw [identity_of_not_speakable hspeakable] at h
    cases h

/-- **What the core helpers queue.** Whenever a run of the core helpers alone succeeds, whatever the
settings, the resources that count are the last ones of their names, one for each name, and they
ascend by name. The plan has a controller for each of them, then a client for each of them, and the
list of both. This is just what is queued, each under its planned path: the controllers and clients
rendered for these very resources, and then the list. -/
theorem queue_of_core_run {p q : Pipeline κ} {w : World κ} {r : RunResult} {s : Session κ}
    (hempty : p.registry = .empty) (halone : p.extensions = [])
    (hcore : registerAll p = (.ok (), q)) (hrun : q.run o w = (.ok r, s)) :
    ∃ chosen : List Resource, chosen.Pairwise (·.name < ·.name) ∧
      (∀ c, c ∈ chosen ↔ LastOfName o.settings.project.resources c) ∧
      (∀ name, name ∈ chosen.map (·.name) ↔
        ∃ c ∈ o.settings.project.resources, c.name = name) ∧
      r.artifact.data.plan = plan (layout o.settings.output) (chosen.map (·.name)) ∧
      r.writes = chosen.map (controllerWrite r.artifact.data (layout o.settings.output)) ++
        chosen.map (clientWrite r.artifact.data (layout o.settings.output)) ++
        [manifestWrite o r.artifact (layout o.settings.output)] := by
  obtain rfl := eq_of_registerAll hempty hcore
  obtain ⟨ledger, u, hprepared⟩ := Pipeline.prepares_of_run hrun
  obtain ⟨⟨t, t', hdraft⟩, t'', hbuilt⟩ :=
    Pipeline.built_of_prepares_alone (p := { p with registry := registry }) halone hprepared
  obtain ⟨m, -, hartifact, hwrites⟩ := exists_writes_of_built rfl hdraft hbuilt
  have hplan : (dataOf o m).plan =
      plan (layout o.settings.output) ((dataOf o m).resources.map (·.name)) := by
    rw [name_resources_dataOf]
    rfl
  rw [hwrites, hartifact]
  refine ⟨(dataOf o m).resources, ascending_dataOf o m, fun c => mem_resources_dataOf,
    fun name => ?_, hplan, ?_⟩
  · rw [name_resources_dataOf, mem_keys_resourceMap]
  · rw [sourceWrites_eq (ascending_dataOf o m) hplan]

/-- One resource is configured twice, with another one in between. -/
def reissued : RunOptions := { sharing with
  settings := { sharing.settings with
    project := ⟨"demo", "0.1.0",
      [⟨"films", "/films", none⟩, ⟨"books", "/old", none⟩, ⟨"films", "/all", none⟩], .empty⟩ } }

theorem queue_of_core_run_reissued : ∃ (r : RunResult) (s : Session Unit),
    (.new : Pipeline Unit).registry = .empty ∧ (.new : Pipeline Unit).extensions = [] ∧
      registerAll (.new : Pipeline Unit) = (.ok (), alone) ∧
      alone.run reissued ⟨⟨[], []⟩, [], [], ()⟩ = (.ok r, s) ∧
      r.writes = [⟨"books", "/old", none⟩, ⟨"films", "/all", none⟩].map
          (controllerWrite r.artifact.data (layout reissued.settings.output)) ++
        [⟨"books", "/old", none⟩, ⟨"films", "/all", none⟩].map
          (clientWrite r.artifact.data (layout reissued.settings.output)) ++
        [manifestWrite reissued r.artifact (layout reissued.settings.output)] := by
  have hspeakable : Speakable reissued := by decide +kernel
  have hcore : registerAll (.new : Pipeline Unit) = (.ok (), alone) := registerAll_eq rfl
  obtain ⟨r, s, hrun⟩ : ∃ r s, alone.run reissued ⟨⟨[], []⟩, [], [], ()⟩ = (.ok r, s) :=
    exists_run_of_speakable hspeakable usualFamilies _
  obtain ⟨chosen, hascending, hmem, -, -, hwrites⟩ := queue_of_core_run rfl rfl hcore hrun
  have hchosen : chosen = (resourceMap reissued.settings.project.resources).values :=
    eq_of_ascending hascending (byName_resourceMap _).values_ascending fun c =>
      (hmem c).trans (mem_resources_dataOf (m := ⟨"", "", "", "", ""⟩)).symm
  have hvalues : (resourceMap reissued.settings.project.resources).values =
      [⟨"books", "/old", none⟩, ⟨"films", "/all", none⟩] := by decide +kernel
  rw [hchosen, hvalues] at hwrites
  exact ⟨r, s, rfl, rfl, hcore, hrun, hwrites⟩

end Core

end StagedCodegen
