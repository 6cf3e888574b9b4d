import StagedCodegen.Proofs.CommandLine.Repetition
import StagedCodegen.Proofs.Writes.Stopping

/-!
# What is written stays inside

In valid settings, the directories of the output are named from the workspace on and go up nowhere,
and the names of the files are made of words. So whatever is queued, is queued for a planned file
(`Core.exists_planned_of_mem_writes`), which has a place below the directory of all output. In a
workspace without links, this is also where its path is resolved to
(`CommandLine.Context.Canonical.staysInside`). So a generation can fail for several things, but not
for a path that leads out of the workspace (`CommandLine.Context.Canonical.failure_of_generate`).

Main statement: `CommandLine.Context.writes_stay_inside`.
-/

namespace StagedCodegen

open StagedCodegen.Representation (PlannedArtifact)

variable {κ : Type} {o : RunOptions} {B : Place} {d : Disk}

/-- What a list cannot be loaded for. -/
theorem PreviousFiles.load_eq_error {p : Path} {f : Failure} (h : load d p = .error f) :
    (∃ q e, f = .io q e) ∨ ∃ message, f = .serialization message := by
  rw [load] at h
  split at h
  · split at h
    · cases h
      exact .inl ⟨_, _, rfl⟩
    · split at h
      · cases h
      · cases h
        exact .inr ⟨_, rfl⟩
  · cases h

/-! ## Planned places -/

namespace Core

/-- Everything is queued for a planned file. -/
theorem exists_planned_of_mem_writes {q : Pipeline κ} (hq : q.registry = registry)
    (hkeep : ∀ e ∈ q.extensions, e.KeepsPlan) {w : World κ} {r : RunResult} {s : Session κ}
    (hrun : q.run o w = (.ok r, s)) {x : QueuedWrite} (hx : x ∈ r.writes) :
    ∃ names, ∃ e ∈ (plan (layout o.settings.output) names).entries, x.path = ⟨e.path⟩ := by
  obtain ⟨names, files, hplan, hfiles, hwrites⟩ := exists_queue_of_run hq hkeep hrun
  obtain ⟨hsourced, -⟩ := sourceHashes_eq_ok hfiles
  have hpaths : r.writes.map (·.path.text) = r.artifact.data.plan.entries.map (·.path) := by
    rw [hwrites, ← path_sourceWrites hplan hsourced, List.map_append]
    rfl
  have hmem : x.path.text ∈ r.writes.map (·.path.text) := List.mem_map_of_mem hx
  rw [hpaths, hplan] at hmem
  obtain ⟨e, he, hpath⟩ := List.mem_map.mp hmem
  exact ⟨names, e, he, congrArg Path.mk hpath.symm⟩

end Core

namespace CommandLine.Context

variable {c : Context} {names : List String} {e : PlannedArtifact}

/-- The directory of all output in the workspace, in lexical normal form. -/
def outputRoot (c : Context) : Path := (c.workspace.join ⟨c.settings.output.dir⟩).normalize

/-- The path is resolved to one strictly inside the workspace and below the directory of all output.
As whatever is resolved has composed names, so has the directory for this. -/
def StaysInside (c : Context) (d : Disk) (q : Path) : Prop :=
  ∃ p, d.resolveWithin c.workspace q = .ok p ∧ Disk.strictlyBelow p c.workspace = true ∧
    Disk.strictlyBelow p ⟨Text.compose c.outputRoot.text⟩ = true ∧
    ((Path.mk c.settings.output.dir).place.Composed →
      Disk.strictlyBelow p c.outputRoot = true)

/-- The workspace is written as the path of its place, whose names are composed, and there are no
links in it. -/
structure Canonical (c : Context) (d : Disk) (B : Place) : Prop where
  workspace : c.workspace = B.path
  named : B.Named
  composed : B.Composed
  linkFree : d.LinkFree B

/-- In settings without problems, every planned file stays inside. -/
theorem Canonical.staysInside (hc : c.Canonical d B) (hvalid : c.settings.problems = [])
    (he : e ∈ (Core.plan (Core.layout c.settings.output) names).entries) :
    c.StaysInside d ⟨e.path⟩ := by
  obtain ⟨hrelative, hup⟩ := relative_of_mem_plan hvalid he
  obtain ⟨hdir, -, hdirup⟩ := directory_of_valid hvalid
  obtain ⟨X, hX⟩ := Core.exists_target_eq B he
  -- the name of the file comes after all those of the directory
  have hbelow : ∀ {P : Place}, P.Named → P <+: B.target ⟨c.settings.output.dir⟩ →
      P <+: B.target ⟨e.path⟩ ∧ P ≠ B.target ⟨e.path⟩ := by
    intro P hP hle
    rw [hX, Place.target, Core.place_outputDir, ← Place.target, List.append_assoc]
    refine ⟨hle.trans (List.prefix_append _ _), fun heq => ?_⟩
    have hlength := hle.length_le
    rw [heq] at hlength
    simp at hlength
  have hstrictly : ∀ {P : Place}, P.Named → P <+: B.target ⟨c.settings.output.dir⟩ →
      Disk.strictlyBelow (B.target ⟨e.path⟩).path P.path = true := fun hP hle =>
    (Disk.strictlyBelow_path_iff (hc.named.target _) hP).mpr (hbelow hP hle)
  have hB : B <+: B.target ⟨c.settings.output.dir⟩ := List.prefix_append B _
  have hroot : c.outputRoot = Place.path (B ++ (Path.mk c.settings.output.dir).place) := by
    rw [outputRoot, hc.workspace, Place.normalize_join hc.named hdir hdirup]
  refine ⟨(B.target ⟨e.path⟩).path, ?_, ?_, ?_, fun hcomposed => ?_⟩
  · rw [hc.workspace, hc.linkFree.resolveWithin_eq_ok_iff hc.named hc.composed hrelative hup]
    exact ⟨rfl, (hbelow hc.named hB).2⟩
  · rw [hc.workspace]
    exact hstrictly hc.named hB
  · rw [hroot, Place.compose_text, ← Place.target_eq_map hc.composed]
    exact hstrictly (hc.named.target _) (List.prefix_refl _)
  · have htarget : B ++ (Path.mk c.settings.output.dir).place =
        B.target ⟨c.settings.output.dir⟩ := by
      rw [Place.target, List.map_congr_left hcomposed, List.map_id']
    rw [hroot, htarget]
    exact hstrictly (hc.named.target _) (List.prefix_refl _)

/-! ## Generations -/

/-- A run of the pipeline fails only for the identity of the project, whatever its writer is. -/
theorem run_ok_or_refused (c : Context) (previous : PreviousFiles)
    (writer : FileWriter (World Unit)) (w : World Unit) :
    let p := Pipeline.mk Core.registry [(Adapters.mk [] writer .usual).extension]
      c.settings.generation.requiredFamilies
    (∃ r t, p.run (c.options previous) w = (.ok r, t)) ∨
      ∃ key message t, p.run (c.options previous) w = (.error (.rejected key message), t) := by
  by_cases hspeakable : Core.Speakable (c.options .none)
  · exact .inl (exists_run (Core.identity_of_speakable hspeakable _) previous writer w)
  · have hdraft := Core.exists_runFragments (κ := Unit) (c.options previous)
      c.settings.generation.requiredFamilies
    rw [identity_options, Core.identity_of_not_speakable hspeakable] at hdraft
    exact .inr ⟨_, _, Pipeline.exists_run_of_undrafted rfl hdraft w⟩

/-- What is queued by the pipeline stays inside. -/
theorem Canonical.staysInside_of_run (hc : c.Canonical d B) (hvalid : c.settings.problems = [])
    {q : Pipeline κ} (hq : q.registry = Core.registry) (hkeep : ∀ e ∈ q.extensions, e.KeepsPlan)
    (ho : o.settings = c.settings) {w : World κ} {r : RunResult} {s : Session κ}
    (hrun : q.run o w = (.ok r, s)) : ∀ x ∈ r.writes, c.StaysInside d x.path := by
  intro x hx
  obtain ⟨names, e, he, hpath⟩ := Core.exists_planned_of_mem_writes hq hkeep hrun hx
  rw [hpath]
  exact hc.staysInside hvalid (ho ▸ he)

/-- What a generation can fail for, in a workspace without links: a file operation, a list that
cannot be read, or an identity that is refused. -/
theorem Canonical.failure_of_generate (hc : c.Canonical d B) (hvalid : c.settings.problems = [])
    {dryRun : Bool} {s s' : Session Unit} {f : Failure} (hdisk : s.world.disk = d)
    (h : c.generate dryRun s = (.error f, s')) : (∃ q e, f = .io q e) ∨
      (∃ message, f = .serialization message) ∨ ∃ key message, f = .rejected key message := by
  have hchecked : c.ensureValid = .ok () := by rw [ensureValid, hvalid]
  rw [generate_eq, hchecked] at h
  simp only at h
  split at h
  · next hload =>
    cases h
    exact (PreviousFiles.load_eq_error hload).imp_right .inl
  next previous hload =>
  split at h
  · next hfailed =>
    cases h
    rcases run_ok_or_refused c previous (diskWriter (c.isDry dryRun)) s.world with
      ⟨r, t, hrun⟩ | ⟨key, message, t, hrun⟩ <;> cases hrun.symm.trans hfailed
    exact .inr (.inr ⟨key, message, rfl⟩)
  next r t hrun =>
  -- the run has left the tree alone, and all that it has queued stays inside
  have hkept : t.world.disk = d :=
    (Pipeline.view_of_run rfl rfl (Core.helpersSpare (fun _ _ => rfl) rfl) hrun).trans hdisk
  have hinside := hc.staysInside_of_run hvalid rfl
    (List.forall_mem_singleton.mpr (Adapters.keepsPlan_of_nil rfl)) rfl hrun
  have hresolves : ∀ x ∈ r.writes, x.Resolves t.world.disk c.workspace :=
    fun x hx => (hinside x hx).imp fun _ hp => hkept ▸ hp.1
  obtain ⟨ts, hts, hresolved⟩ := exists_resolved hresolves
  rcases Attempt.bind_eq_error.mp (Session.world_of_act h) with hwrite | ⟨_, _, -, hshow⟩
  · rw [hts, FileWriter.apply_resolved _ hresolved] at hwrite
    exact .inl (FileWriter.exists_io_of_writeAll hwrite)
  · cases hshow

/-- **What is written stays inside the workspace.** If nothing is wrong with the settings, and there
are no links in the workspace, whose path is that of a place with composed names, then everything
that a run of the core helpers with these settings queues, whatever extensions take part that keep
the plan, is resolved to a path strictly inside the workspace and below the normal form of the
directory of all output. So whatever a generation in that workspace fails for, it is not a path that
leads out of it. -/
theorem writes_stay_inside (hc : c.Canonical d B) (hvalid : c.settings.problems = []) :
    (∀ (κ : Type) (o : RunOptions) (p q : Pipeline κ) (w : World κ) (r : RunResult) (s : Session κ),
      o.settings = c.settings → p.registry = .empty → Core.registerAll p = (.ok (), q) →
      (∀ e ∈ p.extensions, e.KeepsPlan) → q.run o w = (.ok r, s) →
      ∀ x ∈ r.writes, c.StaysInside d x.path) ∧
    ∀ (dryRun : Bool) (s s' : Session Unit) (f : Failure), s.world.disk = d →
      c.generate dryRun s = (.error f, s') → ∀ path boundary, f ≠ .pathEscape path boundary := by
  refine ⟨fun κ o p q w r s ho hempty hcore hkeep hrun => ?_,
    fun dryRun s s' f hdisk h path boundary => ?_⟩
  · obtain rfl := Core.eq_of_registerAll hempty hcore
    exact hc.staysInside_of_run (q := { p with registry := Core.registry }) hvalid rfl hkeep ho hrun
  · rcases hc.failure_of_generate hvalid hdisk h with ⟨_, _, rfl⟩ | ⟨_, rfl⟩ | ⟨_, _, rfl⟩ <;> nofun

/-- A project with directories that are spelled oddly, and a resource whose name has no words. -/
def oddLibrary : Context := { library with
  settings := { library.settings with
    project := ⟨"demo", "0.1.0", [⟨"!?", "/books", none⟩], .empty⟩
    output := ⟨"./build//", "php//", "."⟩ } }

theorem writes_stay_inside_oddLibrary : oddLibrary.Canonical newRoom ["w"] ∧
    oddLibrary.settings.problems = [] ∧
    (∃ (r : RunResult) (t : Session Unit), Core.alone.run (oddLibrary.options .none)
        (sessionOn newRoom).world = (.ok r, t) ∧
      (∀ x ∈ r.writes, oddLibrary.StaysInside newRoom x.path) ∧
      ∃ x ∈ r.writes, x.path = ⟨"./build/manifest.json"⟩) ∧
    ∀ s f, oddLibrary.generate false (sessionOn newRoom) = (.error f, s) →
      ∀ path boundary, f ≠ .pathEscape path boundary := by
  have hc : oddLibrary.Canonical newRoom ["w"] := ⟨rfl, by decide, by decide, linkFree_newRoom⟩
  have hvalid : oddLibrary.settings.problems = [] := by decide +kernel
  have hspeakable : Core.Speakable (oddLibrary.options .none) := by decide +kernel
  have hcore : Core.registerAll (.new : Pipeline Unit) = (.ok (), Core.alone) :=
    Core.registerAll_eq rfl
  have hkeep : ∀ e ∈ (.new : Pipeline Unit).extensions, e.KeepsPlan :=
    fun e he => absurd he List.not_mem_nil
  obtain ⟨hqueue, hgenerate⟩ := writes_stay_inside hc hvalid
  obtain ⟨r, t, hrun⟩ : ∃ r t, Core.alone.run (oddLibrary.options .none)
      (sessionOn newRoom).world = (.ok r, t) :=
    Core.exists_run_of_speakable hspeakable usualFamilies _
  obtain ⟨names, files, -, -, hwrites⟩ :=
    Core.exists_queue_of_run (q := Core.alone) rfl hkeep hrun
  have hpath : (Core.plannedManifest (Core.layout oddLibrary.settings.output)).path =
      "./build/manifest.json" := by decide +kernel
  refine ⟨hc, hvalid, ⟨r, t, hrun, hqueue Unit _ _ _ _ r t rfl rfl hcore hkeep hrun, ?_⟩,
    fun s f h => hgenerate false _ s f rfl h⟩
  rw [hwrites]
  exact ⟨_, List.mem_append_right _ List.mem_cons_self, congrArg Path.mk hpath⟩

end CommandLine.Context

end StagedCodegen
