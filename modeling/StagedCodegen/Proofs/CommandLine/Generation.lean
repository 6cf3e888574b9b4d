import StagedCodegen.CommandLine.Context
import StagedCodegen.Proofs.Adapter.Absent
import StagedCodegen.Proofs.Core.Targets

/-!
# The list that the next generation reads

A generation looks for the list of the run before at a path of its context, as an operating system
resolves it, and its own list is written to the place that the same names are resolved to from the
workspace. Both are one file if the path of the workspace leads where its names do, and if the names
on the way are in composed form (`CommandLine.Context.Faithful`): then a generation that succeeds
leaves its list where the next one finds it, as long as nothing is written through a link
(`CommandLine.Context.Plain`). In a workspace without links, nothing is
(`CommandLine.Context.Faithful.plain`).

Main statement: `CommandLine.Context.generate_leaves_list`.
-/

namespace StagedCodegen

open StagedCodegen.Representation (Artifact PlannedArtifact)

theorem Session.world_of_act {κ α : Type} {x : Act (World κ) α} {result : Except Failure α}
    {s s' : Session κ} (h : Session.act x s = (result, s')) : x s.world = (result, s'.world) := by
  rw [Session.act, Attempt.onPart] at h
  rcases hx : x s.world with ⟨result, w⟩
  rw [hx] at h
  cases h
  rfl

/-- The files of a list are read from the file that holds its text. -/
theorem PreviousFiles.load_of_locate {d : Disk} {p : Path} {F : Place} {m : Core.Manifest}
    (h : d.locate true p = .ok (.found F (.file m.text.toUTF8))) : load d p = .ok ⟨m.files⟩ := by
  have hread : d.read p = .ok m.text.toUTF8 := by rw [Disk.read, h]
  rw [load, if_pos (Disk.exists_of_locate h), hread]
  simp only
  rw [Core.fromUTF8?_toUTF8, Option.bind_some, Core.parse?_text, Option.bind_some,
    Core.ofJson?_toJson]

namespace CommandLine.Context

variable {c : Context} {s s' : Session Unit} {w : World Unit} {previous : PreviousFiles}
  {r : RunResult} {t : Session Unit} {B F : Place}

/-! ## Runs -/

theorem pipeline_eq (c : Context) (writer : FileWriter (World Unit)) : c.pipeline writer = .ok
    ⟨Core.registry, [(Adapters.mk [] writer .usual).extension],
      c.settings.generation.requiredFamilies⟩ := by
  unfold pipeline
  rw [Core.registerAll_eq rfl]
  rfl

/-- The place that the list is planned at, as its path is written. -/
def listed (c : Context) : Path := ⟨(Core.plannedManifest (Core.layout c.settings.output)).path⟩

/-- A generation that writes looks at the files of the run before, and runs, with this result. -/
structure Runs (c : Context) (w : World Unit) (previous : PreviousFiles) (r : RunResult)
    (t : Session Unit) : Prop where
  load : PreviousFiles.load w.disk c.manifest = .ok previous
  run : ∃ p, c.pipeline (diskWriter false) = .ok p ∧ p.run (c.options previous) w = (.ok r, t)

theorem Runs.run_eq (h : c.Runs w previous r t) :
    (Pipeline.mk Core.registry [(Adapters.mk [] (diskWriter false) .usual).extension]
      c.settings.generation.requiredFamilies).run (c.options previous) w = (.ok r, t) := by
  obtain ⟨p, hp, hrun⟩ := h.run
  rw [pipeline_eq] at hp
  rwa [← Except.ok.inj hp] at hrun

/-- A run leaves the tree alone and queues the list last. -/
theorem Runs.disk_and_writes (h : c.Runs w previous r t) : t.world.disk = w.disk ∧
    ∃ others files, r.writes = others ++
      [⟨c.listed, (Core.manifestOf (c.options previous) r.artifact files).text.toUTF8,
        "builder.manifest"⟩] := by
  have hrun := h.run_eq
  refine ⟨Pipeline.view_of_run rfl rfl (Core.helpersSpare (fun _ _ => rfl) rfl) hrun, ?_⟩
  obtain ⟨names, files, -, -, hwrites⟩ := Core.exists_queue_of_run rfl
    (List.forall_mem_singleton.mpr (Adapters.keepsPlan_of_nil rfl)) hrun
  exact ⟨_, files, hwrites⟩

/-- A generation, stage by stage. -/
theorem generate_eq (c : Context) (dryRun : Bool) (s : Session Unit) : c.generate dryRun s =
    match c.ensureValid with
    | .error f => (.error f, s)
    | .ok () =>
      match PreviousFiles.load s.world.disk c.manifest with
      | .error f => (.error f, s)
      | .ok previous =>
        match (Pipeline.mk Core.registry
            [(Adapters.mk [] (diskWriter (c.isDry dryRun)) .usual).extension]
            c.settings.generation.requiredFamilies).run (c.options previous) s.world with
        | (.error f, t) => (.error f, t)
        | (.ok r, t) => Session.act (c.applyWrites (c.isDry dryRun) r) t := by
  unfold generate
  simp only [Attempt.bind_apply, pipeline_eq, Attempt.ofExcept_apply, Attempt.get_apply]
  rcases c.ensureValid with f | ⟨⟩
  · rfl
  simp only
  rcases PreviousFiles.load s.world.disk c.manifest with f | previous
  · rfl
  simp only
  refine (Attempt.bind_apply _ _ _).trans ?_
  rcases (Pipeline.mk Core.registry
    [(Adapters.mk [] (diskWriter (c.isDry dryRun)) .usual).extension]
    c.settings.generation.requiredFamilies).run (c.options previous) s.world with ⟨f | r, t⟩ <;> rfl

/-- What a generation has done when it has succeeded, and what it says. -/
theorem exists_run_of_generate {dryRun : Bool} {text : String}
    (h : c.generate dryRun s = (.ok text, s')) : c.settings.problems = [] ∧
      ∃ previous r t rs, PreviousFiles.load s.world.disk c.manifest = .ok previous ∧
        (Pipeline.mk Core.registry [(Adapters.mk [] (diskWriter (c.isDry dryRun)) .usual).extension]
          c.settings.generation.requiredFamilies).run (c.options previous) s.world = (.ok r, t) ∧
        (diskWriter (c.isDry dryRun)).apply c.workspace r.writes t.world = (.ok rs, s'.world) ∧
        text = Presentation.generated s'.world.summary r.diagnostics c.workspace
          (c.isDry dryRun) := by
  rw [generate_eq] at h
  split at h
  · cases h
  next hvalid =>
  split at h
  · cases h
  next previous hload =>
  split at h
  · cases h
  next r t hrun =>
  refine ⟨?_, previous, r, t, ?_⟩
  · unfold ensureValid at hvalid
    split at hvalid
    · next hnone => exact hnone
    · cases hvalid
  · obtain ⟨rs, w, happly, hshow⟩ := Attempt.bind_eq_ok.mp (Session.world_of_act h)
    obtain ⟨v, w', hworld, htext⟩ := Attempt.bind_eq_ok.mp hshow
    cases hworld
    obtain ⟨hsaid, rfl⟩ := Prod.mk.inj htext
    exact ⟨rs, hload, hrun, happly, (Except.ok.inj hsaid).symm⟩

/-- What a generation that writes has done when it has succeeded. -/
theorem exists_of_generate {text : String} (hdry : c.settings.generation.dryRun = false)
    (h : c.generate false s = (.ok text, s')) : c.settings.problems = [] ∧
      ∃ previous r t rs, c.Runs s.world previous r t ∧
        (diskWriter false).apply c.workspace r.writes t.world = (.ok rs, s'.world) := by
  have hwet : c.isDry false = false := by rw [isDry, hdry]; rfl
  obtain ⟨hvalid, previous, r, t, rs, hload, hrun, happly, -⟩ := exists_run_of_generate h
  rw [hwet] at hrun happly
  exact ⟨hvalid, previous, r, t, rs, ⟨hload, _, pipeline_eq c _, hrun⟩, happly⟩

/-- A generation that runs succeeds if its writes do. -/
theorem Runs.exists_generate {rs : List WriteRecord} {w' : World Unit}
    (h : c.Runs s.world previous r t) (hvalid : c.settings.problems = [])
    (hdry : c.settings.generation.dryRun = false)
    (happly : (diskWriter false).apply c.workspace r.writes t.world = (.ok rs, w')) :
    ∃ text, c.generate false s = (.ok text, { t with world := w' }) := by
  have hwet : c.isDry false = false := by rw [isDry, hdry]; rfl
  have hchecked : c.ensureValid = .ok () := by rw [ensureValid, hvalid]
  obtain ⟨text, hshown⟩ : ∃ text,
      Session.act (c.applyWrites false r) t = (.ok text, { t with world := w' }) := by
    rw [Session.act, Attempt.onPart, applyWrites, Attempt.bind_apply, happly]
    exact ⟨_, rfl⟩
  refine ⟨text, ?_⟩
  rw [generate_eq, hwet, hchecked]
  simp only [h.load, h.run_eq, hshown]

/-! ## The path of the list -/

theorem isName_manifestFile : Path.IsName Core.manifestFile.toList := by decide

/-- The names of the path of the list after those of the workspace. -/
def inner (c : Context) : Place := (Path.mk c.settings.output.dir).place ++ [Core.manifestFile]

/-- In settings without problems, the directory of all output is named from the workspace on, and
does not go up anywhere. -/
theorem directory_of_valid (h : c.settings.problems = []) :
    (Path.mk c.settings.output.dir).isAbsolute = false ∧ c.settings.output.dir.toList ≠ [] ∧
      .up ∉ (Path.mk c.settings.output.dir).components := by
  obtain ⟨-, -, -, hdirectories, -⟩ := Settings.problems_eq_nil_iff.mp h
  exact Settings.of_directoryProblem?
    (hdirectories ("dir", c.settings.output.dir) List.mem_cons_self)

/-- In settings without problems, files are planned from the workspace on, and not above it. -/
theorem relative_of_mem_plan (h : c.settings.problems = []) {names : List String}
    {e : PlannedArtifact} (he : e ∈ (Core.plan (Core.layout c.settings.output) names).entries) :
    (Path.mk e.path).isAbsolute = false ∧ .up ∉ (Path.mk e.path).components := by
  obtain ⟨-, -, -, hdirectories, -⟩ := Settings.problems_eq_nil_iff.mp h
  exact Core.relative_of_mem_plan hdirectories he

/-- The list is read from the names after those of the workspace. -/
theorem names_manifest {d : Disk} (hvalid : c.settings.problems = []) (hcwd : d.cwd.Named) :
    d.names c.manifest = d.names c.workspace ++ c.inner := by
  obtain ⟨hrelative, -, hdir⟩ := directory_of_valid hvalid
  rw [manifest, Disk.names_join hcwd (Path.isAbsolute_of_name isName_manifestFile)
      (Path.up_notMem_of_name isName_manifestFile), Disk.names_join hcwd hrelative hdir,
    Path.place_of_name isName_manifestFile, List.append_assoc, inner]

/-- The directory of all output, without slashes at its end, as it comes before the name of the
list. -/
def outputDir (c : Context) : Path := ⟨Core.dropEndSlashes c.settings.output.dir⟩

theorem isAbsolute_outputDir (hvalid : c.settings.problems = []) :
    c.outputDir.isAbsolute = false ∧ c.outputDir.text.toList ≠ [] := by
  obtain ⟨hrelative, hne, -⟩ := directory_of_valid hvalid
  exact Core.isAbsolute_dropEndSlashes hrelative hne

theorem moves_outputDir (c : Context) :
    c.outputDir.moves = (Path.mk c.settings.output.dir).moves := Core.moves_dropEndSlashes _

theorem listed_eq (hvalid : c.settings.problems = []) :
    c.listed = c.outputDir.join ⟨Core.manifestFile⟩ := by
  have hlast : c.outputDir.text.toList.getLast? ≠ some '/' := by
    have htext : c.outputDir.text.toList =
        Text.dropEndWhile (· == '/') c.settings.output.dir.toList := String.toList_ofList
    rw [htext]
    exact fun hslash => by simpa using Text.getLast?_dropEndWhile _ '/' hslash
  refine congrArg Path.mk (String.toList_inj.mp ?_)
  rw [String.toList_ofList, Path.glue, if_neg (not_or.mpr ⟨(isAbsolute_outputDir hvalid).2, hlast⟩)]
  simp [Core.plannedManifest, Core.layout, Representation.Layout.rootPath, outputDir]

/-- The list is written to the names after those of the place of the workspace. -/
theorem names_listed {d : Disk} (hvalid : c.settings.problems = []) (hcwd : d.cwd.Named)
    (hB : B.Named) : d.names (B.path.join c.listed) = B ++ c.inner := by
  obtain ⟨-, -, hdir⟩ := directory_of_valid hvalid
  have hname := Path.isAbsolute_of_name isName_manifestFile
  have hrelative : c.listed.isAbsolute = false := by
    rw [listed_eq hvalid, Path.isAbsolute_join hname, (isAbsolute_outputDir hvalid).1]
  have hmoves : c.listed.moves = (Path.mk c.settings.output.dir).moves ++
      [.name Core.manifestFile.toList] := by
    rw [listed_eq hvalid, Path.moves_join hname, moves_outputDir,
      Path.moves_of_name isName_manifestFile]
  have hup : .up ∉ c.listed.components := by
    rw [Path.up_mem_components_iff] at hdir ⊢
    simpa [hmoves] using hdir
  rw [Disk.names_join hcwd hrelative hup, Disk.names_path hB, Path.place_eq, hmoves,
    List.filterMap_append, ← Path.place_eq, inner]
  rfl

/-! ## The list of a generation -/

/-- The workspace is written without going up, its names and those of the list lead to places with
composed names, and whatever links on the way lead to is found. -/
structure Faithful (c : Context) (d : Disk) (B F : Place) : Prop where
  level : d.Level c.workspace
  usable : Disk.Usable c.manifest
  workspace : d.LeadsTo (d.names c.workspace) B
  manifest : d.LeadsTo (d.names c.manifest) F
  composed : B.Composed ∧ F.Composed
  follows : d.Follows (d.names c.manifest)
  inside : d.Follows (B ++ c.inner)

/-- Everything that a generation queues is written plainly. -/
def Plain (c : Context) (w : World Unit) : Prop :=
  ∀ previous r t, c.Runs w previous r t → ∀ q ∈ r.writes, ∀ P : Place, P.Named →
    w.disk.resolveWithin c.workspace q.path = .ok P.path → w.disk.Plain P

/-- Links before the workspace are followed when it is resolved. -/
theorem Faithful.canonicalBoundary_eq {d : Disk} (h : c.Faithful d B F)
    (hvalid : c.settings.problems = []) (hcwd : d.cwd.Named) :
    d.canonicalBoundary c.workspace = .ok B.path := by
  have hworkspace : d.reach c.workspace = .ok B.path := by
    refine Disk.reach_of_follows h.workspace fun Q s X u G m hQ => h.follows Q s X u G m ?_
    rw [names_manifest hvalid hcwd]
    exact hQ.trans (List.prefix_append _ _)
  rw [Disk.canonicalBoundary, Disk.resolveExisting_eq, hworkspace, Except.map,
    Place.compose_path h.composed.1]

/-- The list is written to the place that its path leads to. -/
theorem Faithful.resolveWithin_eq {d : Disk} (h : c.Faithful d B F)
    (hvalid : c.settings.problems = []) (hcwd : d.cwd.Named) {p : Path}
    (hp : d.resolveWithin c.workspace c.listed = .ok p) : p = F.path := by
  have hB : B.Named := h.workspace.named (d.named_names _)
  have hlisted : d.reach (B.path.join c.listed) = .ok F.path := by
    refine Disk.reach_of_follows ?_ ?_ <;> rw [names_listed hvalid hcwd hB]
    · exact h.workspace.resume (d.named_names _) (names_manifest hvalid hcwd ▸ h.manifest)
    · exact h.inside
  obtain ⟨b, hb, hresolved, -⟩ := Disk.resolveWithin_ok_iff.mp hp
  obtain rfl := Except.ok.inj ((h.canonicalBoundary_eq hvalid hcwd).symm.trans hb)
  rw [Disk.resolveExisting_eq, hlisted, Except.map, Place.compose_path h.composed.2] at hresolved
  exact (Except.ok.inj hresolved).symm

/-- In a workspace without links, everything is written plainly. -/
theorem Faithful.plain (h : c.Faithful w.disk B F) (hvalid : c.settings.problems = [])
    (hcwd : w.disk.cwd.Named) (hopens : w.disk.Opens B)
    (hlinks : ∀ Q t, w.disk.lookup Q = some (.link t) → ¬B <+: Q) : c.Plain w :=
  fun _ _ _ _ _ _ _ hP hresolve =>
    Disk.plain_of_resolveWithin (h.workspace.named (w.disk.named_names _)) hopens hlinks
      (h.canonicalBoundary_eq hvalid hcwd) hP hresolve

/-- A generation has written its list last, to this place, where the next one finds it. As a writer
leaves files alone that have the right digest, the contents can be older ones with the same. -/
def LeavesList (c : Context) (w w' : World Unit) (F : Place) : Prop :=
  ∃ previous r t others files x, c.Runs w previous r t ∧
    let contents := (Core.manifestOf (c.options previous) r.artifact files).text.toUTF8
    r.writes = others ++ [⟨c.listed, contents, "builder.manifest"⟩] ∧
    w.disk.resolveWithin c.workspace c.listed = .ok F.path ∧
    w'.disk.locate true c.manifest = .ok (.found F (.file x)) ∧
    contentHash x = contentHash contents ∧
    (x = contents → PreviousFiles.load w'.disk c.manifest = .ok ⟨files⟩)

/-- Whatever links lead to the workspace: a generation that succeeds leaves its list in the file
that the next one reads, if the path of the workspace leads to where its names do, and if no write
goes through a link. -/
theorem generate_leaves_list {text : String} (htree : s.world.disk.IsTree)
    (hcwd : s.world.disk.Opens s.world.disk.cwd) (hnamed : s.world.disk.cwd.Named)
    (hfaithful : c.Faithful s.world.disk B F) (hplain : c.Plain s.world)
    (hdry : c.settings.generation.dryRun = false) (h : c.generate false s = (.ok text, s')) :
    c.LeavesList s.world s'.world F := by
  obtain ⟨hvalid, previous, r, t, rs, hruns, happly⟩ := exists_of_generate hdry h
  obtain ⟨hdisk, others, files, hwrites⟩ := hruns.disk_and_writes
  have hwritten := hplain previous r t hruns
  rw [← hdisk, hwrites] at hwritten
  rw [hwrites] at happly
  obtain ⟨htree', hsteady, P, hP, hresolve, hshort, x, hfile, hsame⟩ :=
    exists_last_of_apply (hdisk ▸ htree) hwritten happly
  rw [hdisk] at hsteady hresolve
  have hF : F.Named := hfaithful.manifest.named (Disk.named_names _ _)
  obtain rfl : P = F :=
    Place.path_inj hP hF (hfaithful.resolveWithin_eq hvalid hnamed hresolve)
  obtain ⟨hrelative, -, hdir⟩ := directory_of_valid hvalid
  have hlocate := Disk.locate_of_reach hcwd hnamed (hfaithful.level.join hrelative hdir)
    isName_manifestFile hfaithful.usable
    (Disk.reach_of_follows hfaithful.manifest hfaithful.follows) hF hsteady htree' hfile hshort
  refine ⟨previous, r, t, others, files, x, hruns, hwrites, hresolve, hlocate, hsame, ?_⟩
  rintro rfl
  exact PreviousFiles.load_of_locate (m := Core.manifestOf (c.options previous) r.artifact files)
    hlocate

/-! ## Workspaces behind links -/

/-- Two directories, and a link to one of them. -/
def shortcut : Disk := ⟨[(["a"], .dir), (["real"], .dir), (["l"], .link ⟨"real"⟩)], []⟩

/-- The workspace is behind a link, and its path goes up from a directory. -/
def linked : Context where
  workspace := ⟨"a/../l"⟩
  settings := { Settings.usual with project := ⟨"demo", "0.1.0", [], .empty⟩ }
  sourcePath := ⟨"genpipe.toml"⟩

theorem stands_linked : shortcut.Stands ["l"] ["real"] .dir :=
  ⟨1, .follow (by decide) rfl (fun _ => rfl) (.enter (by decide) rfl (.stay rfl))⟩

theorem names_linked : shortcut.names linked.workspace = ["l"] := by decide +kernel

theorem names_manifest_linked :
    shortcut.names linked.manifest = ["l"] ++ ["generated", "manifest.json"] := by decide +kernel

/-- Nothing has been generated yet. -/
theorem not_stands_linked {P : Place} (hP : shortcut.Stands P ["real"] .dir) (s : String)
    (C : Place) (h : ["generated", "manifest.json"] = s :: C) (G : Place) (m : Node) :
    ¬shortcut.Stands (P ++ [s]) G m := by
  obtain ⟨rfl, -⟩ := List.cons.inj h
  exact hP.not_concat rfl G m

theorem level_linked : shortcut.Level linked.workspace := by
  intro before after hmoves Q s hQ
  have hall : linked.workspace.moves = [.name ['a'], .up, .name ['l']] := by decide +kernel
  rw [hall] at hmoves
  obtain rfl : before = [.name ['a']] := by
    rcases before with _ | ⟨x, _ | ⟨y, _ | ⟨z, before⟩⟩⟩ <;> simp_all
  obtain ⟨rfl, hs⟩ : [] = Q ∧ ["a"] = [s] := List.append_inj' hQ rfl
  obtain rfl : "a" = s := List.singleton_inj.mp hs
  exact ⟨[], shortcut.stands_nil, 0, .enter (by decide) rfl (.stay rfl)⟩

theorem faithful_linked :
    linked.Faithful shortcut ["real"] ["real", "generated", "manifest.json"] where
  level := level_linked
  usable := ⟨by decide +kernel, by decide +kernel, by decide +kernel⟩
  workspace := names_linked ▸ stands_linked.leadsTo
  manifest := by
    rw [names_manifest_linked]
    exact .on (F := ["real"]) stands_linked (not_stands_linked stands_linked)
  composed := ⟨by decide, by decide⟩
  follows := by
    rw [names_manifest_linked]
    exact Disk.follows_of_missing (by decide) (by decide +kernel) (not_stands_linked stands_linked)
  inside := by
    have hinner : linked.inner = ["generated", "manifest.json"] := by decide +kernel
    rw [hinner]
    exact Disk.follows_of_missing (by decide) (by decide +kernel)
      (not_stands_linked (stands_linked.self (by decide)))

theorem plain_linked : linked.Plain (sessionOn shortcut).world := by
  have hopens : shortcut.Opens ["real"] := (shortcut.opens_nil).concat rfl
  refine faithful_linked.plain (by decide +kernel) Place.named_nil hopens fun Q t hlink => ?_
  have hne : Q ≠ [] := by
    rintro rfl
    cases hlink
  have hentry := Disk.mem_of_lookup hlink hne
  obtain ⟨rfl, -⟩ : Q = ["l"] ∧ t = ⟨"real"⟩ := by
    simpa [sessionOn, Session.start, shortcut] using hentry
  decide

theorem exists_generate_linked : ∃ text s,
    linked.generate false (sessionOn shortcut) = (.ok text, s) := by
  have hok : (linked.generate false (sessionOn shortcut)).1.isOk = true := by
    simp only [generate, pipeline_eq, Pipeline.run, Pipeline.stages, Attempt.bind_apply,
      Attempt.ofExcept, runFragments_of_schedule Core.schedule_registry, Pipeline.finish,
      runBuilders, Core.builders_registry]
    decide +kernel
  generalize linked.generate false (sessionOn shortcut) = done at hok
  rcases done with ⟨f | text, s⟩
  · cases hok
  · exact ⟨text, s, rfl⟩

/-- The workspace is a directory behind a link. -/
theorem generate_leaves_list_linked :
    let w := (sessionOn shortcut).world
    w.disk.IsTree ∧ w.disk.Opens w.disk.cwd ∧ w.disk.cwd.Named ∧
      linked.Faithful w.disk ["real"] ["real", "generated", "manifest.json"] ∧ linked.Plain w ∧
      linked.settings.generation.dryRun = false ∧
      ∃ text s, linked.generate false (sessionOn shortcut) = (.ok text, s) ∧
        linked.LeavesList w s.world ["real", "generated", "manifest.json"] := by
  have htree : shortcut.IsTree :=
    Disk.isTree_of_entries (by simp [shortcut, Disk.lookup, List.lookup_cons])
  have hcwd : shortcut.Opens shortcut.cwd := shortcut.opens_nil
  obtain ⟨text, s, h⟩ := exists_generate_linked
  exact ⟨htree, hcwd, Place.named_nil, faithful_linked, plain_linked, rfl, text, s, h,
    generate_leaves_list htree hcwd Place.named_nil faithful_linked plain_linked rfl h⟩

/-! ## Going up behind links -/

/-- A directory in another, and a link to it. -/
def detour : Disk :=
  ⟨[(["real"], .dir), (["real", "sub"], .dir), (["l"], .link ⟨"real/sub"⟩)], []⟩

/-- The path of the workspace goes up from what the link leads to. -/
def upward : Context := { linked with workspace := ⟨"l/.."⟩ }

/-- The list is written where the names of the workspace lead to, but it is looked for in the parent
of what the link leads to. -/
theorem list_is_lost :
    let done := upward.generate false (sessionOn detour)
    upward.settings.problems = [] ∧ upward.settings.generation.dryRun = false ∧ detour.IsTree ∧
      detour.isDir upward.workspace = true ∧ done.1.isOk = true ∧
      done.2.world.disk.isFile (Place.path ["generated", "manifest.json"]) = true ∧
      done.2.world.disk.exists_ upward.manifest = false ∧
      PreviousFiles.load done.2.world.disk upward.manifest = .ok .none := by
  intro done
  have hrun : (done.1.isOk &&
    (done.2.world.disk.isFile (Place.path ["generated", "manifest.json"]) &&
      !done.2.world.disk.exists_ upward.manifest)) = true := by
    simp only [done, generate, pipeline_eq, Pipeline.run, Pipeline.stages, Attempt.bind_apply,
      Attempt.ofExcept, runFragments_of_schedule Core.schedule_registry, Pipeline.finish,
      runBuilders, Core.builders_registry]
    decide +kernel
  rw [Bool.and_eq_true, Bool.and_eq_true, Bool.not_eq_true'] at hrun
  obtain ⟨hok, hfile, hmissing⟩ := hrun
  have htree : detour.IsTree :=
    Disk.isTree_of_entries (by simp [detour, Disk.lookup, List.lookup_cons])
  refine ⟨by decide +kernel, rfl, htree, by decide +kernel, hok, hfile, hmissing, ?_⟩
  rw [PreviousFiles.load, hmissing, if_neg Bool.false_ne_true]

end CommandLine.Context

end StagedCodegen
