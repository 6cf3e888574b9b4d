import StagedCodegen.Proofs.CommandLine.Generation

/-!
# Generations, one after another

A generation writes sources that are read off the settings, and a list that depends on the settings
and on the list of the run before (`CommandLine.Context.queue`). What it has written stays where it
is, and the next generation finds either its list or, if nothing was to be written, the one that it
has found itself (`CommandLine.Context.Generated.load_next`). So there is one thing that a second
generation can have to write, which is a list without the stale files of the first; and from then on
everything that would be written is there already (`CommandLine.Context.Settled`). Since the list
can be written again where it was written before, all generations succeed if the first one does
(`CommandLine.Context.exists_generation`).

Main statement: `CommandLine.Context.generations_settle`.
-/

namespace StagedCodegen

open StagedCodegen.Representation (Artifact Data Meta PlannedArtifact)

/-- What a list is read from is all that matters to it. -/
theorem PreviousFiles.load_congr {d d' : Disk} {p : Path} (h : d'.node? p = d.node? p) :
    load d' p = load d p := by
  have hread : d.exists_ p = true → d'.read p = d.read p := by
    intro hexists
    obtain ⟨⟨F, n⟩, hn⟩ := Option.isSome_iff_exists.mp hexists
    have hlocate := Disk.node?_eq_some_iff.mp hn
    have hlocate' := Disk.node?_eq_some_iff.mp (h.trans hn)
    rw [Disk.read, Disk.read, hlocate, hlocate']
  have hexists : d'.exists_ p = d.exists_ p := by rw [Disk.exists_, Disk.exists_, h]
  rw [load, load, hexists]
  split
  · next hfound => rw [hread hfound]
  · rfl

theorem PreviousFiles.stale_self (files : SortedMap String) : stale ⟨files⟩ files.keys = [] := by
  simp [stale]

namespace CommandLine.Context

variable {c : Context} {B : Place} {m : Meta} {d d' : Disk} {w : World Unit}
  {previous : PreviousFiles} {r : RunResult} {t s' : Session Unit} {text : String}
  {rs : List WriteRecord}

/-! ## What a generation writes -/

/-- What is drafted for a project of this identity. -/
def drafted (c : Context) (m : Meta) : Data := Core.dataOf (c.options .none) m

/-- The list of a generation that has found this list of the run before. -/
def listAfter (c : Context) (m : Meta) (previous : PreviousFiles) : Core.Manifest :=
  Core.manifestOf (c.options previous) ⟨c.drafted m, 0, .empty⟩ (Core.digests (c.drafted m))

/-- What a generation writes: the sources, and then the list. -/
def queue (c : Context) (m : Meta) (previous : PreviousFiles) : List QueuedWrite :=
  Core.sourceWrites (c.drafted m) ++
    [⟨c.listed, (c.listAfter m previous).text.toUTF8, "builder.manifest"⟩]

theorem identity_options (c : Context) (previous : PreviousFiles) (key : String) :
    Core.identity (c.options previous) key = Core.identity (c.options .none) key := rfl

-- the namespace must not be computed
attribute [local irreducible] Core.identity

theorem Runs.exists_queue_eq (h : c.Runs w previous r t) : ∃ m,
    Core.identity (c.options .none) "ir.meta.core" = .ok m ∧ r.writes = c.queue m previous := by
  obtain ⟨l, u, hprepared⟩ := Pipeline.prepares_of_run h.run_eq
  obtain ⟨⟨s, s', hdraft⟩, ⟨t', hbuilt⟩, -⟩ := Pipeline.built_of_prepares rfl rfl hprepared
  obtain ⟨m, hm, hartifact, hwrites⟩ := Core.exists_writes_of_built rfl hdraft hbuilt
  refine ⟨m, identity_options c previous _ ▸ hm, ?_⟩
  rw [hwrites, hartifact]
  rfl

/-- The pipeline of a project with an identity runs, whatever its writer is. -/
theorem exists_run (hm : Core.identity (c.options .none) "ir.meta.core" = .ok m)
    (previous : PreviousFiles) (writer : FileWriter (World Unit)) (w : World Unit) :
    ∃ r t, (Pipeline.mk Core.registry [(Adapters.mk [] writer .usual).extension]
      c.settings.generation.requiredFamilies).run (c.options previous) w = (.ok r, t) := by
  have hdraft : ∀ s : Session Unit, ∃ t,
      runFragments Core.registry c.settings.generation.requiredFamilies
      (c.options previous) s = (.ok ⟨c.drafted m, 0, .empty⟩, t) := by
    intro s
    obtain ⟨t, hrun⟩ := Core.exists_runFragments (c.options previous)
      c.settings.generation.requiredFamilies s
    rw [identity_options, hm] at hrun
    exact ⟨t, hrun⟩
  exact Pipeline.exists_run_of_nil (p := ⟨Core.registry,
    [(Adapters.mk [] writer .usual).extension], c.settings.generation.requiredFamilies⟩) rfl rfl
    hdraft (Core.exists_built (Core.sourced_dataOf (c.options .none) m)) w

/-- A generation for a project with an identity runs as soon as it has read a list. -/
theorem exists_runs (hm : Core.identity (c.options .none) "ir.meta.core" = .ok m)
    (hload : PreviousFiles.load w.disk c.manifest = .ok previous) :
    ∃ r t, c.Runs w previous r t := by
  obtain ⟨r, t, hrun⟩ := exists_run hm previous (diskWriter false) w
  exact ⟨r, t, hload, _, pipeline_eq c _, hrun⟩

theorem Runs.records_eq (h : c.Runs w previous r t) : t.world.records = w.records :=
  Pipeline.view_of_run rfl rfl (Core.helpersSpare (fun _ _ => rfl) rfl) h.run_eq

/-! ## Where it is written -/

theorem path_queue (c : Context) (m : Meta) (previous : PreviousFiles) :
    (c.queue m previous).map (·.path) = (c.drafted m).plan.entries.map fun e => ⟨e.path⟩ := by
  have htexts := Core.path_sourceWrites (d := c.drafted m) rfl (Core.sourced_dataOf _ m)
  have hpaths := congrArg (List.map Path.mk) htexts
  rw [List.map_append, List.map_map, List.map_map] at hpaths
  rw [queue, List.map_append]
  exact hpaths

/-- The workspace is written as the path of its place, whose names are composed. Something is to be
written, and the resources are told apart by the words of their names, run together. -/
structure Regular (c : Context) (B : Place) : Prop where
  workspace : c.workspace = B.path
  named : B.Named
  composed : B.Composed
  wet : c.settings.generation.dryRun = false
  separate : (c.settings.project.resources.map fun r => Text.pascalCase r.name).Nodup

/-- The files of a generation, with what it writes to them. -/
def placed (c : Context) (B : Place) (m : Meta) (previous : PreviousFiles) : Placed :=
  B.placed (c.queue m previous)

theorem placed_eq (c : Context) (B : Place) (m : Meta) (previous : PreviousFiles) :
    c.placed B m previous = B.placed (Core.sourceWrites (c.drafted m)) ++
      [(B.target c.listed, (c.listAfter m previous).text.toUTF8)] := by
  rw [placed, queue, Place.placed, List.map_append]
  rfl

theorem sources_subset (c : Context) (B : Place) (m : Meta) (previous : PreviousFiles) :
    B.placed (Core.sourceWrites (c.drafted m)) ⊆ c.placed B m previous := by
  rw [placed_eq]
  exact List.subset_append_left _ _

theorem place_placed (c : Context) (B : Place) (m : Meta) (previous : PreviousFiles) :
    (c.placed B m previous).map (·.1) =
      (c.drafted m).plan.entries.map fun e => B.target ⟨e.path⟩ := by
  have hpaths := congrArg (List.map B.target) (path_queue c m previous)
  rw [List.map_map, List.map_map] at hpaths
  rw [placed, Place.placed, List.map_map]
  exact hpaths

theorem exists_planned {t : Place × ByteArray} (ht : t ∈ c.placed B m previous) :
    ∃ e ∈ (c.drafted m).plan.entries, B.target ⟨e.path⟩ = t.1 := by
  have hmem : t.1 ∈ (c.placed B m previous).map (·.1) := List.mem_map_of_mem ht
  rw [place_placed] at hmem
  exact List.mem_map.mp hmem

/-- Every file has a name of its own, after those of the workspace. -/
theorem ne_of_mem_placed {t : Place × ByteArray} (ht : t ∈ c.placed B m previous) : B ≠ t.1 := by
  obtain ⟨e, he, heq⟩ := exists_planned ht
  obtain ⟨X, hX⟩ := Core.exists_target_eq B he
  rw [← heq, hX, Place.target, List.append_assoc B, List.append_assoc B]
  exact fun hB => List.concat_ne_nil _ _ (List.self_eq_append_right.mp hB)

theorem Regular.pairwise_placed (hc : c.Regular B) (m : Meta) (previous : PreviousFiles) :
    (c.placed B m previous).Pairwise fun t u => t.1.Apart u.1 := by
  have hseparate : Core.Separate c.settings.project.resources := fun r hr r' hr' heq =>
    congrArg _ (List.inj_on_of_nodup_map hc.separate hr hr' heq)
  have hpairwise := Core.pairwise_target (l := Core.layout c.settings.output) B
    (Core.separate_iff.mpr hseparate)
  have hplaces := place_placed c B m previous
  rw [← List.pairwise_map (f := fun t : Place × ByteArray => t.1), hplaces]
  exact hpairwise

theorem Regular.named_placed (hc : c.Regular B) : ∀ t ∈ c.placed B m previous, t.1.Named := by
  intro t ht
  obtain ⟨q, -, rfl⟩ := List.mem_map.mp ht
  exact hc.named.target q.path

theorem Regular.orderly (hc : c.Regular B) (hfree : d.LinkFree B) :
    FileWriter.Orderly d (c.placed B m previous) := by
  refine ⟨fun t ht => ?_, hc.pairwise_placed m previous⟩
  have hne := ne_of_mem_placed ht
  have hnamed := hc.named_placed t ht
  obtain ⟨q, -, rfl⟩ := List.mem_map.mp ht
  have hBP : B <+: B.target q.path := List.prefix_append B _
  exact ⟨hfree.plain hBP hne, hnamed, Place.ne_nil_of_below hBP hne⟩

theorem relative_of_mem_queue (hvalid : c.settings.problems = []) :
    ∀ q ∈ c.queue m previous, q.path.isAbsolute = false ∧ .up ∉ q.path.components := by
  intro q hq
  have hpath : q.path ∈ (c.queue m previous).map (·.path) := List.mem_map_of_mem hq
  rw [path_queue] at hpath
  obtain ⟨e, he, heq⟩ := List.mem_map.mp hpath
  exact heq ▸ relative_of_mem_plan hvalid he

/-! ## Where the list is looked for -/

theorem place_listed (hvalid : c.settings.problems = []) : c.listed.place = c.inner := by
  rw [listed_eq hvalid, Path.place_join (Path.isAbsolute_of_name isName_manifestFile),
    Path.place_of_name isName_manifestFile, Path.place_eq, moves_outputDir, ← Path.place_eq, inner]

/-- If anything is written at the place where the list is looked for or below it, it is the place
that the list is written to. -/
theorem eq_target_of_isPrefix (hvalid : c.settings.problems = []) {e : PlannedArtifact}
    (he : e ∈ (c.drafted m).plan.entries) (h : B ++ c.inner <+: B.target ⟨e.path⟩) :
    B ++ c.inner = B.target c.listed := by
  obtain ⟨X, hplace⟩ := Core.exists_place_eq he
  replace hplace : Path.place ⟨e.path⟩ =
      Path.place ⟨c.settings.output.dir⟩ ++ (X ++ [Core.fileName e]) := by
    rw [hplace, Core.place_outputDir, List.append_assoc]
    rfl
  rw [Place.target, hplace, List.prefix_append_right_inj, inner, List.map_append] at h
  -- the names of the directory are composed if what is written goes through them
  have hdir : Path.place ⟨c.settings.output.dir⟩ =
      (Path.place ⟨c.settings.output.dir⟩).map Text.compose := by
    refine (List.prefix_of_prefix_length_le ((List.prefix_append _ _).trans h)
      (List.prefix_append _ _) ?_).eq_of_length ?_ <;> rw [List.length_map]
  have hname : Text.compose Core.manifestFile = Core.manifestFile :=
    Core.compose_fileName (Core.plannedManifest (Core.layout c.settings.output))
  rw [Place.target, place_listed hvalid, inner, List.map_append, ← hdir, List.map_singleton, hname]

/-- The list is found just if it stands at the names of its path, as long as the path can be used.
-/
theorem Regular.node?_manifest_iff (hc : c.Regular B) (hvalid : c.settings.problems = [])
    (hfree : d.LinkFree B) {F : Place} {n : Node} : d.node? c.manifest = some (F, n) ↔
      Disk.Walkable c.manifest (B ++ c.inner) ∧ F = B ++ c.inner ∧
        d.lookup (B ++ c.inner) = some n := by
  obtain ⟨hrelative, -, hup⟩ := directory_of_valid hvalid
  have hmanifest : c.manifest =
      (B.path.join ⟨c.settings.output.dir⟩).join ⟨Core.manifestFile⟩ := by
    rw [manifest, hc.workspace]
  have hplace : (B.path.join ⟨c.settings.output.dir⟩).place ++ [Core.manifestFile] =
      B ++ c.inner := by
    rw [Place.place_join hc.named hrelative, inner, List.append_assoc]
  have habsolute := (Path.isAbsolute_join hrelative).trans B.isAbsolute_path
  have hpup : .up ∉ (B.path.join ⟨c.settings.output.dir⟩).components := by
    rw [Path.up_mem_components_iff] at hup ⊢
    rw [Path.moves_join hrelative, Place.moves_path hc.named]
    simpa using hup
  rw [hmanifest, hfree.node?_eq_some_iff habsolute hpup isName_manifestFile
    (hplace ▸ List.prefix_append B _), hplace]

/-! ## One generation -/

/-- A generation has found this list of the run before, has written its files to the tree, and
reports these records. -/
structure Generated (c : Context) (B : Place) (m : Meta) (previous : PreviousFiles) (d : Disk)
    (rs : List WriteRecord) (d' : Disk) : Prop where
  load : PreviousFiles.load d c.manifest = .ok previous
  orderly : FileWriter.Orderly d (c.placed B m previous)
  writes : ∃ w w' : World Unit, w.disk = d ∧ w'.disk = d' ∧
    (diskWriter false).writeAll (c.placed B m previous).onPaths w = (.ok rs, w')

/-- A generation that succeeds has written its files. -/
theorem exists_generated (hc : c.Regular B) (hfree : d.LinkFree B)
    (h : c.generate false (sessionOn d) = (.ok text, s')) : c.settings.problems = [] ∧
      ∃ m previous r t, Core.identity (c.options .none) "ir.meta.core" = .ok m ∧
        c.Runs (sessionOn d).world previous r t ∧ r.writes = c.queue m previous ∧
        targets d c.workspace r.writes = .ok ((c.placed B m previous).map (·.1.path)) ∧
        c.Generated B m previous d s'.world.records s'.world.disk := by
  obtain ⟨hvalid, previous, r, t, rs, hruns, happly⟩ := exists_of_generate hc.wet h
  obtain ⟨m, hm, hwrites⟩ := hruns.exists_queue_eq
  have hdisk : t.world.disk = d := hruns.disk_and_writes.1
  have hnone : t.world.records = [] := hruns.records_eq
  rw [hwrites, hc.workspace] at happly
  obtain ⟨htargets, hall⟩ := writeAll_of_apply (hdisk ▸ hfree) hc.named hc.composed
    (relative_of_mem_queue hvalid) happly
  have horderly : FileWriter.Orderly t.world.disk (c.placed B m previous) :=
    hc.orderly (hdisk ▸ hfree)
  have hrecords : s'.world.records = rs :=
    records_of_writeAll (hdisk ▸ hfree.tree) horderly hnone hall
  refine ⟨hvalid, m, previous, r, t, hm, hruns, hwrites, ?_, hruns.load, hdisk ▸ horderly,
    t.world, s'.world, hdisk, rfl, hrecords ▸ hall⟩
  rw [hc.workspace, hwrites, ← hdisk]
  exact htargets

/-- A generation for a project with an identity succeeds if its files can be written. -/
theorem Regular.exists_generate (hc : c.Regular B) (hvalid : c.settings.problems = [])
    (hm : Core.identity (c.options .none) "ir.meta.core" = .ok m) (hfree : d.LinkFree B)
    (hload : PreviousFiles.load d c.manifest = .ok previous) {v : World Unit}
    (hwrites : (diskWriter false).writeAll (c.placed B m previous).onPaths (sessionOn d).world =
      (.ok rs, v)) : ∃ text s, c.generate false (sessionOn d) = (.ok text, s) := by
  obtain ⟨r, t, hruns⟩ := exists_runs (w := (sessionOn d).world) hm hload
  obtain ⟨m', hm', hqueue⟩ := hruns.exists_queue_eq
  obtain rfl := Except.ok.inj (hm'.symm.trans hm)
  have hdisk : t.world.disk = d := hruns.disk_and_writes.1
  have htargets : targets t.world.disk B.path (c.queue m' previous) =
      .ok ((c.placed B m' previous).map (·.1.path)) :=
    (targets_eq_ok_iff (hdisk ▸ hfree) hc.named hc.composed (relative_of_mem_queue hvalid)).mpr
      ⟨rfl, fun _ hu => ne_of_mem_placed hu⟩
  obtain ⟨w', hall⟩ := FileWriter.exists_writeAll_congr hdisk.symm hwrites
  have happly : (diskWriter false).apply c.workspace r.writes t.world = (.ok rs, w') := by
    rw [hc.workspace, hqueue, FileWriter.apply_eq_writeAll htargets]
    exact hall
  obtain ⟨text, hgenerate⟩ := hruns.exists_generate hvalid hc.wet happly
  exact ⟨text, _, hgenerate⟩

/-- It does if the sources can be written, and then the list. -/
theorem Regular.exists_generate_of_ready (hc : c.Regular B) (hvalid : c.settings.problems = [])
    (hm : Core.identity (c.options .none) "ir.meta.core" = .ok m) (hfree : d.LinkFree B)
    (hload : PreviousFiles.load d c.manifest = .ok previous) {v : World Unit}
    (hsources : (diskWriter false).writeAll (B.placed (Core.sourceWrites (c.drafted m))).onPaths
      (sessionOn d).world = (.ok rs, v)) (hready : v.disk.Ready (B.target c.listed)) :
    ∃ text s, c.generate false (sessionOn d) = (.ok text, s) := by
  have horderly : FileWriter.Orderly d (c.placed B m previous) := hc.orderly hfree
  rw [placed_eq] at horderly
  obtain ⟨horderly, -, -, hnamed, -⟩ := horderly.concat (.refl d)
  have htree : v.disk.IsTree :=
    (FileWriter.wrote_of_writeAll hfree.tree horderly hsources).1.tree
  obtain ⟨r, w', hlist⟩ := World.exists_writeFile_of_ready hready htree hnamed
    (c.listAfter m previous).text.toUTF8
  have hwrites := FileWriter.writeAll_concat
    (t := (B.target c.listed, (c.listAfter m previous).text.toUTF8)) hsources hlist
  rw [← placed_eq] at hwrites
  exact hc.exists_generate hvalid hm hfree hload hwrites

namespace Generated

theorem wrote (h : c.Generated B m previous d rs d') (htree : d.IsTree) :
    d.Wrote d' (c.placed B m previous) ∧
      rs.map (·.path) = (c.placed B m previous).map (·.1.path) := by
  obtain ⟨w, w', rfl, rfl, hall⟩ := h.writes
  obtain ⟨hwrote, -, hpaths⟩ := FileWriter.wrote_of_writeAll htree h.orderly hall
  exact ⟨hwrote, hpaths⟩

theorem linkFree (h : c.Generated B m previous d rs d') (hfree : d.LinkFree B) : d'.LinkFree B := by
  obtain ⟨hwrote, -⟩ := h.wrote hfree.tree
  exact hfree.steady hwrote.steady hwrote.tree

/-- If everything is there already, nothing is written. -/
theorem of_holds (h : c.Generated B m previous d rs d') (htree : d.IsTree)
    (hall : ∀ t ∈ c.placed B m previous, d.Holds t.1 t.2) :
    d' = d ∧ ∀ record ∈ rs, record.status = .unchanged := by
  obtain ⟨w, w', rfl, rfl, hwrites⟩ := h.writes
  obtain ⟨w₂, hdisk, hkept⟩ := FileWriter.writeAll_of_holds htree
    (fun t ht => (h.orderly.plain t ht).2.1) hall false
  obtain ⟨hrs, rfl⟩ := Prod.mk.inj (hkept.symm.trans hwrites)
  obtain rfl := Except.ok.inj hrs
  refine ⟨hdisk, fun record hrecord => ?_⟩
  obtain ⟨t, -, rfl⟩ := List.mem_map.mp hrecord
  rfl

/-- If the sources are there already, nothing is written but the list. -/
theorem of_holds_sources (h : c.Generated B m previous d rs d') (htree : d.IsTree)
    (hall : ∀ t ∈ B.placed (Core.sourceWrites (c.drafted m)), d.Holds t.1 t.2) :
    ∀ record ∈ rs, record.status = .unchanged ∨ (rs.map (·.path)).getLast? = some record.path := by
  obtain ⟨w, w', rfl, rfl, hwrites⟩ := h.writes
  have horderly := h.orderly
  rw [placed_eq] at horderly hwrites
  obtain ⟨last, rfl, -⟩ := FileWriter.writeAll_concat_of_holds htree horderly hall hwrites
  intro record hrecord
  rcases List.mem_append.mp hrecord with hsource | hlast
  · obtain ⟨t, -, rfl⟩ := List.mem_map.mp hsource
    exact .inl rfl
  · rw [List.mem_singleton.mp hlast]
    exact .inr (by simp)

/-- If the list is written elsewhere, nothing happens where it is looked for. -/
theorem lookup_inner_eq (h : c.Generated B m previous d rs d') (hvalid : c.settings.problems = [])
    (htree : d.IsTree) (hne : B ++ c.inner ≠ B.target c.listed) :
    d'.lookup (B ++ c.inner) = d.lookup (B ++ c.inner) := by
  have hoff : ∀ t ∈ c.placed B m previous, ¬B ++ c.inner <+: t.1 := by
    intro t ht hbelow
    obtain ⟨e, he, heq⟩ := exists_planned ht
    exact hne (eq_target_of_isPrefix hvalid he (heq ▸ hbelow))
  have hneighbour : ∀ t ∈ c.placed B m previous, B ++ c.inner ≠ t.1.neighbour := by
    intro t ht hsame
    obtain ⟨e, he, heq⟩ := exists_planned ht
    obtain ⟨X, hX⟩ := Core.exists_target_eq B he
    rw [← heq, hX, Place.neighbour_concat, inner, ← List.append_assoc] at hsame
    exact Core.fileName_ne_temporaryName (Core.plannedManifest (Core.layout c.settings.output)) _
      (List.singleton_inj.mp (List.append_inj' hsame rfl).2)
  obtain ⟨hwrote, -⟩ := h.wrote htree
  rcases hwrote.kept (B ++ c.inner) fun t ht =>
    ⟨fun hsame => hoff t ht (hsame ▸ List.prefix_refl _), hneighbour t ht⟩ with
    hsame | ⟨-, -, t, ht, hbelow⟩
  · exact hsame
  · exact absurd hbelow (hoff t ht)

/-- The next generation finds the list that this one has found or the one that it has written, and
can write another. -/
theorem load_next (h : c.Generated B m previous d rs d') (hc : c.Regular B)
    (hvalid : c.settings.problems = []) (hfree : d.LinkFree B) :
    PreviousFiles.load d' c.manifest = .ok previous ∨
      PreviousFiles.load d' c.manifest = .ok ⟨Core.digests (c.drafted m)⟩ ∧
        d'.Ready (B.target c.listed) := by
  have hfree' := h.linkFree hfree
  have hfound := fun F n => hc.node?_manifest_iff (F := F) (n := n) hvalid hfree
  have hfound' := fun F n => hc.node?_manifest_iff (F := F) (n := n) hvalid hfree'
  have hsame : (∀ n, d'.lookup (B ++ c.inner) = some n ∧ Disk.Walkable c.manifest (B ++ c.inner) ↔
      d.lookup (B ++ c.inner) = some n ∧ Disk.Walkable c.manifest (B ++ c.inner)) →
      PreviousFiles.load d' c.manifest = .ok previous := by
    intro hlookup
    rw [← h.load]
    refine PreviousFiles.load_congr (Option.ext fun ⟨F, n⟩ => ?_)
    rw [hfound, hfound']
    have hn := hlookup n
    tauto
  by_cases hR : B ++ c.inner = B.target c.listed
  · obtain ⟨w, w', rfl, rfl, hwrites⟩ := h.writes
    have horderly := h.orderly
    rw [placed_eq] at horderly hwrites
    rcases FileWriter.lookup_of_writeAll_concat hfree.tree horderly hwrites with
      hkept | ⟨hfile, hready⟩
    · exact .inl (hsame fun n => by rw [hR, hkept])
    · by_cases hwalkable : Disk.Walkable c.manifest (B ++ c.inner)
      · refine .inr ⟨PreviousFiles.load_of_locate (m := c.listAfter m previous)
          (F := B ++ c.inner) ?_, hready⟩
        exact Disk.node?_eq_some_iff.mp ((hfound' _ _).mpr ⟨hwalkable, rfl, hR ▸ hfile⟩)
      · exact .inl (hsame fun n => by simp [hwalkable])
  · exact .inl (hsame fun n => by rw [h.lookup_inner_eq hvalid hfree.tree hR])

end Generated

/-! ## Settled workspaces -/

/-- All that a generation would write is there already. -/
def Settled (c : Context) (B : Place) (m : Meta) (d : Disk) : Prop :=
  ∃ previous, PreviousFiles.load d c.manifest = .ok previous ∧
    ∀ t ∈ c.placed B m previous, d.Holds t.1 t.2

/-- A generation succeeds where everything is there already. -/
theorem Settled.exists_generate (hsettled : c.Settled B m d) (hc : c.Regular B)
    (hvalid : c.settings.problems = [])
    (hm : Core.identity (c.options .none) "ir.meta.core" = .ok m) (hfree : d.LinkFree B) :
    ∃ text s, c.generate false (sessionOn d) = (.ok text, s) := by
  obtain ⟨previous, hload, hall⟩ := hsettled
  obtain ⟨w', -, hwrites⟩ :=
    FileWriter.writeAll_of_holds (w := (sessionOn d).world) hfree.tree hc.named_placed hall false
  exact hc.exists_generate hvalid hm hfree hload hwrites

theorem Generated.of_settled (h : c.Generated B m previous d rs d') (htree : d.IsTree)
    (hsettled : c.Settled B m d) : d' = d ∧ ∀ record ∈ rs, record.status = .unchanged := by
  obtain ⟨found, hload, hall⟩ := hsettled
  obtain rfl := Except.ok.inj (h.load.symm.trans hload)
  exact h.of_holds htree hall

/-- The list of the run before matters for the stale files only. -/
theorem placed_congr {p q : PreviousFiles} (B : Place)
    (h : (c.listAfter m p).stale = (c.listAfter m q).stale) :
    c.placed B m p = c.placed B m q := by
  have hlist : c.listAfter m p = c.listAfter m q := by
    rw [listAfter, listAfter, Core.manifestOf, Core.manifestOf]
    exact congrArg _ h
  rw [placed, placed, queue, queue, hlist]

theorem stale_listAfter_digests (c : Context) (m : Meta) :
    (c.listAfter m ⟨Core.digests (c.drafted m)⟩).stale = [] := PreviousFiles.stale_self _

/-- After a generation everything is there that the next one would write, except that a list with
stale files makes way for one without, and can do so. -/
theorem Generated.settled_or (h : c.Generated B m previous d rs d') (hc : c.Regular B)
    (hvalid : c.settings.problems = []) (hfree : d.LinkFree B) : c.Settled B m d' ∨
      PreviousFiles.load d' c.manifest = .ok ⟨Core.digests (c.drafted m)⟩ ∧
        (c.listAfter m previous).stale ≠ [] ∧ d'.Ready (B.target c.listed) := by
  obtain ⟨hwrote, -⟩ := h.wrote hfree.tree
  rcases h.load_next hc hvalid hfree with hload | ⟨hload, hready⟩
  · exact .inl ⟨previous, hload, hwrote.holds⟩
  · by_cases hstale : (c.listAfter m previous).stale = []
    · refine .inl ⟨_, hload, ?_⟩
      rw [placed_congr B ((stale_listAfter_digests c m).trans hstale.symm)]
      exact hwrote.holds
    · exact .inr ⟨hload, hstale, hready⟩

/-- A generation succeeds after one that has succeeded. -/
theorem Generated.exists_next (h : c.Generated B m previous d rs d') (hc : c.Regular B)
    (hvalid : c.settings.problems = [])
    (hm : Core.identity (c.options .none) "ir.meta.core" = .ok m) (hfree : d.LinkFree B) :
    ∃ text s, c.generate false (sessionOn d') = (.ok text, s) := by
  have hfree' := h.linkFree hfree
  rcases h.settled_or hc hvalid hfree with hsettled | ⟨hload, -, hready⟩
  · exact hsettled.exists_generate hc hvalid hm hfree'
  · obtain ⟨hwrote, -⟩ := h.wrote hfree.tree
    have hsubset := sources_subset c B m previous
    obtain ⟨w', hdisk, hwrites⟩ := FileWriter.writeAll_of_holds (w := (sessionOn d').world)
      hfree'.tree (fun t ht => hc.named_placed t (hsubset ht))
      (fun t ht => hwrote.holds t (hsubset ht)) false
    exact hc.exists_generate_of_ready hvalid hm hfree' hload hwrites (hdisk ▸ hready)

/-! ## One after another -/

/-- The tree after this many generations. -/
def diskAfter (c : Context) (d : Disk) : Nat → Disk
  | 0 => d
  | n + 1 => (c.generate false (sessionOn (c.diskAfter d n))).2.world.disk

/-- The generation after this many others. -/
def generation (c : Context) (d : Disk) (n : Nat) : Except Failure String × Session Unit :=
  c.generate false (sessionOn (c.diskAfter d n))

/-- What the generation after this many others says of its writes. -/
def report (c : Context) (d : Disk) (n : Nat) : List WriteRecord :=
  (c.generation d n).2.world.summary.records

/-- Generations go on from the tree that the first of them has left. -/
theorem diskAfter_succ (c : Context) (d : Disk) (n : Nat) :
    c.diskAfter d (n + 1) = c.diskAfter (c.diskAfter d 1) n := by
  induction n with
  | zero => rfl
  | succ n ih => rw [diskAfter, ih, ← diskAfter]

/-- If the first of several generations succeeds, all of them do. -/
theorem exists_generation (hc : c.Regular B) (hfree : d.LinkFree B)
    (hfirst : ∃ text, (c.generation d 0).1 = .ok text) (n : Nat) :
    ∃ text, (c.generation d n).1 = .ok text := by
  induction n generalizing d with
  | zero => exact hfirst
  | succ n ih =>
    obtain ⟨text, htext⟩ := hfirst
    have hrun : c.generate false (sessionOn d) = (.ok text, (c.generation d 0).2) :=
      Prod.ext htext rfl
    obtain ⟨hvalid, m, previous, -, -, hm, -, -, -, hgenerated⟩ := exists_generated hc hfree hrun
    obtain ⟨text', s, hnext⟩ := hgenerated.exists_next hc hvalid hm hfree
    rw [generation, diskAfter_succ]
    exact ih (hgenerated.linkFree hfree) ⟨text', congrArg Prod.fst hnext⟩

section Repetition

variable {n : Nat} (hc : c.Regular B) (hfree : d.LinkFree B)
  (hok : ∀ i ≤ n, ∃ text, (c.generation d i).1 = .ok text)

include hc hfree hok

theorem forall_generated (hm : Core.identity (c.options .none) "ir.meta.core" = .ok m) {i : Nat}
    (hi : i ≤ n) : (c.diskAfter d i).LinkFree B ∧ ∃ previous,
      c.Generated B m previous (c.diskAfter d i) (c.report d i) (c.diskAfter d (i + 1)) := by
  have hstep : ∀ i ≤ n, (c.diskAfter d i).LinkFree B → ∃ previous,
      c.Generated B m previous (c.diskAfter d i) (c.report d i) (c.diskAfter d (i + 1)) := by
    intro i hi hfree
    obtain ⟨text, htext⟩ := hok i hi
    have hrun : c.generate false (sessionOn (c.diskAfter d i)) = (.ok text, (c.generation d i).2) :=
      Prod.ext htext rfl
    obtain ⟨-, m', previous, -, -, hm', -, -, -, hgenerated⟩ := exists_generated hc hfree hrun
    obtain rfl := Except.ok.inj (hm'.symm.trans hm)
    exact ⟨previous, hgenerated⟩
  induction i with
  | zero => exact ⟨hfree, hstep 0 hi hfree⟩
  | succ i ih =>
    obtain ⟨hfree', previous, hgenerated⟩ := ih (Nat.le_of_succ_le hi)
    have hnext := hgenerated.linkFree hfree'
    exact ⟨hnext, hstep (i + 1) hi hnext⟩

/-- After two generations everything is there that another one would write. -/
theorem settled_of_le (hvalid : c.settings.problems = [])
    (hm : Core.identity (c.options .none) "ir.meta.core" = .ok m) {i : Nat} (hle : 2 ≤ i)
    (hi : i ≤ n) : c.Settled B m (c.diskAfter d i) := by
  induction i, hle using Nat.le_induction with
  | base =>
    obtain ⟨hfree₀, previous₀, hfirst⟩ := forall_generated hc hfree hok hm (i := 0) (by omega)
    obtain ⟨hfree₁, previous₁, hsecond⟩ := forall_generated hc hfree hok hm (i := 1) (by omega)
    rcases hfirst.settled_or hc hvalid hfree₀ with hsettled | ⟨hload, -⟩
    · rwa [(hsecond.of_settled hfree₁.tree hsettled).1]
    · -- the second generation has found the list of the first, which has the same files
      obtain rfl := Except.ok.inj (hsecond.load.symm.trans hload)
      refine (hsecond.settled_or hc hvalid hfree₁).resolve_right fun ⟨_, hstale, _⟩ => ?_
      exact hstale (stale_listAfter_digests c m)
  | succ i hle ih =>
    have hsettled := ih (Nat.le_of_succ_le hi)
    obtain ⟨hfree', previous, hgenerated⟩ :=
      forall_generated hc hfree hok hm (i := i) (Nat.le_of_succ_le hi)
    rwa [(hgenerated.of_settled hfree'.tree hsettled).1]

/-- What generations report, one after another, that write to these files, the last of which is the
list, if the list of the first has these stale files. -/
structure Settles (c : Context) (d : Disk) (n : Nat) (files : List Path) (stale : List String) :
    Prop where
  /-- Each of them reports every file once. -/
  paths : ∀ i ≤ n, (c.report d i).map (·.path) = files
  /-- The second one leaves all sources as they are, and the list if it has no stale files. -/
  second : 1 ≤ n → ∀ record ∈ c.report d 1, record.status = .unchanged ∨
    files.getLast? = some record.path ∧ stale ≠ []
  /-- All others leave everything as it is. -/
  later : ∀ i ≤ n, 2 ≤ i → (∀ record ∈ c.report d i, record.status = .unchanged) ∧
    c.diskAfter d (i + 1) = c.diskAfter d i

/-- **What repeated generations write.** Whatever is in a workspace without links, and whatever list
is found there: if generations succeed one after another, with resources that are told apart by the
words of their names, then the second one writes nothing but the list, and this only if the list of
the first has stale files; and all others write nothing. -/
theorem generations_settle : ∃ (previous : PreviousFiles) (r : RunResult) (t : Session Unit)
    (others : List QueuedWrite) (list : Core.Manifest) (files : List Path),
    c.Runs (sessionOn d).world previous r t ∧
      r.writes = others ++ [⟨c.listed, list.text.toUTF8, "builder.manifest"⟩] ∧
      list.stale = previous.stale list.files.keys ∧
      targets d c.workspace r.writes = .ok files ∧ files.Nodup ∧
      c.Settles d n files list.stale := by
  obtain ⟨text, htext⟩ := hok 0 (Nat.zero_le n)
  have hrun : c.generate false (sessionOn d) = (.ok text, (c.generation d 0).2) :=
    Prod.ext htext rfl
  obtain ⟨hvalid, m, previous, r, t, hm, hruns, hwrites, htargets, hfirst⟩ :=
    exists_generated hc hfree hrun
  have hfiles : ∀ found, (c.placed B m found).map (·.1.path) =
      ((c.drafted m).plan.entries.map fun e => B.target ⟨e.path⟩).map Place.path := by
    intro found
    rw [← place_placed c B m found, List.map_map]
    rfl
  have hpaths : ∀ i ≤ n, (c.report d i).map (·.path) = (c.placed B m previous).map (·.1.path) := by
    intro i hi
    obtain ⟨hfree', found, hgenerated⟩ := forall_generated hc hfree hok hm hi
    rw [(hgenerated.wrote hfree'.tree).2, hfiles, hfiles]
  have hnodup : ((c.placed B m previous).map (·.1.path)).Nodup :=
    List.pairwise_map.mpr <| hfirst.orderly.apart.imp_of_mem fun ht hu hapart heq =>
      hapart.1 (Place.path_inj (hfirst.orderly.plain _ ht).2.1 (hfirst.orderly.plain _ hu).2.1 heq)
  refine ⟨previous, r, t, _, c.listAfter m previous, _, hruns, hwrites, rfl, htargets, hnodup,
    hpaths, fun hn record hrecord => ?_, fun i hi hle => ?_⟩
  · obtain ⟨hfree₁, found, hsecond⟩ := forall_generated hc hfree hok hm hn
    rcases hfirst.settled_or hc hvalid hfree with hsettled | ⟨-, hstale, -⟩
    · exact .inl ((hsecond.of_settled hfree₁.tree hsettled).2 record hrecord)
    · rw [← hpaths 1 hn]
      have hsources : ∀ t ∈ B.placed (Core.sourceWrites (c.drafted m)),
          (c.diskAfter d 1).Holds t.1 t.2 :=
        fun t ht => (hfirst.wrote hfree.tree).1.holds t (sources_subset c B m previous ht)
      exact (hsecond.of_holds_sources hfree₁.tree hsources record hrecord).imp_right
        fun hlast => ⟨hlast, hstale⟩
  · obtain ⟨hfree', found, hgenerated⟩ := forall_generated hc hfree hok hm hi
    obtain ⟨hdisk, hunchanged⟩ :=
      hgenerated.of_settled hfree'.tree (settled_of_le hc hfree hok hvalid hm hle hi)
    exact ⟨hunchanged, hdisk⟩

end Repetition

/-! ## A workspace with an old list -/

/-- The workspace of a project with one resource. -/
def library : Context where
  workspace := Place.path ["w"]
  settings := { Settings.usual with project :=
    ⟨"demo", "0.1.0", [⟨"books", "/books", none⟩], .empty⟩ }
  sourcePath := ⟨"/w/genpipe.toml"⟩

theorem regular_library : library.Regular ["w"] where
  workspace := rfl
  named := by decide
  composed := by decide
  wet := rfl
  separate := by decide +kernel

/-- The identity of its project. -/
def demo : Meta := ⟨"demo", "demo", "0.1.0", "genpipe.toml", "/w/genpipe.toml"⟩

theorem identity_library : Core.identity (library.options .none) "ir.meta.core" = .ok demo := by
  have htitle : Core.usedTitle (library.options .none) = "demo" := by decide +kernel
  have hslug : Text.slug "demo" = "demo" := by decide +kernel
  have horigin : (library.options .none).origin = "genpipe.toml" := by decide +kernel
  rw [Core.identity_of_speakable (by decide +kernel), htitle, hslug, horigin]
  rfl

/-- The list of a run that has produced a file for a resource of which nothing is left. -/
def oldList : Core.Manifest :=
  ⟨"demo", "", SortedMap.empty.insert "generated/ts/films.ts" "", []⟩

/-- A workspace in which this list is found. -/
def usedRoom : Disk :=
  ⟨[(["w"], .dir), (["w", "generated"], .dir),
    (["w", "generated", "manifest.json"], .file oldList.text.toUTF8)], []⟩

theorem linkFree_usedRoom : usedRoom.LinkFree ["w"] :=
  Disk.linkFree_of_entries
    (Disk.isTree_of_entries (by simp [usedRoom, Disk.lookup, List.lookup_cons]))
    (usedRoom.opens_nil.concat rfl) (by simp [usedRoom])

theorem load_usedRoom : PreviousFiles.load usedRoom library.manifest = .ok ⟨oldList.files⟩ := by
  have hplace : Place.Named ["w", "generated", "manifest.json"] := by decide
  have hmanifest : library.manifest = Place.path ["w", "generated", "manifest.json"] := by
    decide +kernel
  refine PreviousFiles.load_of_locate (F := ["w", "generated", "manifest.json"]) ?_
  rw [hmanifest]
  exact Disk.locate_of_walks hplace ⟨by decide, by decide, by decide⟩
    (.enter (by decide) rfl (.enter (by decide) rfl (.file (by decide) rfl)))

/-- The sources are new, and after them the list can be replaced. -/
theorem exists_generate_usedRoom : ∃ text s,
    library.generate false (sessionOn usedRoom) = (.ok text, s) := by
  have hok : ((diskWriter false).writeAll
      (Place.placed ["w"] (Core.sourceWrites (library.drafted demo))).onPaths
      (sessionOn usedRoom).world).1.isOk = true := by
    decide +kernel
  rcases hsources : (diskWriter false).writeAll
    (Place.placed ["w"] (Core.sourceWrites (library.drafted demo))).onPaths
    (sessionOn usedRoom).world with ⟨f | rs, v⟩
  · rw [hsources] at hok
    cases hok
  obtain rfl : ((diskWriter false).writeAll
      (Place.placed ["w"] (Core.sourceWrites (library.drafted demo))).onPaths
      (sessionOn usedRoom).world).2 = v := congrArg Prod.snd hsources
  have hlist : Place.target ["w"] library.listed = ["w", "generated", "manifest.json"] := by
    decide +kernel
  refine regular_library.exists_generate_of_ready (by decide +kernel) identity_library
    linkFree_usedRoom load_usedRoom hsources ?_
  rw [hlist]
  refine ⟨?_, Option.isNone_iff_eq_none.mp (by decide +kernel),
    ⟨⟨by decide, by decide, by decide⟩, by decide⟩, ⟨⟨by decide, by decide, by decide⟩, by decide⟩⟩
  simp only [← Disk.files_eq_some_iff]
  exact Option.isSome_iff_exists.mp (by decide +kernel)

/-- The first list names the file that is left, the second generation can have to write another one,
and the third leaves everything as it is. -/
theorem generations_settle_usedRoom : library.Regular ["w"] ∧ usedRoom.LinkFree ["w"] ∧
    (∀ i ≤ 2, ∃ text, (library.generation usedRoom i).1 = .ok text) ∧
      ∃ files, library.Settles usedRoom 2 files ["generated/ts/films.ts"] := by
  obtain ⟨text, s, hrun⟩ := exists_generate_usedRoom
  have hok : ∀ i ≤ 2, ∃ text, (library.generation usedRoom i).1 = .ok text :=
    fun i _ => exists_generation regular_library linkFree_usedRoom ⟨text, congrArg Prod.fst hrun⟩ i
  obtain ⟨previous, r, t, others, list, files, hruns, hwrites, hstale, -, -, hsettles⟩ :=
    generations_settle regular_library linkFree_usedRoom hok
  obtain rfl := Except.ok.inj (hruns.load.symm.trans load_usedRoom)
  -- what is queued last is the list of this generation
  obtain ⟨m, hm, hqueue⟩ := hruns.exists_queue_eq
  obtain rfl := Except.ok.inj (hm.symm.trans identity_library)
  rw [queue] at hqueue
  obtain ⟨-, hlast⟩ := List.append_inj' (hwrites.symm.trans hqueue) (by simp)
  have htext : list.text.toUTF8 = (library.listAfter demo ⟨oldList.files⟩).text.toUTF8 :=
    congrArg QueuedWrite.contents (List.singleton_inj.mp hlast)
  have hfiles : list.files = Core.digests (library.drafted demo) :=
    Core.files_eq_of_text_eq (String.toByteArray_inj.mp htext)
  have hfound : list.stale = ["generated/ts/films.ts"] := by
    rw [hstale, hfiles]
    decide +kernel
  exact ⟨regular_library, linkFree_usedRoom, hok, files, hfound ▸ hsettles⟩

/-! ## A new workspace -/

/-- A directory with nothing in it. -/
def newRoom : Disk := ⟨[(["w"], .dir)], []⟩

theorem linkFree_newRoom : newRoom.LinkFree ["w"] :=
  Disk.linkFree_of_entries
    (Disk.isTree_of_entries (by simp [newRoom, Disk.lookup, List.lookup_cons]))
    (newRoom.opens_nil.concat rfl) (by simp [newRoom])

theorem load_newRoom : PreviousFiles.load newRoom library.manifest = .ok .none := by
  have hmissing : newRoom.exists_ library.manifest = false := by decide +kernel
  rw [PreviousFiles.load, hmissing, if_neg Bool.false_ne_true]

theorem exists_generate_newRoom : ∃ text s,
    library.generate false (sessionOn newRoom) = (.ok text, s) := by
  have hok : ((diskWriter false).writeAll (library.placed ["w"] demo .none).onPaths
      (sessionOn newRoom).world).1.isOk = true := by
    decide +kernel
  rcases hwrites : (diskWriter false).writeAll (library.placed ["w"] demo .none).onPaths
    (sessionOn newRoom).world with ⟨f | rs, v⟩
  · rw [hwrites] at hok
    cases hok
  · exact regular_library.exists_generate (by decide +kernel) identity_library linkFree_newRoom
      load_newRoom hwrites

end CommandLine.Context

end StagedCodegen
