import StagedCodegen.Proofs.Core.Plan
import StagedCodegen.Proofs.Json.RoundTrip

/-!
# The list of what was generated

The builder of the list renders everything a second time instead of looking at what was queued. That
both agree rests on the plan alone: files at the same place are of the same kind, and those of one
kind are queued in the order of the plan. So the list that a run leaves, read as the next run reads
it, is the account of what the run has queued.

Main statement: `manifest_accounts`.
-/

namespace StagedCodegen.Core

open StagedCodegen.Representation

variable {κ : Type} {o : RunOptions} {d : Data} {e : PlannedArtifact}
  {es : List PlannedArtifact} {builder : String}

/-! ## Sources -/

/-- The source of a planned file, if it has one. -/
def source? (d : Data) (e : PlannedArtifact) : Option String :=
  match e.kind with
  | .phpController => (e.resource.bind d.resource?).map (phpController d)
  | .tsClient => (e.resource.bind d.resource?).map (tsClient d)
  | .manifest => none

/-- The sources of planned files, each with its path. -/
def sources (d : Data) (es : List PlannedArtifact) : List (String × String) :=
  es.filterMap fun e => (source? d e).map (e.path, ·)

/-- Every planned file has a source, the list of what was generated aside. -/
def Sourced (d : Data) (es : List PlannedArtifact) : Prop :=
  ∀ e ∈ es, e.kind ≠ .manifest → ∃ source, source? d e = some source

theorem plannedResource_eq_ok {r : Resource} (h : plannedResource d e builder = .ok r) :
    e.resource.bind d.resource? = some r := by
  unfold plannedResource at h
  split at h
  · next hr => rw [hr, Except.ok.inj h]
  · cases h

/-- What is rendered is the source, whoever renders it. -/
theorem renderPlanned_eq_ok {s : Option String} (h : renderPlanned d e builder = .ok s) :
    source? d e = s ∧ (e.kind ≠ .manifest → ∃ source, s = some source) := by
  unfold renderPlanned at h
  rw [source?]
  cases hkind : e.kind with
  | manifest =>
    rw [hkind] at h
    exact ⟨Except.ok.inj h, fun hne => absurd rfl hne⟩
  | phpController | tsClient =>
    rw [hkind] at h
    rcases hr : plannedResource d e builder with f | r
    · rw [hr] at h
      cases h
    · rw [hr] at h
      cases h
      exact ⟨by simp only [plannedResource_eq_ok hr, Option.map_some], fun _ => ⟨_, rfl⟩⟩

theorem sources_cons (d : Data) (e : PlannedArtifact) (es : List PlannedArtifact) :
    sources d (e :: es) = ((source? d e).map (e.path, ·)).toList ++ sources d es := by
  rw [sources, List.filterMap_cons]
  cases source? d e <;> rfl

/-! ## The queue -/

/-- The write that the builder of this key queues for a source. -/
def queued (builder : String) (s : String × String) : QueuedWrite := ⟨⟨s.1⟩, s.2.toUTF8, builder⟩

theorem run_queueSources {w : World κ} {queue : List QueuedWrite} {t : World κ × List QueuedWrite}
    (h : Program.run (I := builderInterface κ) (serveBuilder builder)
      (queueSources d builder es).run (w, queue) = (.ok (), t)) :
    t = (w, queue ++ (sources d es).map (queued builder)) := by
  induction es generalizing queue with
  | nil =>
    cases h
    simp [sources]
  | cons e es ih =>
    rw [queueSources] at h
    have hbind := (Program.run_bindExcept (I := builderInterface κ) _ _ _ _).symm.trans h
    rcases hrender : renderPlanned d e builder with f | source
    · simp only [hrender] at hbind
      cases hbind
    · obtain ⟨hsource, -⟩ := renderPlanned_eq_ok hrender
      rw [sources_cons, hsource]
      simp only [hrender] at hbind
      rcases source with _ | source
      · exact ih hbind
      · have hrest := ih hbind
        rw [hrest]
        simp [queued]

/-- What a builder of sources queues are the sources of its kind, in the order of the plan. -/
theorem queue_of_sourcesBuilder {kind : ArtifactKind} {a : Artifact} {entry : BuilderEntry}
    {queue queue' : List QueuedWrite} {w w' : World κ}
    (h : BuilderEnds o a (entry, sourcesBuilder kind) (w, queue) (.ok ()) (w', queue')) :
    queue' = queue ++ (sources a.data (a.data.plan.ofKind kind)).map (queued entry.key) :=
  congrArg Prod.snd (run_queueSources (builderEnds_iff.1 h))

/-- The digests are those of the sources in the order of the plan. -/
theorem sourceHashes_eq_ok {files files' : SortedMap String}
    (h : sourceHashes d builder es files = .ok files') : Sourced d es ∧
      files' = (sources d es).foldl (fun m s => m.insert s.1 (contentHash s.2.toUTF8)) files := by
  induction es generalizing files with
  | nil => exact ⟨fun _ h => absurd h List.not_mem_nil, (Except.ok.inj h).symm⟩
  | cons e es ih =>
    rw [sourceHashes] at h
    rcases hrender : renderPlanned d e builder with f | source
    · rw [hrender] at h
      cases h
    · obtain ⟨hsource, hsome⟩ := renderPlanned_eq_ok hrender
      rw [hrender] at h
      rw [sources_cons, hsource]
      rcases source with _ | source
      · obtain ⟨hsourced, hfiles⟩ := ih h
        refine ⟨List.forall_mem_cons.2 ⟨fun hne => ?_, hsourced⟩, hfiles⟩
        obtain ⟨source, hsource⟩ := hsome hne
        cases hsource
      · obtain ⟨hsourced, hfiles⟩ := ih h
        exact ⟨List.forall_mem_cons.2 ⟨fun _ => ⟨source, hsource⟩, hsourced⟩, hfiles⟩

/-- The list that the builder of this key makes of an artifact. -/
def manifestOf (o : RunOptions) (a : Artifact) (files : SortedMap String) : Manifest :=
  ⟨a.data.identity.slug, a.fingerprint, files, o.previous.stale files.keys⟩

/-- The list is queued under its planned path, with the digests of everything that is planned. -/
theorem queue_of_manifestBuilder {a : Artifact} {entry : BuilderEntry}
    {queue queue' : List QueuedWrite} {w w' : World κ} {target : PlannedArtifact}
    (htarget : a.data.plan.ofKind .manifest = [target])
    (h : BuilderEnds o a (entry, manifestBuilder) (w, queue) (.ok ()) (w', queue')) :
    ∃ files, sourceHashes a.data entry.key a.data.plan.entries .empty = .ok files ∧
      queue' = queue ++ [⟨⟨target.path⟩, (manifestOf o a files).text.toUTF8, entry.key⟩] := by
  have hbind := (Program.run_bindExcept (I := builderInterface κ) _ _ _ _).symm.trans
    (builderEnds_iff.1 h)
  rcases hfiles : sourceHashes a.data entry.key a.data.plan.entries .empty with f | files
  · simp only [hfiles] at hbind
    cases hbind
  · refine ⟨files, rfl, ?_⟩
    simp only [hfiles, htarget] at hbind
    -- with a warning or without one, the list is queued
    change Program.run (I := builderInterface κ) _ (ExceptT.run
      (if (o.previous.stale files.keys).isEmpty = true then _ else _)) _ = _ at hbind
    split at hbind <;> cases hbind <;> rfl

/-! ## What was queued last -/

/-- The contents that were queued last for a path. -/
def lastQueued (writes : List QueuedWrite) (path : String) : Option ByteArray :=
  ((writes.filter (·.path = ⟨path⟩)).getLast?).map (·.contents)

theorem filter_queued (builder path : String) (xs : List (String × String)) :
    (xs.map (queued builder)).filter (·.path = ⟨path⟩) =
      (xs.filter (·.1 = path)).map (queued builder) := by
  rw [List.filter_map]
  congr 1
  refine List.filter_congr fun x _ => ?_
  simp [queued]

/-- The sources for a path are those of the files that are planned there. -/
theorem filter_sources (d : Data) (es : List PlannedArtifact) (path : String) :
    (sources d es).filter (·.1 = path) = sources d (es.filter (·.path = path)) := by
  induction es with
  | nil => rfl
  | cons e es ih =>
    rw [sources_cons, List.filter_append, ih]
    by_cases he : e.path = path
    · rw [List.filter_cons_of_pos (by simpa using he), sources_cons]
      cases source? d e <;> simp [he]
    · rw [List.filter_cons_of_neg (by simpa using he)]
      cases source? d e <;> simp [he]

/-- Every file that is planned at the path is of this kind. -/
def OfKindAt (p : ArtifactPlan) (kind : ArtifactKind) (path : String) : Prop :=
  ∀ e ∈ p.entries, e.path = path → e.kind = kind

variable {p : ArtifactPlan} {kind kind' : ArtifactKind} {path : String}

/-- The files that are planned at a path are among those of their kind. -/
theorem OfKindAt.filter_eq (h : OfKindAt p kind path) :
    (p.ofKind kind).filter (·.path = path) = p.entries.filter (·.path = path) := by
  rw [ArtifactPlan.ofKind, List.filter_filter]
  refine List.filter_congr fun e he => ?_
  by_cases hpath : e.path = path
  · simp [hpath, h e he hpath]
  · simp [hpath]

/-- No file of another kind is planned there. -/
theorem OfKindAt.filter_eq_nil (h : OfKindAt p kind path) (hkind : kind' ≠ kind) :
    (p.ofKind kind').filter (·.path = path) = [] := by
  refine List.filter_eq_nil_iff.2 fun e he => ?_
  obtain ⟨hmem, hof⟩ := List.mem_filter.1 he
  intro hpath
  exact hkind ((of_decide_eq_true hof).symm.trans (h e hmem (of_decide_eq_true hpath)))

/-- What was queued last for the path of a planned source is the last source that is planned
there. -/
theorem lastQueued_eq (hkind : kind ≠ .manifest) (h : OfKindAt p kind path) (first second : String)
    {manifest : QueuedWrite} (hmanifest : manifest.path ≠ ⟨path⟩) :
    lastQueued ((sources d (p.ofKind .phpController)).map (queued first) ++
        (sources d (p.ofKind .tsClient)).map (queued second) ++ [manifest]) path =
      (((sources d p.entries).filter (·.1 = path)).getLast?).map (·.2.toUTF8) := by
  have hlast : [manifest].filter (·.path = ⟨path⟩) = [] := by simp [hmanifest]
  have hqueued : ∀ builder : String, ∀ xs : List (String × String),
      ((xs.map (queued builder)).getLast?).map (·.contents) = xs.getLast?.map (·.2.toUTF8) := by
    intro builder xs
    rw [List.getLast?_map]
    cases xs.getLast? <;> rfl
  rw [lastQueued, List.filter_append, List.filter_append, hlast, List.append_nil, filter_queued,
    filter_queued, filter_sources, filter_sources, filter_sources]
  cases kind with
  | manifest => exact absurd rfl hkind
  | phpController =>
    rw [h.filter_eq, h.filter_eq_nil (show ArtifactKind.tsClient ≠ .phpController by decide),
      ← hqueued first]
    simp [sources]
  | tsClient =>
    rw [h.filter_eq, h.filter_eq_nil (show ArtifactKind.phpController ≠ .tsClient by decide),
      ← hqueued second]
    simp [sources]

/-! ## Reading the list -/

theorem readable_toJson (m : Manifest) : m.toJson.Readable 128 := by
  have htext : ∀ s : String, (Json.string s).Readable 126 := fun _ => trivial
  have hfiles : (Json.ofMap Json.string m.files).Readable 127 :=
    Json.readable_ofMap (by omega) htext m.files
  have hstale : (Json.strings m.stale).Readable 127 := Json.readable_strings m.stale (by omega)
  have hversion : (Json.int 1).Readable 127 := by
    refine ⟨?_, ?_⟩ <;> decide
  exact ⟨by omega, hversion, trivial, trivial, hfiles, hstale, trivial⟩

/-- The text of a list is read as that list. -/
theorem parse?_text (m : Manifest) : Json.parse? m.text = some m.toJson := by
  have hread := Json.parse?_printIndented (readable_toJson m) ['\n'] (by simp [Json.Parser.isSpace])
  exact hread

/-- The next run reads the files of a list, and passes over everything else. -/
theorem ofJson?_toJson (m : Manifest) : PreviousFiles.ofJson? m.toJson = some ⟨m.files⟩ := by
  have hfields : m.toJson.fields? true ["files"] =
    some [some (Json.ofMap Json.string m.files)] := by
    simp [Manifest.toJson, Json.fields?]
  have hfiles : Json.map? Json.string? (Json.ofMap Json.string m.files) = some m.files :=
    Json.map?_ofMap fun _ _ => rfl
  simp [PreviousFiles.ofJson?, hfields, Json.defaulted, hfiles]

/-- So lists with one text have the same files. -/
theorem files_eq_of_text_eq {m m' : Manifest} (h : m.text = m'.text) : m.files = m'.files := by
  have hjson : m.toJson = m'.toJson :=
    Option.some.inj (by rw [← parse?_text, ← parse?_text, h])
  have hfiles : some (PreviousFiles.mk m.files) = some ⟨m'.files⟩ := by
    rw [← ofJson?_toJson, ← ofJson?_toJson, hjson]
  simpa using hfiles

theorem fromUTF8?_toUTF8 (s : String) : String.fromUTF8? s.toUTF8 = some s := by
  have hvalid : s.toUTF8.IsValidUTF8 := s.isValidUTF8
  rw [String.fromUTF8?, dif_pos hvalid]
  rfl

theorem member?_stale (m : Manifest) : m.toJson.member? "stale" = some (Json.strings m.stale) := by
  simp [Manifest.toJson, Json.member?]

/-! ## The account -/

/-- The list of a run accounts for what the run has queued and for what the run before has left. -/
structure Accounts (o : RunOptions) (a : Artifact) (writes : List QueuedWrite)
    (next : PreviousFiles) (stale : List String) : Prop where
  keys : ∀ path, path ∈ next.files.keys ↔
    ∃ e ∈ a.data.plan.entries, e.kind ≠ .manifest ∧ e.path = path
  digests : ∀ path ∈ next.files.keys, ∃ contents, lastQueued writes path = some contents ∧
    next.files.get? path = some (contentHash contents)
  ascending : stale.Pairwise (· < ·)
  mem_stale : ∀ path, path ∈ stale ↔ path ∈ o.previous.files.keys ∧ path ∉ next.files.keys
  once : ∀ path ∈ o.previous.files.keys, Xor (path ∈ next.files.keys) (path ∈ stale)

theorem mem_stale_iff {previous : PreviousFiles} {current : List String} {path : String} :
    path ∈ previous.stale current ↔ path ∈ previous.files.keys ∧ path ∉ current := by
  simp [PreviousFiles.stale]

/-- A file is planned at the path of a source. -/
theorem exists_source_iff (hsourced : Sourced d es) {path : String} :
    (∃ s, ((sources d es).filter (·.1 = path)).getLast? = some s) ↔
      ∃ e ∈ es, e.kind ≠ .manifest ∧ e.path = path := by
  simp only [sources]
  constructor
  · rintro ⟨s, hs⟩
    obtain ⟨hmem, hpath⟩ := List.mem_filter.1 (List.mem_of_getLast? hs)
    obtain ⟨e, he, hsource⟩ := List.mem_filterMap.1 hmem
    obtain ⟨source, hsource, rfl⟩ := Option.map_eq_some_iff.1 hsource
    refine ⟨e, he, fun hkind => ?_, of_decide_eq_true hpath⟩
    simp [source?, hkind] at hsource
  · rintro ⟨e, he, hkind, hpath⟩
    obtain ⟨source, hsource⟩ := hsourced e he hkind
    have hmem : (e.path, source) ∈ sources d es :=
      List.mem_filterMap.2 ⟨e, he, by rw [hsource, Option.map_some]⟩
    have hne : (sources d es).filter (·.1 = path) ≠ [] :=
      List.ne_nil_of_mem (List.mem_filter.2 ⟨hmem, decide_eq_true hpath⟩)
    exact Option.ne_none_iff_exists'.1 (mt List.getLast?_eq_none_iff.1 hne)

/-- What the three builders of the core queue, one after another. -/
theorem exists_queue_of_built {a : Artifact} {q : Pipeline κ} (hq : q.registry = registry)
    {target : PlannedArtifact} (htarget : a.data.plan.ofKind .manifest = [target])
    {writes : List QueuedWrite} {t u : Session κ}
    (h : InTurn (BuilderSucceeds o a q.registry.builders)
      (Schedule.builders q.registry.builderEntries) ([], t) (writes, u)) :
    ∃ files, sourceHashes a.data "builder.manifest" a.data.plan.entries .empty = .ok files ∧
      writes = (sources a.data (a.data.plan.ofKind .phpController)).map
          (queued "builder.php.controllers") ++
        (sources a.data (a.data.plan.ofKind .tsClient)).map (queued "builder.ts.clients") ++
        [⟨⟨target.path⟩, (manifestOf o a files).text.toUTF8, "builder.manifest"⟩] := by
  rw [hq, builders_registry] at h
  rcases h with _ | ⟨⟨php, _, _, hphp, hcontrollers, rfl⟩, h⟩
  rcases h with _ | ⟨⟨ts, _, _, hts, hclients, rfl⟩, h⟩
  rcases h with _ | ⟨⟨list, _, _, hlist, hmanifest, rfl⟩, h⟩
  cases h
  cases hphp
  cases hts
  cases hlist
  obtain ⟨files, hfiles, hwrites⟩ := queue_of_manifestBuilder htarget hmanifest
  refine ⟨files, hfiles, ?_⟩
  rw [hwrites, queue_of_sourcesBuilder hclients, queue_of_sourcesBuilder hcontrollers,
    List.nil_append]

/-- What a run of the core helpers queues, whatever extensions take part that keep the plan. -/
theorem exists_queue_of_run {q : Pipeline κ} (hq : q.registry = registry)
    (hkeep : ∀ e ∈ q.extensions, e.KeepsPlan) {w : World κ} {r : RunResult} {s : Session κ}
    (hrun : q.run o w = (.ok r, s)) : ∃ names files,
      r.artifact.data.plan = plan (layout o.settings.output) names ∧
      sourceHashes r.artifact.data "builder.manifest" r.artifact.data.plan.entries .empty =
        .ok files ∧
      r.writes = (sources r.artifact.data (r.artifact.data.plan.ofKind .phpController)).map
          (queued "builder.php.controllers") ++
        (sources r.artifact.data (r.artifact.data.plan.ofKind .tsClient)).map
          (queued "builder.ts.clients") ++
        [⟨⟨(plannedManifest (layout o.settings.output)).path⟩,
          (manifestOf o r.artifact files).text.toUTF8, "builder.manifest"⟩] := by
  obtain ⟨ledger, u, hprepared⟩ := Pipeline.prepares_of_run hrun
  obtain ⟨names, hplan⟩ := exists_plan_of_prepares hq hkeep hprepared
  obtain ⟨-, -, -, t, -, -, hbuilt⟩ := hprepared
  obtain ⟨files, hfiles, hwrites⟩ :=
    exists_queue_of_built hq (hplan ▸ ofKind_manifest _ names) hbuilt
  exact ⟨names, files, hplan, hfiles, hwrites⟩

/-- The digest that is listed for a path is that of the last source that is planned there. -/
theorem get?_of_sourceHashes {files : SortedMap String}
    (h : sourceHashes d builder es .empty = .ok files) (path : String) :
    files.get? path = (((sources d es).filter (·.1 = path)).getLast?).map
      fun s => contentHash s.2.toUTF8 := by
  obtain ⟨-, rfl⟩ := sourceHashes_eq_ok h
  rw [SortedMap.get?_foldl_insert (fun s : String => contentHash s.toUTF8)]
  simp

/-- Digests are listed for the paths of the planned sources. -/
theorem mem_keys_of_sourceHashes {files : SortedMap String}
    (h : sourceHashes d builder es .empty = .ok files) (path : String) :
    path ∈ files.keys ↔ ∃ e ∈ es, e.kind ≠ .manifest ∧ e.path = path := by
  obtain ⟨hsourced, -⟩ := sourceHashes_eq_ok h
  rw [SortedMap.mem_keys_iff, ← exists_source_iff hsourced, get?_of_sourceHashes h]
  simp only [Option.map_eq_some_iff]
  exact ⟨fun ⟨_, s, hs, _⟩ => ⟨s, hs⟩, fun ⟨s, hs⟩ => ⟨_, s, hs, rfl⟩⟩

/-- The list that the core makes of a plan accounts for what the core queues. -/
theorem accounts_of_plan {a : Artifact} {l : Layout} {names : List String}
    (hplan : a.data.plan = plan l names) {files : SortedMap String}
    (hfiles : sourceHashes a.data builder a.data.plan.entries .empty = .ok files)
    (first second : String) {manifest : QueuedWrite}
    (hmanifest : manifest.path = ⟨(plannedManifest l).path⟩) :
    Accounts o a ((sources a.data (a.data.plan.ofKind .phpController)).map (queued first) ++
        (sources a.data (a.data.plan.ofKind .tsClient)).map (queued second) ++ [manifest])
      ⟨files⟩ (o.previous.stale files.keys) := by
  have hkeys := mem_keys_of_sourceHashes hfiles
  refine ⟨hkeys, fun path hpath => ?_, ?_, fun path => mem_stale_iff, fun path hpath => ?_⟩
  · obtain ⟨e, he, hkind, rfl⟩ := (hkeys path).1 hpath
    have hof : OfKindAt a.data.plan e.kind e.path := by
      rw [hplan] at he ⊢
      exact fun e' he' hpath => kind_eq_of_path_eq he' he hpath
    have hother : manifest.path ≠ ⟨e.path⟩ := by
      rw [hmanifest]
      intro hpath
      rw [hplan] at he
      have hlisted : plannedManifest l ∈ (plan l names).entries := mem_plan.2 (.inr (.inr rfl))
      exact hkind (kind_eq_of_path_eq he hlisted (congrArg Path.text hpath).symm)
    obtain ⟨s, hs⟩ := (exists_source_iff (sourceHashes_eq_ok hfiles).1).2 ⟨e, he, hkind, rfl⟩
    rw [lastQueued_eq hkind hof first second hother, get?_of_sourceHashes hfiles]
    exact ⟨s.2.toUTF8, by rw [hs, Option.map_some], by rw [hs, Option.map_some]⟩
  · exact o.previous.files.keys_sorted.sublist List.filter_sublist
  · rw [mem_stale_iff]
    by_cases hlisted : path ∈ files.keys
    · exact .inl ⟨hlisted, fun h => h.2 hlisted⟩
    · exact .inr ⟨⟨hpath, hlisted⟩, hlisted⟩

/-- The list of what was generated is queued last. The next run reads its bytes as files and passes
over its stale files, and it accounts for the run. -/
def Accounted (o : RunOptions) (r : RunResult) : Prop :=
  ∃ others manifest text listed next stale,
    (r.writes = others ++ [manifest] ∧ manifest.origin = "builder.manifest" ∧
      ∀ write ∈ others, write.origin ≠ "builder.manifest") ∧
    (String.fromUTF8? manifest.contents = some text ∧ Json.parse? text = some listed ∧
      PreviousFiles.ofJson? listed = some next ∧
      listed.member? "stale" = some (Json.strings stale)) ∧
    Accounts o r.artifact r.writes next stale

/-- **The list accounts for the run.** Whenever a run of the core helpers succeeds, whatever
extensions take part that keep the plan, the list of what was generated is queued last. Its bytes
are read by the next run as files whose paths are just those of the planned controllers and clients,
each with the digest of the contents that were queued for it last; and its stale files are those of
the run before that are not among them, in ascending order. -/
theorem manifest_accounts {p q : Pipeline κ} {w : World κ} {r : RunResult} {s : Session κ}
    (hempty : p.registry = .empty) (hcore : registerAll p = (.ok (), q))
    (hkeep : ∀ e ∈ p.extensions, e.KeepsPlan) (hrun : q.run o w = (.ok r, s)) :
    Accounted o r := by
  have hq : q.registry = registry ∧ q.extensions = p.extensions := by
    rw [← (Prod.mk.inj ((registerAll_eq hempty).symm.trans hcore)).2]
    exact ⟨rfl, rfl⟩
  obtain ⟨ledger, u, hprepared⟩ := Pipeline.prepares_of_run hrun
  obtain ⟨names, hplan⟩ := exists_plan_of_prepares hq.1 (hq.2 ▸ hkeep) hprepared
  obtain ⟨-, -, -, t, -, -, hbuilt⟩ := hprepared
  obtain ⟨files, hfiles, hwrites⟩ :=
    exists_queue_of_built hq.1 (hplan ▸ ofKind_manifest _ names) hbuilt
  refine ⟨_, _, (manifestOf o r.artifact files).text, (manifestOf o r.artifact files).toJson,
    ⟨files⟩, o.previous.stale files.keys, ⟨hwrites, rfl, ?_⟩,
    ⟨fromUTF8?_toUTF8 _, parse?_text _, ofJson?_toJson _, member?_stale _⟩, ?_⟩
  · simp only [List.mem_append, List.mem_map]
    rintro _ (⟨s, -, rfl⟩ | ⟨s, -, rfl⟩) <;> simp [queued]
  · rw [hwrites]
    exact accounts_of_plan hplan hfiles _ _ rfl

/-- The files of two resources go to the same places, and the run before has left two files, one of
which is produced no longer. -/
def sharing : RunOptions where
  phase := "generate"
  settings := { Settings.usual with
    project := ⟨"demo", "0.1.0", [⟨"books", "/books", none⟩, ⟨"Books", "/all", none⟩], .empty⟩ }
  title := "demo"
  origin := "genpipe.toml"
  sourcePath := ⟨"/genpipe.toml"⟩
  workspace := ⟨"/"⟩
  scope := "genpipe"
  previous := ⟨.ofList [("generated/ts/books.ts", ""), ("generated/ts/films.ts", "")]⟩

/-- The core helpers alone. -/
def alone : Pipeline Unit := ⟨registry, [], usualFamilies⟩

theorem exists_run_sharing : ∃ r s, alone.run sharing ⟨⟨[], []⟩, [], [], ()⟩ = (.ok r, s) := by
  have hfragments : ∀ s : Session Unit, runFragments registry usualFamilies sharing s = _ :=
    fun s => runFragments_of_schedule schedule_registry
  have hok : (alone.run sharing ⟨⟨[], []⟩, [], [], ()⟩).1.isOk = true := by
    simp only [alone, Pipeline.run, Pipeline.stages, Attempt.bind_apply, hfragments,
      Pipeline.finish, runBuilders, builders_registry]
    decide +kernel
  rcases hrun : alone.run sharing ⟨⟨[], []⟩, [], [], ()⟩ with ⟨f | r, s⟩
  · rw [hrun] at hok
    exact absurd hok (by simp [Except.isOk, Except.toBool])
  · exact ⟨r, s, rfl⟩

theorem manifest_accounts_sharing : ∃ r s,
    (.new : Pipeline Unit).registry = .empty ∧
      registerAll (.new : Pipeline Unit) = (.ok (), alone) ∧
      (∀ e ∈ (.new : Pipeline Unit).extensions, e.KeepsPlan) ∧
      alone.run sharing ⟨⟨[], []⟩, [], [], ()⟩ = (.ok r, s) ∧ Accounted sharing r := by
  obtain ⟨r, s, hrun⟩ := exists_run_sharing
  have hcore : registerAll (.new : Pipeline Unit) = (.ok (), alone) := registerAll_eq rfl
  have hkeep : ∀ e ∈ (.new : Pipeline Unit).extensions, e.KeepsPlan :=
    fun e he => absurd he List.not_mem_nil
  exact ⟨r, s, rfl, hcore, hkeep, hrun, manifest_accounts rfl hcore hkeep hrun⟩

end StagedCodegen.Core
