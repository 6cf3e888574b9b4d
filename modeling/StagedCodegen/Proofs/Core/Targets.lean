import StagedCodegen.Proofs.Core.Paths
import StagedCodegen.Proofs.Core.Success
import StagedCodegen.Proofs.Disk.Spelling
import StagedCodegen.Proofs.Writes.Held

/-!
# Where planned files go

What is queued goes to the paths of the plan, in its order (`Core.path_sourceWrites`). The place of
a planned file ends in its name, which is composed (`Core.exists_target_eq`). So planned files with
names of their own go to places of their own, and none of them is made by way of another
(`Core.pairwise_target`).
-/

namespace StagedCodegen

open StagedCodegen.Representation

open StagedCodegen.Path (Component moves)

namespace Path

/-- Slashes at the beginning of a path go nowhere. -/
theorem pieceComponents_dropWhile (cs : List Char) :
    pieceComponents (Text.split '/' (cs.dropWhile (· == '/'))) =
      pieceComponents (Text.split '/' cs) := by
  induction cs with
  | nil => rfl
  | cons c cs ih =>
    by_cases hc : c = '/'
    · subst hc
      rw [List.dropWhile_cons_of_pos (by simp), ih, Text.split, if_pos rfl]
      rfl
    · rw [List.dropWhile_cons_of_neg (by simpa using hc)]

theorem isAbsolute_slash {a : String} (ha : a.toList ≠ []) (b : String) :
    isAbsolute ⟨a ++ "/" ++ b⟩ = isAbsolute ⟨a⟩ := by
  rw [isAbsolute, isAbsolute, String.toList_append, String.toList_append, List.append_assoc,
    List.head?_append_of_ne_nil _ ha]

end Path

namespace Settings

/-- A directory without problems is named from the workspace on, and does not go up anywhere. -/
theorem of_directoryProblem? {dir : String} (h : directoryProblem? dir = none) :
    (Path.mk dir).isAbsolute = false ∧ dir.toList ≠ [] ∧ .up ∉ (Path.mk dir).components := by
  unfold directoryProblem? at h
  split at h
  · cases h
  · next hblank =>
    split at h
    · cases h
    · next hrelative =>
      split at h
      · cases h
      · next hup =>
        refine ⟨Bool.eq_false_iff.mpr hrelative, fun hnil => hblank ?_, hup⟩
        rw [Text.isBlankText, hnil]
        rfl

end Settings

namespace Core

variable {κ : Type} {o : RunOptions} {d : Data} {es : List PlannedArtifact} {l : Layout}
  {names : List String} {e e' : PlannedArtifact} {s : String}

/-! ## The queue -/

/-- The writes of the planned sources: all controllers, then all clients. -/
def sourceWrites (d : Data) : List QueuedWrite :=
  (sources d (d.plan.ofKind .phpController)).map (queued "builder.php.controllers") ++
    (sources d (d.plan.ofKind .tsClient)).map (queued "builder.ts.clients")

/-- The digests of the planned sources, each for its path. -/
def digests (d : Data) : SortedMap String :=
  (sources d d.plan.entries).foldl (fun files s => files.insert s.1 (contentHash s.2.toUTF8)) .empty

/-- The list of what was generated, as it is queued. -/
def manifestWrite (o : RunOptions) (a : Artifact) (l : Layout) : QueuedWrite :=
  ⟨⟨(plannedManifest l).path⟩, (manifestOf o a (digests a.data)).text.toUTF8, "builder.manifest"⟩

/-- What is built from what was drafted: the sources, and then the list. -/
theorem exists_writes_of_built {q : Pipeline κ} (hq : q.registry = registry)
    {families : List String} {a : Artifact} {s s' t u : Session κ} {writes : List QueuedWrite}
    (hdraft : runFragments q.registry families o s = (.ok a, s'))
    (hbuilt : InTurn (BuilderSucceeds o a q.registry.builders)
      (Schedule.builders q.registry.builderEntries) ([], t) (writes, u)) :
    ∃ m, identity o "ir.meta.core" = .ok m ∧ a = ⟨dataOf o m, 0, .empty⟩ ∧
      writes = sourceWrites (dataOf o m) ++ [manifestWrite o a (layout o.settings.output)] := by
  obtain ⟨m, hm, rfl⟩ := exists_identity_of_runFragments (hq ▸ hdraft)
  obtain ⟨files, hfiles, hwrites⟩ := exists_queue_of_built hq (ofKind_manifest _ _) hbuilt
  obtain ⟨-, rfl⟩ := sourceHashes_eq_ok hfiles
  exact ⟨m, hm, rfl, hwrites⟩

theorem path_sources (hsourced : Sourced d es) (hkind : ∀ e ∈ es, e.kind ≠ .manifest) :
    (sources d es).map (·.1) = es.map (·.path) := by
  induction es with
  | nil => rfl
  | cons e es ih =>
    obtain ⟨he, hes⟩ := List.forall_mem_cons.mp hsourced
    obtain ⟨hne, hkind⟩ := List.forall_mem_cons.mp hkind
    obtain ⟨source, hsource⟩ := he hne
    rw [sources_cons, hsource, List.map_append, ih hes hkind]
    rfl

/-- What is queued goes to the paths of the plan, in its order. -/
theorem path_sourceWrites (hplan : d.plan = plan l names) (hsourced : Sourced d d.plan.entries) :
    (sourceWrites d).map (·.path.text) ++ [(plannedManifest l).path] =
      d.plan.entries.map (·.path) := by
  have hcontrollers : d.plan.ofKind .phpController = names.map (plannedController l) :=
    hplan ▸ ofKind_phpController l names
  have hclients : d.plan.ofKind .tsClient = names.map (plannedClient l) :=
    hplan ▸ ofKind_tsClient l names
  have hpath : ∀ kind, kind ≠ .manifest →
      (sources d (d.plan.ofKind kind)).map (·.1) = (d.plan.ofKind kind).map (·.path) :=
    fun kind hkind => path_sources (hsourced.ofKind kind) fun e he =>
      of_decide_eq_true (List.mem_filter.mp he).2 ▸ hkind
  have hqueued : ∀ builder (xs : List (String × String)),
      (xs.map (queued builder)).map (·.path.text) = xs.map (·.1) := by
    intro builder xs
    rw [List.map_map]
    rfl
  rw [sourceWrites, List.map_append, hqueued, hqueued, hpath .phpController (by decide),
    hpath .tsClient (by decide), hcontrollers, hclients, hplan, plan, List.map_append,
    List.map_append]
  rfl

/-! ## Names -/

theorem toNat_lt_of_isWordChar {c : Char} (h : Text.isWordChar c = true) : c.toNat < 0xc0 := by
  simp only [Text.isWordChar, Char.isAlphanum, Char.isAlpha, Char.isUpper, Char.isLower,
    Char.isDigit, Bool.or_eq_true, Bool.and_eq_true, decide_eq_true_eq, UInt32.le_iff_toNat_le,
    ge_iff_le] at h
  have hc : c.toNat = c.val.toNat := rfl
  have hZ : 'Z'.val.toNat = 90 := rfl
  have hz : 'z'.val.toNat = 122 := rfl
  have h9 : '9'.val.toNat = 57 := rfl
  omega

theorem compose_fileName (e : PlannedArtifact) : Text.compose (fileName e) = fileName e := by
  have hwords : ∀ {s ending : String}, (∀ c ∈ s.toList, Text.isWordChar c = true) →
      (∀ c ∈ ending.toList, c.toNat < 0xc0) → ∀ c ∈ (s ++ ending).toList, c.toNat < 0xc0 := by
    intro s ending hs hending
    rw [String.toList_append]
    exact List.forall_mem_append.mpr ⟨fun c hc => toNat_lt_of_isWordChar (hs c hc), hending⟩
  rw [Text.compose_eq_self_iff]
  refine Text.Composition.composeChars_of_lt ?_
  unfold fileName
  split
  · exact hwords Text.isWordChar_of_mem_pascalCase (by simp)
  · exact hwords Text.isWordChar_of_mem_camelCase (by simp)
  · simp [manifestFile]

/-- No file is made by way of a planned one. -/
theorem fileName_ne_temporaryName (e : PlannedArtifact) (s : String) :
    fileName e ≠ temporaryName s := by
  intro heq
  have htmp : ".tmp".toList <:+ (temporaryName s).toList :=
    suffix_of_append ⟨".genpipe".toList, rfl⟩
  rcases List.suffix_or_suffix_of_suffix (heq ▸ ending_fileName e) htmp with h | h <;>
    revert h <;> cases e.kind <;> decide

/-! ## Places -/

/-- The names of a planned file begin with those of the directory of all output, and end in its
own. -/
theorem exists_place_eq (h : e ∈ (plan l names).entries) :
    ∃ X, Path.place ⟨e.path⟩ = Path.place ⟨l.outputDir⟩ ++ X ++ [fileName e] := by
  obtain ⟨steps, hdirectory⟩ : ∃ steps, directory l e.kind = moves ⟨l.outputDir⟩ ++ steps := by
    cases e.kind with
    | phpController => exact ⟨_, List.append_assoc ..⟩
    | tsClient => exact ⟨_, rfl⟩
    | manifest => exact ⟨[], (List.append_nil _).symm⟩
  refine ⟨steps.filterMap Component.name?, ?_⟩
  rw [Path.place_eq, Path.place_eq, moves_of_mem_plan h, hdirectory, List.filterMap_append,
    List.filterMap_append]
  simp [Component.name?]

/-- The place of a planned file ends in its name. -/
theorem exists_target_eq (B : Place) (h : e ∈ (plan l names).entries) :
    ∃ X, B.target ⟨e.path⟩ = B.target ⟨l.outputDir⟩ ++ X ++ [fileName e] := by
  obtain ⟨X, hplace⟩ := exists_place_eq h
  refine ⟨X.map Text.compose, ?_⟩
  rw [Place.target, hplace, List.map_append, List.map_append, List.map_singleton, compose_fileName,
    Place.target, List.append_assoc, List.append_assoc, List.append_assoc]

/-- Planned files with names of their own go to places of their own, none of which is the neighbour
of another. -/
theorem pairwise_target (B : Place) (h : (names.map Text.pascalCase).Nodup) :
    ((plan l names).entries.map fun e => B.target ⟨e.path⟩).Pairwise Place.Apart := by
  have hnames := (nodup_fileNames_iff (l := l)).mpr h
  rw [List.Nodup, List.pairwise_map] at hnames
  rw [List.pairwise_map]
  refine hnames.imp_of_mem fun {e e'} he he' hne => ?_
  obtain ⟨X, hX⟩ := exists_target_eq B he
  obtain ⟨X', hX'⟩ := exists_target_eq B he'
  have hlast : ∀ {Y Y' : Place} {s s' : String}, Y ++ [s] = Y' ++ [s'] → s = s' :=
    fun heq => List.singleton_inj.mp (List.append_inj' heq rfl).2
  rw [hX, hX']
  refine ⟨fun heq => hne (hlast heq), fun heq => ?_, fun heq => ?_⟩ <;>
    rw [Place.neighbour_concat] at heq
  · exact fileName_ne_temporaryName e (fileName e') (hlast heq)
  · exact fileName_ne_temporaryName e' (fileName e) (hlast heq)

/-! ## Directories -/

theorem moves_dropEndSlashes (s : String) : moves ⟨dropEndSlashes s⟩ = moves ⟨s⟩ := by
  rw [moves, dropEndSlashes, String.toList_ofList, Path.pieceComponents_dropEndWhile]
  rfl

theorem moves_trimSlashes (s : String) : moves ⟨trimSlashes s⟩ = moves ⟨s⟩ := by
  rw [moves, trimSlashes, String.toList_ofList, Text.trimWhile, Path.pieceComponents_dropEndWhile,
    Path.pieceComponents_dropWhile]
  rfl

/-- The directory of all output has the names that the settings give it. -/
theorem place_outputDir (o : Settings.Output) :
    Path.place ⟨(layout o).outputDir⟩ = Path.place ⟨o.dir⟩ := by
  rw [Path.place_eq, Path.place_eq]
  exact congrArg _ (moves_dropEndSlashes _)

/-- A relative path that is not empty is so without the slashes at its end, too. -/
theorem isAbsolute_dropEndSlashes (h : (Path.mk s).isAbsolute = false) (hne : s.toList ≠ []) :
    (Path.mk (dropEndSlashes s)).isAbsolute = false ∧ (dropEndSlashes s).toList ≠ [] := by
  obtain ⟨x, xs, hs⟩ := List.exists_cons_of_ne_nil hne
  have hx : x ≠ '/' := by simpa [Path.isAbsolute, hs] using h
  obtain ⟨ys, hys⟩ : ∃ ys, Text.dropEndWhile (· == '/') (x :: xs) = x :: ys := by
    rw [Text.dropEndWhile, List.reverse_cons, List.dropWhile_append]
    split
    · exact ⟨[], by simp [hx]⟩
    · exact ⟨_, List.reverse_append⟩
  rw [Path.isAbsolute, dropEndSlashes, String.toList_ofList, hs, hys]
  exact ⟨by simpa using hx, List.cons_ne_nil x ys⟩

/-- All output is in one directory. -/
theorem exists_path_eq (h : e ∈ (plan l names).entries) :
    ∃ rest, e.path = l.outputDir ++ "/" ++ rest := by
  rcases mem_plan.1 h with ⟨name, -, rfl⟩ | ⟨name, -, rfl⟩ | rfl
  · exact ⟨l.phpDir ++ "/" ++ phpControllerFile name, by
      simp [plannedController, Layout.phpPath, String.append_assoc]⟩
  · exact ⟨l.tsDir ++ "/" ++ tsClientFile name, by
      simp [plannedClient, Layout.tsPath, String.append_assoc]⟩
  · exact ⟨manifestFile, rfl⟩

/-- In directories without problems, files are planned from the workspace on, and not above it. -/
theorem relative_of_mem_plan {o : Settings.Output}
    (ho : ∀ d ∈ o.directories, Settings.directoryProblem? d.2 = none)
    (h : e ∈ (plan (layout o) names).entries) :
    (Path.mk e.path).isAbsolute = false ∧ .up ∉ (Path.mk e.path).components := by
  have hup : ∀ d ∈ o.directories, .up ∉ moves ⟨d.2⟩ := fun d hd =>
    mt Path.up_mem_components_iff.mpr (Settings.of_directoryProblem? (ho d hd)).2.2
  have hdir := hup ("dir", o.dir) List.mem_cons_self
  have hphp := hup ("php_dir", o.phpDir) (List.mem_cons_of_mem _ List.mem_cons_self)
  have hts := hup ("ts_dir", o.tsDir)
    (List.mem_cons_of_mem _ (List.mem_cons_of_mem _ List.mem_cons_self))
  constructor
  · obtain ⟨hrelative, hne, -⟩ :=
      Settings.of_directoryProblem? (ho ("dir", o.dir) List.mem_cons_self)
    obtain ⟨hrelative, hne⟩ : (Path.mk (layout o).outputDir).isAbsolute = false ∧
        (layout o).outputDir.toList ≠ [] := isAbsolute_dropEndSlashes hrelative hne
    obtain ⟨rest, hpath⟩ := exists_path_eq h
    rw [hpath, Path.isAbsolute_slash hne, hrelative]
  · have hdirectory : .up ∉ directory (layout o) e.kind := by
      cases e.kind <;>
        simp [directory, layout, moves_dropEndSlashes, moves_trimSlashes, hdir, hphp, hts]
    rw [Path.up_mem_components_iff, moves_of_mem_plan h]
    simpa using hdirectory

end Core

end StagedCodegen
