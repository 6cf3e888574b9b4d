import StagedCodegen.Proofs.Core.Drafting
import StagedCodegen.Proofs.Core.Manifest
import StagedCodegen.Proofs.Disk.Places
import StagedCodegen.Settings.Validation

/-!
# Which planned files are one

A planned file has a name that is made of the name of its resource and of an ending for its kind
(`Core.fileName`). Two of them have the same path just if they have the same name, and this is so
just if they are of the same kind and the names of their resources have the same words run together.
Valid settings can have such resources: then the plan has one file for several of them. They share
all their files or none, as controllers and clients are named for the same words.

Main statements: `Core.plan_is_separate_iff`, `Core.casings_agree`.
-/

namespace StagedCodegen

open StagedCodegen.Representation

open StagedCodegen.Path (Component IsName moves)

variable {κ : Type}

theorem Path.moves_slash (a b : String) : moves ⟨a ++ "/" ++ b⟩ = moves ⟨a⟩ ++ moves ⟨b⟩ := by
  have htext : (a ++ "/" ++ b).toList = a.toList ++ '/' :: b.toList := by simp
  rw [moves, htext, Text.split_append, pieceComponents_append]
  rfl

theorem Path.fileName?_of_moves {p : Path} {cs : List Component} {s : String}
    (h : p.moves = cs ++ [.name s.toList]) : p.fileName? = some s := by
  obtain ⟨start, hstart, -⟩ := p.exists_components
  have hlast : p.components.getLast? = some (.name s.toList) := by
    rw [hstart, h, ← List.append_assoc, List.getLast?_concat]
  rw [fileName?, hlast]
  simp

namespace Core

variable {l : Layout} {names : List String} {e e' : PlannedArtifact}

/-! ## Names of files -/

/-- The name of a planned file in its directory. -/
def fileName (e : PlannedArtifact) : String :=
  match e.kind with
  | .phpController => Text.pascalCase (e.resource.getD "") ++ "Controller.php"
  | .tsClient => tsClientFile (e.resource.getD "")
  | .manifest => manifestFile

/-- The steps to the directory of the planned files of a kind. -/
def directory (l : Layout) : ArtifactKind → List Component
  | .phpController => moves ⟨l.outputDir⟩ ++ moves ⟨l.phpDir⟩ ++ [.name "Rest".toList]
  | .tsClient => moves ⟨l.outputDir⟩ ++ moves ⟨l.tsDir⟩
  | .manifest => moves ⟨l.outputDir⟩

theorem isName_of_words {w ending : List Char} (hw : ∀ c ∈ w, Text.isWordChar c = true)
    (hlength : 2 < ending.length) (hslash : '/' ∉ ending) : IsName (w ++ ending) := by
  have hlonger : 2 < (w ++ ending).length := by
    rw [List.length_append]
    omega
  refine ⟨?_, ?_, ?_, List.not_mem_append (fun hmem => ?_) hslash⟩
  · rintro heq
    simp [heq] at hlonger
  · rintro heq
    simp [heq] at hlonger
  · rintro heq
    simp [heq] at hlonger
  · exact absurd (hw _ hmem) (by decide)

theorem isName_fileName (e : PlannedArtifact) : IsName (fileName e).toList := by
  unfold fileName
  split
  · rw [String.toList_append]
    exact isName_of_words Text.isWordChar_of_mem_pascalCase (by decide) (by decide)
  · rw [tsClientFile, String.toList_append]
    exact isName_of_words Text.isWordChar_of_mem_camelCase (by decide) (by decide)
  · decide

theorem ending_fileName (e : PlannedArtifact) : ending e.kind <:+ (fileName e).toList := by
  unfold fileName
  split <;> rename_i hkind <;> rw [hkind]
  · exact suffix_of_append ⟨"Controller".toList, rfl⟩
  · exact suffix_of_append ⟨[], rfl⟩
  · exact ⟨"manifest".toList, rfl⟩

theorem kind_eq_of_fileName_eq (h : fileName e = fileName e') : e.kind = e'.kind :=
  ending_unique (ending_fileName e) (h ▸ ending_fileName e')

/-- The path of a planned file goes to its directory, and ends in its name. -/
theorem moves_of_mem_plan (h : e ∈ (plan l names).entries) :
    moves ⟨e.path⟩ = directory l e.kind ++ [.name (fileName e).toList] := by
  have hname : moves ⟨fileName e⟩ = [.name (fileName e).toList] := by
    rw [moves, Text.split_of_not_mem (isName_fileName e).slash_notMem]
    exact Path.pieceComponents_of_names (by simpa using isName_fileName e)
  rcases mem_plan.1 h with ⟨name, -, rfl⟩ | ⟨name, -, rfl⟩ | rfl
  · have hpath : (plannedController l name).path =
        l.outputDir ++ "/" ++ l.phpDir ++ "/" ++
          ("Rest" ++ "/" ++ fileName (plannedController l name)) :=
      congrArg (l.outputDir ++ "/" ++ l.phpDir ++ "/" ++ ·) (String.append_assoc ..)
    have hrest : moves ⟨"Rest"⟩ = [.name "Rest".toList] := by decide
    rw [hpath, Path.moves_slash, Path.moves_slash, Path.moves_slash, hrest, hname,
      kind_plannedController,
      directory]
    simp
  · have hpath : (plannedClient l name).path =
        l.outputDir ++ "/" ++ l.tsDir ++ "/" ++ fileName (plannedClient l name) := rfl
    rw [hpath, Path.moves_slash, Path.moves_slash, hname]
    rfl
  · have hpath : (plannedManifest l).path = l.outputDir ++ "/" ++ fileName (plannedManifest l) :=
      rfl
    rw [hpath, Path.moves_slash, hname]
    rfl

theorem fileName?_of_mem_plan (h : e ∈ (plan l names).entries) :
    (Path.mk e.path).fileName? = some (fileName e) := Path.fileName?_of_moves (moves_of_mem_plan h)

/-! ## Files of their own -/

/-- Different resources are told apart by the words of their names, run together. -/
def Separate (rs : List Resource) : Prop := ∀ r ∈ rs, ∀ r' ∈ rs,
  Text.pascalCase r.name = Text.pascalCase r'.name → r.name = r'.name

section Nodup

variable {α : Type} {f : PlannedArtifact → α}

/-- What tells kinds apart and resources by their words, tells planned files apart just if the words
tell their resources apart. -/
theorem nodup_map_plan_iff
    (hkind : ∀ e ∈ (plan l names).entries, ∀ e' ∈ (plan l names).entries, f e = f e' →
      e.kind = e'.kind)
    (hcontroller : ∀ n n', f (plannedController l n) = f (plannedController l n') ↔
      Text.pascalCase n = Text.pascalCase n')
    (hclient : ∀ n n', f (plannedClient l n) = f (plannedClient l n') ↔
      Text.pascalCase n = Text.pascalCase n') :
    ((plan l names).entries.map f).Nodup ↔ (names.map Text.pascalCase).Nodup := by
  have hpascal : (names.map Text.pascalCase).Nodup ↔
      names.Pairwise (Text.pascalCase · ≠ Text.pascalCase ·) := List.pairwise_map
  rw [List.Nodup, List.pairwise_map, plan, List.pairwise_append, List.pairwise_append,
    List.pairwise_map, List.pairwise_map, hpascal]
  simp only [ne_eq, hcontroller, hclient]
  refine ⟨fun h => h.1.1, fun h => ⟨⟨h, h, fun e he e' he' heq => ?_⟩, List.pairwise_singleton ..,
    fun e he e' he' heq => ?_⟩⟩
  · have hkinds := hkind e (List.mem_append_left _ (List.mem_append_left _ he)) e'
      (List.mem_append_left _ (List.mem_append_right _ he')) heq
    obtain ⟨n, -, rfl⟩ := List.mem_map.1 he
    obtain ⟨n', -, rfl⟩ := List.mem_map.1 he'
    cases hkinds
  · have hkinds := hkind e (List.mem_append_left _ he) e' (List.mem_append_right _ he') heq
    obtain rfl := List.mem_singleton.1 he'
    rcases List.mem_append.1 he with he | he
    · obtain ⟨n, -, rfl⟩ := List.mem_map.1 he
      cases hkinds
    · obtain ⟨n, -, rfl⟩ := List.mem_map.1 he
      cases hkinds

end Nodup

theorem fileName_plannedController_inj {n n' : String} :
    fileName (plannedController l n) = fileName (plannedController l n') ↔
      Text.pascalCase n = Text.pascalCase n' := by
  rw [fileName, fileName, kind_plannedController, kind_plannedController, String.append_left_inj]
  rfl

theorem fileName_plannedClient_inj {n n' : String} :
    fileName (plannedClient l n) = fileName (plannedClient l n') ↔
      Text.pascalCase n = Text.pascalCase n' := by
  have hname : ∀ n, fileName (plannedClient l n) = Text.camelCase n ++ ".ts" := fun _ => rfl
  rw [hname, hname, String.append_left_inj, Text.camelCase_eq_iff]

theorem path_plannedController_inj {n n' : String} :
    (plannedController l n).path = (plannedController l n').path ↔
      Text.pascalCase n = Text.pascalCase n' := by
  have hpath : ∀ n, (plannedController l n).path =
      l.outputDir ++ "/" ++ l.phpDir ++ "/" ++ ("Rest/" ++ Text.pascalCase n ++ "Controller.php") :=
    fun _ => rfl
  rw [hpath, hpath, String.append_right_inj, String.append_left_inj, String.append_right_inj]

theorem path_plannedClient_inj {n n' : String} :
    (plannedClient l n).path = (plannedClient l n').path ↔
      Text.pascalCase n = Text.pascalCase n' := by
  have hpath : ∀ n, (plannedClient l n).path =
      l.outputDir ++ "/" ++ l.tsDir ++ "/" ++ (Text.camelCase n ++ ".ts") := fun _ => rfl
  rw [hpath, hpath, String.append_right_inj, String.append_left_inj, Text.camelCase_eq_iff]

/-- **Two casings of a name.** Whether the words of a name are run together with a capital at the
beginning or without one, its letters and digits are kept and nothing else. Either form gives the
same names as the text that it was made of, so the two tell the same texts apart: two resources
share the file of their controllers just if they share the file of their clients. -/
theorem casings_agree (a b : String) :
    ((∀ c ∈ (Text.pascalCase a).toList, Text.isWordChar c = true) ∧
      ∀ c ∈ (Text.camelCase a).toList, Text.isWordChar c = true) ∧
    ((Text.pascalCase a).toList.map Char.toLower =
        (a.toList.filter Text.isWordChar).map Char.toLower ∧
      (Text.camelCase a).toList.map Char.toLower =
        (a.toList.filter Text.isWordChar).map Char.toLower) ∧
    (Text.pascalCase (Text.camelCase a) = Text.pascalCase a ∧
      Text.camelCase (Text.pascalCase a) = Text.camelCase a) ∧
    (Text.pascalCase (Text.pascalCase a) = Text.pascalCase a ∧
      Text.camelCase (Text.camelCase a) = Text.camelCase a) ∧
    (Text.pascalCase a = Text.pascalCase b ↔ Text.camelCase a = Text.camelCase b) ∧
    (phpControllerFile a = phpControllerFile b ↔ tsClientFile a = tsClientFile b) ∧
    ∀ l : Layout, (plannedController l a).path = (plannedController l b).path ↔
      (plannedClient l a).path = (plannedClient l b).path := by
  have hcasing : Text.pascalCase a = Text.pascalCase b ↔ Text.camelCase a = Text.camelCase b :=
    Text.camelCase_eq_iff.symm
  refine ⟨⟨Text.isWordChar_of_mem_pascalCase, Text.isWordChar_of_mem_camelCase⟩,
    ⟨Text.map_toLower_pascalCase a, Text.map_toLower_camelCase a⟩,
    ⟨Text.pascalCase_camelCase a, Text.camelCase_pascalCase a⟩,
    ⟨Text.pascalCase_pascalCase a, Text.camelCase_camelCase a⟩, hcasing, ?_, fun l => ?_⟩
  · rw [phpControllerFile, phpControllerFile, tsClientFile, tsClientFile, String.append_left_inj,
      String.append_right_inj, String.append_left_inj]
    exact hcasing
  · rw [path_plannedController_inj, path_plannedClient_inj]

theorem nodup_paths_iff : ((plan l names).entries.map (·.path)).Nodup ↔
    (names.map Text.pascalCase).Nodup :=
  nodup_map_plan_iff (fun _ he _ he' => kind_eq_of_path_eq he he')
    (fun _ _ => path_plannedController_inj) fun _ _ => path_plannedClient_inj

theorem nodup_fileNames_iff : ((plan l names).entries.map fileName).Nodup ↔
    (names.map Text.pascalCase).Nodup :=
  nodup_map_plan_iff (fun _ _ _ _ => kind_eq_of_fileName_eq)
    (fun _ _ => fileName_plannedController_inj) fun _ _ => fileName_plannedClient_inj

theorem separate_iff {rs : List Resource} :
    ((resourceMap rs).keys.map Text.pascalCase).Nodup ↔ Separate rs := by
  have hnodup : (resourceMap rs).keys.Nodup :=
    (resourceMap rs).keys_sorted.imp fun hlt => Std.ne_of_lt hlt
  rw [List.nodup_map_iff_inj_on hnodup, Separate]
  simp only [mem_keys_resourceMap, forall_exists_index, and_imp, forall_apply_eq_imp_iff₂]

/-- **Which resources get files of their own.** What the core fragments plan is a controller and a
client for the name of each resource and the list of both. No two of these files have the same path
just if different resources are told apart by the words of their names, run together; and then no
two of them have the same name, whatever directories they are in. -/
theorem plan_is_separate_iff {o : RunOptions} {families : List String} {a : Artifact}
    {s t : Session κ} (h : runFragments registry families o s = (.ok a, t)) :
    (∃ names : List String, names.Pairwise (· < ·) ∧
      (∀ name, name ∈ names ↔ ∃ r ∈ o.settings.project.resources, r.name = name) ∧
      a.data.plan = plan (layout o.settings.output) names) ∧
    ((a.data.plan.entries.map (·.path)).Nodup ↔ Separate o.settings.project.resources) ∧
    ((a.data.plan.entries.map fun e => (Path.mk e.path).fileName?).Nodup ↔
      Separate o.settings.project.resources) := by
  obtain ⟨m, -, rfl⟩ := exists_identity_of_runFragments h
  have hnames : ∀ e ∈ (dataOf o m).plan.entries, (Path.mk e.path).fileName? = some (fileName e) :=
    fun _ he => fileName?_of_mem_plan he
  refine ⟨⟨_, (resourceMap _).keys_sorted, fun _ => mem_keys_resourceMap, rfl⟩, ?_, ?_⟩
  · exact nodup_paths_iff.trans separate_iff
  · have hsome : ((dataOf o m).plan.entries.map fun e => (Path.mk e.path).fileName?) =
        ((dataOf o m).plan.entries.map fileName).map some := by
      rw [List.map_map]
      exact List.map_congr_left hnames
    rw [hsome, List.nodup_map_iff (Option.some_injective _)]
    exact nodup_fileNames_iff.trans separate_iff

/-- Two resources whose names differ in more than letters and digits. -/
def apart : RunOptions := { sharing with
  settings := { sharing.settings with
    project := ⟨"demo", "0.1.0", [⟨"book-s", "/books", none⟩, ⟨"films", "/all", none⟩], .empty⟩ } }

theorem plan_is_separate_iff_apart : ∃ (a : Artifact) (t : Session Unit),
    runFragments registry usualFamilies apart (.start ⟨⟨[], []⟩, [], [], ()⟩) = (.ok a, t) ∧
      Separate apart.settings.project.resources ∧ (a.data.plan.entries.map (·.path)).Nodup := by
  obtain ⟨t, hrun⟩ := exists_runFragments (κ := Unit) apart usualFamilies
    (.start ⟨⟨[], []⟩, [], [], ()⟩)
  have hseparate : Separate apart.settings.project.resources := by
    unfold Separate
    decide +kernel
  have hspeakable : Speakable apart := by decide +kernel
  rw [identity_of_speakable hspeakable] at hrun
  exact ⟨_, t, hrun, hseparate, (plan_is_separate_iff hrun).2.1.mpr hseparate⟩

/-- Nothing is wrong with the settings, but the files of two resources have the same paths. -/
theorem files_are_shared : sharing.settings.problems = [] ∧
    ∃ (a : Artifact) (t : Session Unit),
      runFragments registry usualFamilies sharing (.start ⟨⟨[], []⟩, [], [], ()⟩) = (.ok a, t) ∧
        ¬(a.data.plan.entries.map (·.path)).Nodup := by
  obtain ⟨t, hrun⟩ := exists_runFragments (κ := Unit) sharing usualFamilies
    (.start ⟨⟨[], []⟩, [], [], ()⟩)
  have hspeakable : Speakable sharing := by decide +kernel
  rw [identity_of_speakable hspeakable] at hrun
  refine ⟨by decide +kernel, _, t, hrun, ?_⟩
  have hplan : ¬((plan (layout sharing.settings.output)
      (resourceMap sharing.settings.project.resources).keys).entries.map (·.path)).Nodup := by
    decide +kernel
  exact hplan

end Core

end StagedCodegen
