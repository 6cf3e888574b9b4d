import StagedCodegen.Proofs.Core.Drafting
import StagedCodegen.Proofs.Core.Manifest
import StagedCodegen.Settings.Validation

/-!
# When a run of the core helpers succeeds

Once the core fragments have drafted an artifact, nothing can fail any more: every planned file
names a resource that is known (`Core.sourced_dataOf`), so that the builders find all they look for,
and no family is left idle. So there is one thing that a run of the core helpers can fail for, which
is the identity: a namespace without letters and digits. Validation looks for a blank namespace
only, and takes one that is not blank but has no word in it.

Main statement: `Core.run_ok_or_rejected`.
-/

namespace StagedCodegen

open StagedCodegen.Representation

variable {κ α β : Type} {o : RunOptions}

/-! ## Programs that do not fail -/

namespace BuilderProgram

variable {key : String} {x : BuilderProgram κ α} {k : α → BuilderProgram κ β} {a : α} {b : β}

/-- The program succeeds with this result, wherever it starts. -/
def Gives (key : String) (x : BuilderProgram κ α) (a : α) : Prop :=
  ∀ s, ∃ t, Program.run (I := builderInterface κ) (serveBuilder key) x.run s = (.ok a, t)

theorem Gives.bind (hx : Gives key x a) (hk : Gives key (k a) b) : Gives key (x >>= k) b := by
  intro s
  obtain ⟨t, hrun⟩ := hx s
  obtain ⟨u, hrest⟩ := hk t
  refine ⟨u, (Program.run_bindExcept (I := builderInterface κ) _ x k _).trans ?_⟩
  rw [hrun]
  exact hrest

theorem gives_pure (key : String) (a : α) : Gives key (pure a : BuilderProgram κ α) a :=
  fun s => ⟨s, rfl⟩

theorem gives_ofExcept {r : Except Failure α} (h : r = .ok a) (key : String) :
    Gives key (ExceptT.mk (pure r) : BuilderProgram κ α) a := by
  rw [h]
  exact fun s => ⟨s, rfl⟩

theorem gives_queue (key : String) (path : Path) (contents : ByteArray) :
    Gives key (queue (κ := κ) path contents) () := fun _ => ⟨_, rfl⟩

theorem gives_warn (key : String) (scope : Scope) (message : String) (context : Json) :
    Gives key (warn (κ := κ) scope message context) () := fun _ => ⟨_, rfl⟩

theorem Gives.unless {p : Prop} [Decidable p] {y : BuilderProgram κ Unit}
    {z : BuilderProgram κ α} (hy : Gives key y ()) (hz : Gives key z a) :
    Gives key (if p then z else y >>= fun _ => z) a := by
  split
  · exact hz
  · exact hy.bind (k := fun _ => z) hz

/-- A builder succeeds if its program does. -/
theorem exists_succeeds {bs : List (BuilderEntry × BuilderBehaviour κ)} {i : Nat}
    {b : BuilderEntry × BuilderBehaviour κ} {a : Artifact} (hb : bs[i]? = some b)
    (h : Gives b.1.key (b.2 ⟨o, a, b.1.key, Scope.child o.scope b.1.key⟩) ())
    (x : List QueuedWrite × Session κ) : ∃ y, BuilderSucceeds o a bs i x y := by
  obtain ⟨t, hrun⟩ := h (x.2.world, x.1)
  exact ⟨_, b, t.1, t.2, hb, builderEnds_iff.2 hrun, rfl⟩

end BuilderProgram

open BuilderProgram

namespace Core

variable {d : Data} {e : PlannedArtifact} {es : List PlannedArtifact} {builder : String}

/-! ## Sources that are found -/

/-- Whoever renders a planned file that has a source gets it. -/
theorem renderPlanned_of_sourced (h : e.kind ≠ .manifest → ∃ source, source? d e = some source) :
    renderPlanned d e builder = .ok (source? d e) := by
  unfold renderPlanned plannedResource
  rw [source?] at h ⊢
  cases hkind : e.kind with
  | manifest => rfl
  | phpController | tsClient =>
    rcases hr : e.resource.bind d.resource? with _ | r
    · simp [hkind, hr] at h
    · rfl

theorem gives_queueSources (h : Sourced d es) :
    Gives builder (queueSources (κ := κ) d builder es) () := by
  induction es with
  | nil => exact gives_pure builder ()
  | cons e es ih =>
    obtain ⟨he, hes⟩ := List.forall_mem_cons.mp h
    refine (gives_ofExcept (renderPlanned_of_sourced he) builder).bind ?_
    rcases source? d e with _ | source
    · exact (gives_pure builder ()).bind (k := fun _ => queueSources d builder es) (ih hes)
    · exact (gives_queue builder _ _).bind (k := fun _ => queueSources d builder es) (ih hes)

theorem exists_sourceHashes (h : Sourced d es) (files : SortedMap String) :
    ∃ files', sourceHashes d builder es files = .ok files' := by
  induction es generalizing files with
  | nil => exact ⟨files, rfl⟩
  | cons e es ih =>
    obtain ⟨he, hes⟩ := List.forall_mem_cons.mp h
    rw [sourceHashes, renderPlanned_of_sourced he]
    rcases source? d e with _ | source
    · exact ih hes files
    · exact ih hes _

theorem gives_manifestBuilder {v : BuilderView} (h : Sourced v.artifact.data
      v.artifact.data.plan.entries) : Gives v.key (manifestBuilder (κ := κ) v) () := by
  obtain ⟨files, hfiles⟩ :
      ∃ files, sourceHashes v.artifact.data v.key v.artifact.data.plan.entries .empty = .ok files :=
    exists_sourceHashes h .empty
  refine (gives_ofExcept hfiles v.key).bind ?_
  refine Gives.unless (p := (v.options.previous.stale files.keys).isEmpty = true)
    (gives_warn v.key _ _ _) ?_
  split
  · exact gives_pure v.key ()
  · exact gives_queue v.key _ _

/-! ## The artifact of the core fragments -/

theorem resource?_dataOf (o : RunOptions) (m : Meta) (name : String) :
    (dataOf o m).resource? name = (resourceMap o.settings.project.resources).get? name :=
  (byName_resourceMap _).find?_values name

/-- Every planned file is about a resource that is known. -/
theorem sourced_dataOf (o : RunOptions) (m : Meta) :
    Sourced (dataOf o m) (dataOf o m).plan.entries := by
  have hknown : ∀ name ∈ (resourceMap o.settings.project.resources).keys,
      ∃ r, (dataOf o m).resource? name = some r := fun name hname => by
    rw [resource?_dataOf]
    exact SortedMap.mem_keys_iff.mp hname
  intro e he hkind
  rcases mem_plan.mp he with ⟨name, hname, rfl⟩ | ⟨name, hname, rfl⟩ | rfl
  · obtain ⟨r, hr⟩ := hknown name hname
    exact ⟨phpController (dataOf o m) r, congrArg (Option.map _) hr⟩
  · obtain ⟨r, hr⟩ := hknown name hname
    exact ⟨tsClient (dataOf o m) r, congrArg (Option.map _) hr⟩
  · exact absurd rfl hkind

theorem Sourced.ofKind {p : ArtifactPlan} (h : Sourced d p.entries) (kind : ArtifactKind) :
    Sourced d (p.ofKind kind) := fun e he => h e (List.mem_filter.mp he).1

/-- All builders succeed on an artifact in which every planned file has a source. -/
theorem exists_built {a : Artifact} (h : Sourced a.data a.data.plan.entries) (s : Session κ) :
    ∃ writes t, InTurn (BuilderSucceeds o a (registry (κ := κ)).builders)
      (Schedule.builders (registry (κ := κ)).builderEntries) ([], s) (writes, t) := by
  have hcontrollers : ∀ x, ∃ y, BuilderSucceeds o a (builders (κ := κ)) 0 x y :=
    exists_succeeds (b := ⟨⟨"builder.php.controllers", 20, some origin⟩, _⟩) rfl
      (gives_queueSources (h.ofKind .phpController))
  have hclients : ∀ x, ∃ y, BuilderSucceeds o a (builders (κ := κ)) 1 x y :=
    exists_succeeds (b := ⟨⟨"builder.ts.clients", 10, some origin⟩, _⟩) rfl
      (gives_queueSources (h.ofKind .tsClient))
  have hmanifest : ∀ x, ∃ y, BuilderSucceeds o a (builders (κ := κ)) 2 x y :=
    exists_succeeds (b := ⟨⟨"builder.manifest", 0, some origin⟩, manifestBuilder⟩) rfl
      (gives_manifestBuilder (v := ⟨o, a, "builder.manifest", _⟩) h)
  rw [builders_registry]
  obtain ⟨x, hx⟩ := hcontrollers ([], s)
  obtain ⟨y, hy⟩ := hclients x
  obtain ⟨⟨writes, t⟩, hz⟩ := hmanifest y
  exact ⟨writes, t, .cons hx (.cons hy (.cons hz .nil))⟩

/-! ## Runs -/

/-- The pipeline of the core helpers with these required families. -/
def pipeline (families : List String) : Pipeline κ := ⟨registry, [], families⟩

theorem prepares_of_speakable (h : Speakable o) (families : List String) (w : World κ) :
    ∃ m writes t, (pipeline families).Prepares o w ⟨dataOf o m, 0, .empty⟩ [] writes t := by
  obtain ⟨m, hm⟩ : ∃ m, identity o "ir.meta.core" = .ok m := ⟨_, identity_of_speakable h _⟩
  obtain ⟨t, hdraft⟩ := exists_runFragments o families (.start w)
  rw [hm] at hdraft
  obtain ⟨writes, u, hbuilt⟩ := exists_built (o := o) (a := ⟨dataOf o m, 0, .empty⟩)
    (sourced_dataOf o m) t
  exact ⟨m, writes, u, [], _, t, t, Pipeline.begins_iff.2 ⟨_, rfl, hdraft⟩, .nil, hbuilt⟩

theorem exists_run_of_speakable (h : Speakable o) (families : List String) (w : World κ) :
    ∃ r t, (pipeline families).run o w = (.ok r, t) := by
  obtain ⟨m, writes, t, hprepares⟩ := prepares_of_speakable h families w
  exact ⟨_, _, Pipeline.run_of_prepare (Pipeline.prepare_eq_ok_iff.mpr hprepares)⟩

theorem run_of_not_speakable (h : ¬Speakable o) (families : List String) (w : World κ) :
    ∃ t, (pipeline families).run o w = (.error (.rejected "ir.meta.core"
      ("namespace '" ++ usedTitle o ++ "' has no usable characters")), t) := by
  obtain ⟨t, hdraft⟩ := exists_runFragments o families (.start w)
  rw [identity_of_not_speakable h] at hdraft
  have hprepare : (pipeline families).prepare o (.start w) = (.error (.rejected "ir.meta.core"
      ("namespace '" ++ usedTitle o ++ "' has no usable characters")), t) :=
    Attempt.bind_eq_error.mpr (.inr ⟨[], .start w, rfl, Attempt.bind_eq_error.mpr (.inl hdraft)⟩)
  exact ⟨_, Pipeline.run_of_prepare_error hprepare⟩

/-- **When a run of the core helpers succeeds.** Whatever the settings, the required families and
the world are, a run of the core helpers succeeds if the namespace has a letter or a digit.
Otherwise it fails for that reason. -/
theorem run_ok_or_rejected (o : RunOptions) (families : List String) (w : World κ) :
    registerAll { Pipeline.new with requiredFamilies := families } =
        (.ok (), (pipeline families : Pipeline κ)) ∧
      (Speakable o ∧ (∃ r t, (pipeline families).run o w = (.ok r, t)) ∨
        ¬Speakable o ∧ ∃ t, (pipeline families).run o w = (.error (.rejected "ir.meta.core"
          ("namespace '" ++ usedTitle o ++ "' has no usable characters")), t)) := by
  refine ⟨registerAll_eq rfl, ?_⟩
  by_cases h : Speakable o
  · obtain ⟨m, writes, t, hprepares⟩ := prepares_of_speakable h families w
    exact .inl ⟨h, _, _, Pipeline.run_of_prepare (Pipeline.prepare_eq_ok_iff.mpr hprepares)⟩
  · exact .inr ⟨h, run_of_not_speakable h families w⟩

/-- The options of a generation for settings with nothing but this namespace. -/
def titled (title : String) : RunOptions where
  phase := "generate"
  settings := { Settings.usual with project := ⟨title, "0.1.0", [], .empty⟩ }
  title := title
  origin := "genpipe.toml"
  sourcePath := ⟨"/genpipe.toml"⟩
  workspace := ⟨"/"⟩
  scope := "genpipe"
  previous := .none

/-- Nothing is wrong with the settings, but they cannot be run. -/
theorem namespace_is_unusable : (titled "!").settings.problems = [] ∧
    ∃ t, (pipeline (titled "!").settings.generation.requiredFamilies).run (titled "!")
      (⟨⟨[], []⟩, [], [], ()⟩ : World Unit) =
        (.error (.rejected "ir.meta.core" "namespace '!' has no usable characters"), t) := by
  have hnot : ¬Speakable (titled "!") := by decide +kernel
  have htitle : usedTitle (titled "!") = "!" := by decide +kernel
  obtain ⟨t, hrun⟩ := run_of_not_speakable hnot
    (titled "!").settings.generation.requiredFamilies (⟨⟨[], []⟩, [], [], ()⟩ : World Unit)
  rw [htitle] at hrun
  exact ⟨by decide +kernel, t, hrun⟩

end Core

end StagedCodegen
