import StagedCodegen.Proofs.Core.Plan
import StagedCodegen.Proofs.Representation.Snapshots
import StagedCodegen.Proofs.Text.Words

/-!
# What the core fragments draft

Each of the core fragments writes fields that nobody else has written, so none of them is refused.
What they leave can be read off the settings (`Core.dataOf`): the resources by name, of which the
last counts if several have the same, the capabilities behind their keys, and the plan for their
names. Only the identity can fail, and then nothing is drafted.

Main statement: `Core.exists_runFragments`.
-/

namespace StagedCodegen

open StagedCodegen.Representation

variable {κ α β : Type} {o : RunOptions}

/-! ## Fields without another owner -/

namespace Representation.Draft

variable {d : Draft} {w : Writer} {write : DraftWrite} {f : Field}

/-- The field belongs to nobody else than the writer. -/
def FreeFor (d : Draft) (w : Writer) (f : Field) : Prop :=
  ∀ owner, d.owner? f.text = some owner → owner = w.key

theorem freeFor_of_none (h : d.owner? f.text = none) : d.FreeFor w f :=
  fun _ howner => nomatch h.symm.trans howner

theorem FreeFor.assign (h : d.FreeFor w write.target) :
    d.assign w write = .ok (d.written w write) := by
  rcases hassign : d.assign w write with failure | d'
  · obtain ⟨owner, howner, hother, -⟩ := assign_eq_error_iff.mp hassign
    rw [DraftWrite.field_eq] at howner
    exact absurd (h owner howner) hother
  · rw [assign_of_ok hassign]

theorem FreeFor.written (h : d.FreeFor w f) : (d.written w write).FreeFor w f := by
  intro owner howner
  rw [owner?_written] at howner
  split at howner
  · exact (Option.some.inj howner).symm
  · exact h owner howner

theorem owner?_written_of_ne (hf : f ≠ write.target) :
    (d.written w write).owner? f.text = d.owner? f.text :=
  (owner?_written ..).trans (if_neg fun heq => hf (Field.text_injective heq))

end Representation.Draft

/-! ## Programs that leave a draft -/

namespace FragmentProgram

variable {w : Writer} {x : FragmentProgram κ α} {k : α → FragmentProgram κ β} {a : α} {b : β}
  {d d' d'' : Draft}

/-- The program, run on a draft, succeeds with this result, leaves that draft and lets the phase go
on. -/
def Leaves (w : Writer) (x : FragmentProgram κ α) (d : Draft) (a : α) (d' : Draft) : Prop :=
  ∀ v, ∃ v', Program.run (I := fragmentInterface κ) (FragmentState.serve w) x.run ⟨v, d, none⟩ =
    (.ok a, ⟨v', d', none⟩)

theorem Leaves.bind (hx : Leaves w x d a d') (hk : Leaves w (k a) d' b d'') :
    Leaves w (x >>= k) d b d'' := by
  intro v
  obtain ⟨v₁, hrun⟩ := hx v
  obtain ⟨v₂, hrest⟩ := hk v₁
  refine ⟨v₂, (Program.run_bindExcept (I := fragmentInterface κ) _ x k _).trans ?_⟩
  rw [hrun]
  exact hrest

theorem leaves_pure (w : Writer) (a : α) (d : Draft) :
    Leaves w (pure a : FragmentProgram κ α) d a d := fun v => ⟨v, rfl⟩

theorem leaves_ofExcept {r : Except Failure α} (h : r = .ok a) (w : Writer) (d : Draft) :
    Leaves w (ExceptT.mk (pure r) : FragmentProgram κ α) d a d := by
  rw [h]
  exact fun v => ⟨v, rfl⟩

theorem leaves_look (w : Writer) (d : Draft) : Leaves w (look (κ := κ)) d d d := fun v => ⟨v, rfl⟩

theorem leaves_warn (w : Writer) (scope : Scope) (message : String) (context : Json) (d : Draft) :
    Leaves w (warn (κ := κ) scope message context) d () d :=
  fun v => ⟨v.warn scope message context, rfl⟩

/-- Whoever writes to a field that nobody else owns is served. -/
theorem run_assign {write : DraftWrite} (h : d.FreeFor w write.target) (v : World κ) :
    Program.run (I := fragmentInterface κ) (FragmentState.serve w) (assign write).run ⟨v, d, none⟩ =
      (.ok (), ⟨v, d.written w write, none⟩) := by
  have hserve : FragmentState.serve w (.assign write) ⟨v, d, none⟩ =
      (.ok (), ⟨v, d.written w write, none⟩) := by
    simp only [FragmentState.serve, Draft.put, h.assign]
  exact hserve

theorem leaves_assign {write : DraftWrite} (h : d.FreeFor w write.target) :
    Leaves w (assign (κ := κ) write) d () (d.written w write) := fun v => ⟨v, run_assign h v⟩

/-- A fragment passes with what its program leaves. -/
theorem exists_passes {fs : List (FragmentEntry × FragmentBehaviour κ)} {i : Nat}
    {e : FragmentEntry × FragmentBehaviour κ} (he : fs[i]? = some e)
    (h : Leaves ⟨e.1.key, e.1.mode⟩ (e.2 ⟨o, e.1.key, Scope.child o.scope e.1.key⟩) d () d')
    (s : Session κ) : ∃ t, FragmentPasses o fs i (d, s) (d', t) := by
  obtain ⟨v, hrun⟩ := h s.world
  exact ⟨_, e, v, d', he, fragmentEnds_iff.2 hrun, rfl⟩

end FragmentProgram

open FragmentProgram

namespace Core

/-! ## The identity -/

/-- The namespace that is used: that of the options, unless it is blank. -/
def usedTitle (o : RunOptions) : String :=
  if Text.isBlankText o.title then o.settings.project.title else o.title

/-- The namespace has a letter or a digit. -/
def Speakable (o : RunOptions) : Prop := ∃ c ∈ (usedTitle o).toList, Text.isWordChar c = true

instance (o : RunOptions) : Decidable (Speakable o) :=
  decidable_of_iff ((usedTitle o).toList.any Text.isWordChar = true) List.any_eq_true

theorem identity_of_speakable (h : Speakable o) (key : String) : identity o key =
    .ok ⟨usedTitle o, Text.slug (usedTitle o), o.settings.project.version, o.origin,
      o.sourcePath.text⟩ := by
  refine if_neg fun hslug => ?_
  obtain ⟨c, hc, hword⟩ := h
  exact absurd (Text.slug_eq_empty_iff.mp hslug c hc) (by simp [hword])

theorem identity_of_not_speakable (h : ¬Speakable o) (key : String) : identity o key =
    .error (.rejected key ("namespace '" ++ usedTitle o ++ "' has no usable characters")) := by
  refine if_pos (Text.slug_eq_empty_iff.mpr fun c hc => ?_)
  exact Bool.eq_false_iff.mpr fun hword => h ⟨c, hc, hword⟩

/-! ## The resources -/

/-- Resources by name. The last one of a name counts. -/
def resourceMap (rs : List Resource) : SortedMap Resource :=
  rs.foldl (fun m r => m.insert r.name r) .empty

theorem get?_resourceMap (rs : List Resource) (name : String) :
    (resourceMap rs).get? name = (rs.filter (·.name = name)).getLast? := by
  have hfold := SortedMap.get?_foldl_insert id (rs.map fun r => (r.name, r)) .empty name
  rw [List.foldl_map, List.filter_map, List.getLast?_map] at hfold
  refine hfold.trans ?_
  simp [Function.comp_def]

theorem mem_keys_resourceMap {rs : List Resource} {name : String} :
    name ∈ (resourceMap rs).keys ↔ ∃ r ∈ rs, r.name = name := by
  rw [SortedMap.mem_keys_iff, get?_resourceMap]
  simp only [← Option.ne_none_iff_exists', ne_eq, List.getLast?_eq_none_iff, List.filter_eq_nil_iff]
  simp

theorem byName_resourceMap (rs : List Resource) : ByName (resourceMap rs) := byName_empty.foldl rs

/-- The draft once resources were given. -/
def given (w : Writer) (rs : List Resource) (d : Draft) : Draft :=
  rs.foldl (fun d r => d.written w (.resource r)) d

/-- Resources that are given change neither other fields nor their owners. -/
theorem given_eq (w : Writer) (rs : List Resource) (d : Draft) : given w rs d = { d with
    resources := rs.foldl (fun m r => m.insert r.name r) d.resources
    owners := (given w rs d).owners } := by
  induction rs generalizing d with
  | nil => rfl
  | cons r rs ih => exact ih (d.written w (.resource r))

theorem owner?_given {w : Writer} {rs : List Resource} {d : Draft} {f : Field}
    (hf : ∀ name, f ≠ .resource name) : (given w rs d).owner? f.text = d.owner? f.text := by
  induction rs generalizing d with
  | nil => rfl
  | cons r rs ih => exact ih.trans (Draft.owner?_written_of_ne (hf r.name))

/-! ## What each fragment leaves -/

section Fragments

-- the namespace must not be computed
attribute [local irreducible] identity

variable {v : FragmentView} {w : Writer} {d : Draft} {m : Meta}

theorem leaves_identityFragment (hm : identity v.options v.key = .ok m)
    (h : d.FreeFor w .identity) :
    Leaves w (identityFragment (κ := κ) v) d () (d.written w (.identity m)) :=
  (leaves_ofExcept hm w d).bind (leaves_assign h)

theorem leaves_layoutFragment (h : d.FreeFor w .layout) :
    Leaves w (layoutFragment (κ := κ) v) d ()
      (d.written w (.layout (layout v.options.settings.output))) := leaves_assign h

/-- Resources are given without a word to anybody. -/
theorem run_giveResources {rs : List Resource} (h : ∀ name, d.FreeFor w (.resource name))
    (v : World κ) : Program.run (I := fragmentInterface κ) (FragmentState.serve w)
      (giveResources rs).run ⟨v, d, none⟩ = (.ok (), ⟨v, given w rs d, none⟩) := by
  induction rs generalizing d with
  | nil => rfl
  | cons r rs ih =>
    refine (Program.run_bindExcept (I := fragmentInterface κ) _
      (FragmentProgram.assign (.resource r)) (fun _ => giveResources rs) _).trans ?_
    have hr : d.FreeFor w (DraftWrite.resource r).target := h r.name
    rw [run_assign hr]
    exact ih fun name => (h name).written

theorem leaves_giveResources {rs : List Resource} (h : ∀ name, d.FreeFor w (.resource name)) :
    Leaves w (giveResources (κ := κ) rs) d () (given w rs d) := fun v => ⟨v, run_giveResources h v⟩

theorem leaves_warnOfMissing (scope : Scope) (missing : List String) :
    Leaves w (warnOfMissing (κ := κ) scope missing) d () d := by
  induction missing with
  | nil => exact leaves_pure w () d
  | cons key rest ih => exact (leaves_warn w scope _ _ d).bind ih

theorem leaves_capabilitiesFragment (h : d.FreeFor w .capabilityMap) :
    Leaves w (capabilitiesFragment (κ := κ) v) d () (d.written w (.capabilityMap
      (capabilityMap v.options.settings.project.capabilities
        (capabilityKeys d.resources.values)))) :=
  (leaves_look w d).bind ((leaves_warnOfMissing v.scope _).bind (leaves_assign h))

theorem leaves_planFragment {l : Layout} (hl : d.layout = some l) (h : d.FreeFor w .plan) :
    Leaves w (planFragment (κ := κ) v) d () (d.written w (.plan (plan l d.resources.keys))) := by
  have hplan : Leaves w (planFrom (κ := κ) v d) d ()
      (d.written w (.plan (plan l d.resources.keys))) := by
    rw [planFrom, hl]
    exact leaves_assign h
  exact (leaves_look w d).bind hplan

end Fragments

/-! ## All fragments -/

/-- What the core fragments make of the settings, for a project of this identity. -/
def dataOf (o : RunOptions) (m : Meta) : Data where
  identity := m
  capabilityMap := capabilityMap o.settings.project.capabilities
    (capabilityKeys (resourceMap o.settings.project.resources).values)
  layout := layout o.settings.output
  plan := plan (layout o.settings.output) (resourceMap o.settings.project.resources).keys
  resources := (resourceMap o.settings.project.resources).values
  extras := .empty

/-- The draft of a project of this identity. -/
def identified (m : Meta) : Draft :=
  Draft.empty.written ⟨"ir.meta.core", .extend⟩ (.identity m)

/-- The draft that has the directories as well. -/
def located (o : RunOptions) (m : Meta) : Draft :=
  (identified m).written ⟨layoutKey, .extend⟩ (.layout (layout o.settings.output))

/-- The draft that has the resources as well. -/
def resourced (o : RunOptions) (m : Meta) : Draft :=
  given ⟨resourcesKey, .extend⟩ o.settings.project.resources (located o m)

/-- The draft that has the capabilities as well. -/
def guarded (o : RunOptions) (m : Meta) : Draft :=
  (resourced o m).written ⟨"ir.capability-map.core", .extend⟩ (.capabilityMap
    (capabilityMap o.settings.project.capabilities
      (capabilityKeys (resourced o m).resources.values)))

/-- The draft that has everything. -/
def planned (o : RunOptions) (m : Meta) : Draft :=
  (guarded o m).written ⟨"ir.artifacts.plan", .extend⟩
    (.plan (plan (layout o.settings.output) (guarded o m).resources.keys))

section Stages

variable {m : Meta} {f : Field}

theorem resourced_eq (o : RunOptions) (m : Meta) : resourced o m = { located o m with
    resources := resourceMap o.settings.project.resources
    owners := (resourced o m).owners } := given_eq ..

theorem resources_guarded (o : RunOptions) (m : Meta) :
    (guarded o m).resources = resourceMap o.settings.project.resources :=
  (congrArg Draft.resources (resourced_eq o m) :)

theorem layout_guarded (o : RunOptions) (m : Meta) :
    (guarded o m).layout = some (layout o.settings.output) :=
  (congrArg Draft.layout (resourced_eq o m) :)

theorem finalize_planned (o : RunOptions) (m : Meta) :
    (planned o m).finalize = .ok ⟨dataOf o m, 0, .empty⟩ := by
  rw [planned, resources_guarded, guarded, resourced_eq]
  rfl

/-! Nobody has written to the fields of a fragment when its turn comes. -/

theorem owner?_identified (hf : f ≠ .identity) : (identified m).owner? f.text = none :=
  Draft.owner?_written_of_ne hf

theorem owner?_located (hf : f ≠ .identity) (hf' : f ≠ .layout) :
    (located o m).owner? f.text = none :=
  (Draft.owner?_written_of_ne hf').trans (owner?_identified hf)

theorem owner?_resourced (hf : f ≠ .identity) (hf' : f ≠ .layout)
    (hf'' : ∀ name, f ≠ .resource name) : (resourced o m).owner? f.text = none :=
  (owner?_given hf'').trans (owner?_located hf hf')

theorem owner?_guarded (o : RunOptions) (m : Meta) :
    (guarded o m).owner? Field.plan.text = none := calc
  (guarded o m).owner? Field.plan.text = (resourced o m).owner? Field.plan.text :=
    Draft.owner?_written_of_ne nofun
  _ = none := owner?_resourced nofun nofun nofun

-- the namespace must not be computed
attribute [local irreducible] identity

/-- Without an identity, the first fragment fails. -/
theorem fails_identityFragment {f : Failure} (hm : identity o "ir.meta.core" = .error f)
    (w : World κ) : FragmentEnds o (⟨"ir.meta.core", [], .extend, some origin⟩, identityFragment)
      (w, .empty) (.error f) ⟨w, .empty, none⟩ := by
  refine fragmentEnds_iff.2 ((Program.run_bindExcept (I := fragmentInterface κ) _ _ _ _).trans ?_)
  simp only [hm]
  rfl

/-- All fragments pass. -/
theorem exists_passed (hm : identity o "ir.meta.core" = .ok m) (s : Session κ) :
    ∃ t, InTurn (FragmentPasses o fragments) [0, 1, 2, 3, 4] (.empty, s) (planned o m, t) := by
  obtain ⟨s₁, hidentity⟩ : ∃ t, FragmentPasses o fragments 0 (.empty, s) (identified m, t) :=
    exists_passes rfl (leaves_identityFragment hm (Draft.freeFor_of_none rfl)) s
  obtain ⟨s₂, hlayout⟩ : ∃ t, FragmentPasses o fragments 1 (identified m, s₁) (located o m, t) :=
    exists_passes rfl (leaves_layoutFragment (Draft.freeFor_of_none (owner?_identified nofun))) s₁
  obtain ⟨s₃, hresources⟩ : ∃ t,
      FragmentPasses o fragments 2 (located o m, s₂) (resourced o m, t) :=
    exists_passes rfl (leaves_giveResources fun _ =>
      Draft.freeFor_of_none (owner?_located nofun nofun)) s₂
  obtain ⟨s₄, hcapabilities⟩ : ∃ t,
      FragmentPasses o fragments 3 (resourced o m, s₃) (guarded o m, t) :=
    exists_passes rfl (leaves_capabilitiesFragment
      (Draft.freeFor_of_none (owner?_resourced nofun nofun nofun))) s₃
  obtain ⟨s₅, hplan⟩ : ∃ t, FragmentPasses o fragments 4 (guarded o m, s₄) (planned o m, t) :=
    exists_passes rfl (leaves_planFragment (layout_guarded o m)
      (Draft.freeFor_of_none (owner?_guarded o m))) s₄
  exact ⟨s₅, .cons hidentity (.cons hlayout (.cons hresources (.cons hcapabilities
    (.cons hplan .nil))))⟩

/-- **What the core fragments make of the settings.** The phase succeeds just if the project has an
identity, whatever the world is and whichever families are required; and then what it leaves is
read off the settings. Otherwise it fails for the reason that the identity has. -/
theorem exists_runFragments (o : RunOptions) (families : List String) (s : Session κ) :
    ∃ t, runFragments registry families o s =
      ((identity o "ir.meta.core").map fun m => ⟨dataOf o m, 0, .empty⟩, t) := by
  rcases hm : identity o "ir.meta.core" with f | m
  · have hfailed : FragmentPhase registry families o s ([] ++ [0]) (.error f) _ :=
      .failed schedule_registry rfl .nil rfl (fails_identityFragment hm _)
    exact ⟨_, hfailed.runFragments_eq⟩
  · obtain ⟨t, hpassed⟩ := exists_passed hm (s.warned o (registry (κ := κ)).fragmentEntries [])
    refine ⟨t, ?_⟩
    rw [FragmentPhase.runFragments_eq (.completed schedule_registry hpassed), finalize_planned]
    rfl

theorem exists_identity_of_runFragments {families : List String} {a : Artifact} {s t : Session κ}
    (h : runFragments registry families o s = (.ok a, t)) :
    ∃ m, identity o "ir.meta.core" = .ok m ∧ a = ⟨dataOf o m, 0, .empty⟩ := by
  obtain ⟨t', hrun⟩ := exists_runFragments o families s
  obtain ⟨hresult, -⟩ := Prod.mk.inj (hrun.symm.trans h)
  rcases hm : identity o "ir.meta.core" with f | m
  · rw [hm] at hresult
    cases hresult
  · rw [hm] at hresult
    exact ⟨m, rfl, (Except.ok.inj hresult).symm⟩

end Stages

end Core

end StagedCodegen
