import StagedCodegen.Core
import StagedCodegen.Proofs.Run.FragmentPhase
import StagedCodegen.Proofs.Run.Preparation

/-!
# What the core helpers plan

The artifact that the core fragments make plans a controller and a client for each of some names,
and the list of both, in the directories of the settings (`exists_plan_of_prepares`). Two
files of such a plan that go to the same place are of the same kind (`kind_eq_of_path_eq`), and none
of the others goes to the place of the list.
-/

namespace StagedCodegen

open StagedCodegen.Representation

variable {κ : Type} {o : RunOptions} {a b : Artifact} {l : Ledger κ}

/-! ## Extensions -/

/-- If the hook leaves another artifact, it leaves one with the same plan. -/
def Hook.KeepsPlan (h : Hook κ) : Prop :=
  ∀ v a w outcome x b, h v a w = (.ok outcome, x) → outcome.artifact = some b →
    b.data.plan = a.data.plan

/-- The extension registers no other hooks than those that keep the plan. -/
def Extension.KeepsPlan (e : Extension κ) : Prop :=
  ∀ o w h v, e.register o w = (.ok (some h), v) → h.KeepsPlan

theorem keepsPlan_of_collectHooksFrom {es : List (Extension κ)} (hes : ∀ e ∈ es, e.KeepsPlan)
    {i : Nat} {hooks : List (String × Hook κ)} {s t : Session κ}
    (h : collectHooksFrom o i es s = (.ok hooks, t)) : ∀ hook ∈ hooks, hook.2.KeepsPlan := by
  induction es generalizing i hooks s t with
  | nil =>
    cases h
    exact fun _ h => absurd h List.not_mem_nil
  | cons e es ih =>
    obtain ⟨he, hes⟩ := List.forall_mem_cons.1 hes
    obtain ⟨hook, u, hcall, h⟩ := Attempt.bind_eq_ok.1 h
    obtain ⟨others, v, hothers, h⟩ := Attempt.bind_eq_ok.1 h
    have hrest := ih hes hothers
    rcases hook with _ | first
    · cases h
      exact hrest
    · cases h
      refine List.forall_mem_cons.2 ⟨?_, hrest⟩
      exact he o s.world first _ (Session.world_of_call hcall)

/-- Hooks that succeed in turn and keep the plan leave an artifact with the same plan. -/
theorem plan_of_hooked {hooks : List ((String × Hook κ) × Nat)}
    (hhooks : ∀ hook ∈ hooks, hook.1.2.KeepsPlan) {x y : (Artifact × Ledger κ) × Session κ}
    (h : InTurn (HookSucceeds o) hooks x y) : y.1.1.data.plan = x.1.1.data.plan := by
  induction h with
  | nil => rfl
  | @cons hook rest x y z first others ih =>
    obtain ⟨hhook, hrest⟩ := List.forall_mem_cons.1 hhooks
    obtain ⟨outcome, t, hcall, rfl⟩ := first
    rw [ih hrest]
    rcases hartifact : outcome.artifact with _ | b
    · rfl
    · exact hhook _ x.1.1 _ outcome _ b (Session.world_of_call hcall) hartifact

/-- A run that succeeds has been prepared. -/
theorem Pipeline.prepares_of_run {p : Pipeline κ} {w : World κ} {r : RunResult} {s : Session κ}
    (h : p.run o w = (.ok r, s)) : ∃ l u, p.Prepares o w r.artifact l r.writes u := by
  rcases hprepare : p.prepare o (.start w) with ⟨f | ⟨b, l, queue⟩, u⟩
  · cases h.symm.trans (run_of_prepare_error hprepare)
  · rw [run_of_prepare hprepare] at h
    rcases hcommit : l.commitAll u with ⟨f | ⟨⟩, v⟩
    · rw [hcommit] at h
      cases h
    · rw [hcommit] at h
      cases h
      exact ⟨l, u, prepare_eq_ok_iff.1 hprepare⟩

namespace Core

variable {d d' : Draft}

/-! ## Registration -/

/-- The core helpers alone. -/
def registry : Registry (FragmentBehaviour κ) (BuilderBehaviour κ) := ⟨fragments, builders, .empty⟩

/-- Fragments that extend, under keys that are not blank, register one after another. -/
theorem registerEach_fragments (fs : List (FragmentEntry × FragmentBehaviour κ))
    (h : ∀ e ∈ fs, Text.isBlankText e.1.key = false ∧ e.1.mode = .extend)
    (rest : List (Helper (FragmentBehaviour κ) (BuilderBehaviour κ))) (p : Pipeline κ) :
    registerEach (fs.map (fun e => .fragment e.1 e.2) ++ rest) p = registerEach rest
      { p with registry := { p.registry with fragments := p.registry.fragments ++ fs } } := by
  induction fs generalizing p with
  | nil => simp
  | cons e fs ih =>
    obtain ⟨⟨hkey, hmode⟩, hrest⟩ := List.forall_mem_cons.1 h
    have hfirst : Pipeline.register .fragment (.fragment e.1 e.2) p = (.ok (),
        { p with registry := { p.registry with fragments := p.registry.fragments ++ [e] } }) := by
      simp [Pipeline.register, Attempt.onPart, Registry.registerFragment, hkey,
        Registry.addFragment, hmode]
    rw [List.map_cons, List.cons_append, registerEach, Attempt.bind_apply]
    simp only [Helper.kind, hfirst]
    rw [ih hrest]
    simp

/-- Builders under keys that are not blank register one after another. -/
theorem registerEach_builders (bs : List (BuilderEntry × BuilderBehaviour κ))
    (h : ∀ e ∈ bs, Text.isBlankText e.1.key = false) (p : Pipeline κ) :
    registerEach (bs.map fun e => .builder e.1 e.2) p = (.ok (),
      { p with registry := { p.registry with builders := p.registry.builders ++ bs } }) := by
  induction bs generalizing p with
  | nil => simp [registerEach]
  | cons e bs ih =>
    obtain ⟨hkey, hrest⟩ := List.forall_mem_cons.1 h
    have hfirst : Pipeline.register .builder (.builder e.1 e.2) p = (.ok (),
        { p with registry := { p.registry with builders := p.registry.builders ++ [e] } }) := by
      simp [Pipeline.register, Attempt.onPart, Registry.registerBuilder, hkey]
    rw [List.map_cons, registerEach, Attempt.bind_apply]
    simp only [Helper.kind, hfirst]
    rw [ih hrest]
    simp

/-- Whoever starts without helpers gets the core helpers. -/
theorem registerAll_eq {p : Pipeline κ} (h : p.registry = .empty) :
    registerAll p = (.ok (), { p with registry := registry }) := by
  have hfragments : ∀ e ∈ fragments (κ := κ),
      Text.isBlankText e.1.key = false ∧ e.1.mode = .extend := by
    simp only [fragments, List.forall_mem_cons, List.not_mem_nil, false_imp_iff, implies_true]
    decide
  have hbuilders : ∀ e ∈ builders (κ := κ), Text.isBlankText e.1.key = false := by
    simp only [builders, List.forall_mem_cons, List.not_mem_nil, false_imp_iff, implies_true]
    decide
  rw [registerAll, registerEach_fragments _ hfragments, registerEach_builders _ hbuilders, h]
  rfl

theorem eq_of_registerAll {p q : Pipeline κ} (h : p.registry = .empty)
    (hcore : registerAll p = (.ok (), q)) : q = { p with registry := registry } :=
  (Prod.mk.inj (hcore.symm.trans (registerAll_eq h))).2

/-! ## The orders -/

/-- What is known of the core fragments. -/
def entries : List FragmentEntry :=
  [⟨"ir.meta.core", [], .extend, some origin⟩, ⟨layoutKey, [], .extend, some origin⟩,
    ⟨resourcesKey, [], .extend, some origin⟩,
    ⟨"ir.capability-map.core", [resourcesKey], .extend, some origin⟩,
    ⟨"ir.artifacts.plan", [layoutKey, resourcesKey], .extend, some origin⟩]

theorem fragmentEntries_registry : (registry (κ := κ)).fragmentEntries = entries := by
  rw [Registry.fragmentEntries, registry, fragments]
  rfl

/-- Only the last two core fragments depend on others, and not on each other. -/
theorem dependsOn_entries {k d : String} (h : Schedule.DependsOn entries k d) :
    k ∈ ["ir.capability-map.core", "ir.artifacts.plan"] ∧ d ∈ [layoutKey, resourcesKey] := by
  obtain ⟨i, f, hf, rfl, hd⟩ := h
  have hmem := List.mem_of_getElem? hf.1
  simp only [entries, List.mem_cons, List.not_mem_nil, or_false] at hmem
  rcases hmem with rfl | rfl | rfl | rfl | rfl <;> simp_all

/-- The core fragments run in the order of registration. -/
theorem schedule_registry :
    Schedule.fragments (registry (κ := κ)).fragmentEntries = .ok ⟨[0, 1, 2, 3, 4], []⟩ := by
  have hknown : Schedule.AllKnown entries :=
    Schedule.unknownDependency?_eq_none_iff.1 (by decide +kernel)
  have hacyclic : Schedule.Acyclic entries := by
    intro k hk
    obtain ⟨c, hkc, -⟩ := Relation.TransGen.head'_iff.1 hk
    obtain ⟨b, -, hbk⟩ := Relation.TransGen.tail'_iff.1 hk
    have hfirst := (dependsOn_entries hkc).1
    have hlast := (dependsOn_entries hbk).2
    simp only [List.mem_cons, List.not_mem_nil, or_false] at hfirst
    rcases hfirst with rfl | rfl <;> exact absurd hlast (by decide)
  have horder : Schedule.order 5 (Schedule.active entries) = [0, 1, 2, 3, 4] := by decide +kernel
  have hsuperseded : Schedule.superseded entries = [] := by decide +kernel
  rw [fragmentEntries_registry, Schedule.fragments_of_acyclic hknown hacyclic]
  exact congrArg Except.ok (congrArg₂ FragmentSchedule.mk horder hsuperseded)

theorem builderEntries_registry : (registry (κ := κ)).builderEntries =
    [⟨"builder.php.controllers", 20, some origin⟩, ⟨"builder.ts.clients", 10, some origin⟩,
      ⟨"builder.manifest", 0, some origin⟩] := by
  rw [Registry.builderEntries, registry, builders]
  rfl

/-- The core builders run in the order of registration, too. -/
theorem builders_registry : Schedule.builders (registry (κ := κ)).builderEntries = [0, 1, 2] := by
  rw [builderEntries_registry, Schedule.builders, List.mergeSort_of_pairwise]
  · rfl
  · simp [Schedule.precedes, List.zipIdx]

/-! ## The directories and the plan of a draft -/

/-- The draft has the directories of the settings and a plan of the core, as far as it has them. -/
structure Planned (o : RunOptions) (d : Draft) : Prop where
  layout : ∀ l, d.layout = some l → l = layout o.settings.output
  plan : ∀ p, d.plan = some p → ∃ names, p = Core.plan (Core.layout o.settings.output) names

/-- What a fragment may write so that a draft stays as planned. -/
def Writes (o : RunOptions) : DraftWrite → Prop
  | .layout l => l = Core.layout o.settings.output
  | .plan p => ∃ names, p = plan (layout o.settings.output) names
  | _ => True

theorem planned_empty : Planned o .empty := ⟨fun _ h => (nomatch h), fun _ h => (nomatch h)⟩

theorem Planned.assign {w : Writer} {write : DraftWrite} (h : Planned o d) (hwrite : Writes o write)
    (hassign : d.assign w write = .ok d') : Planned o d' := by
  have hstored : Planned o (d.store write) := by
    cases write with
    | layout l => exact ⟨fun _ hl => Option.some.inj hl ▸ hwrite, h.plan⟩
    | plan p => exact ⟨h.layout, fun _ hp => Option.some.inj hp ▸ hwrite⟩
    | identity | capabilityMap | resource | extra | attachment => exact ⟨h.layout, h.plan⟩
  have hd' : d' = { d.store write with owners := d.owners.insert write.field w.key } := by
    unfold Draft.assign at hassign
    split at hassign
    · split at hassign
      · cases hassign
      · exact (Except.ok.inj hassign).symm
    · exact (Except.ok.inj hassign).symm
  rw [hd']
  exact ⟨hstored.layout, hstored.plan⟩

/-! ## What the fragments write -/

/-- A request that writes nothing else. -/
def WritesOnly (Q : DraftWrite → Prop) : FragmentRequest κ → Prop
  | .assign write => Q write
  | _ => True

/-- A fragment that writes nothing else keeps what these writes keep, when it is the one that
writes. -/
theorem keeps_of_writesOnly {P : Draft → Prop} {Q : DraftWrite → Prop} {entry : FragmentEntry}
    {behaviour : FragmentBehaviour κ}
    (hassign : ∀ {write d d'}, Q write → P d →
      d.assign ⟨entry.key, entry.mode⟩ write = .ok d' → P d')
    (h : Program.Only (I := fragmentInterface κ) (WritesOnly Q)
      (behaviour ⟨o, entry.key, Scope.child o.scope entry.key⟩).run) :
    FragmentKeeps o P (entry, behaviour) := by
  intro d w d' stop w' hd hrun
  have hstep : ∀ r (s : FragmentState κ), WritesOnly Q r → P s.draft →
      P (FragmentState.serve ⟨entry.key, entry.mode⟩ r s).2.draft := by
    intro r s hr hs
    cases r with
    | outside | look | stop => exact hs
    | assign write =>
      rw [FragmentState.serve]
      rcases hok : s.draft.assign ⟨entry.key, entry.mode⟩ write with f | d'
      · simpa [Draft.put, hok] using hs
      · simpa [Draft.put, hok] using hassign hr hs hok
  have hkept := Program.run_only (I := fragmentInterface κ)
    (P := fun s : FragmentState κ => P s.draft) hstep h (s := ⟨w, d, none⟩) hd
  rwa [fragmentEnds_iff.1 hrun] at hkept

section Fragments

-- the namespace must not be computed
attribute [local irreducible] identity

variable {Q : FragmentRequest κ → Prop} {v : FragmentView}

theorem only_identityFragment (hassign : ∀ m, Q (.assign (.identity m))) :
    Program.Only (I := fragmentInterface κ) Q (identityFragment v).run :=
  Program.only_bindExcept (Program.only_ofExcept _) fun m => ⟨hassign m, fun _ => trivial⟩

theorem only_layoutFragment (hassign : Q (.assign (.layout (layout v.options.settings.output)))) :
    Program.Only (I := fragmentInterface κ) Q (layoutFragment v).run := ⟨hassign, fun _ => trivial⟩

theorem only_giveResources (hassign : ∀ r, Q (.assign (.resource r))) (rs : List Resource) :
    Program.Only (I := fragmentInterface κ) Q (giveResources rs).run := by
  induction rs with
  | nil => trivial
  | cons r rs ih => exact Program.only_bindExcept ⟨hassign r, fun _ => trivial⟩ fun _ => ih

theorem only_warnOfMissing
    (hwarn : ∀ scope message context, Q (.outside fun w => w.warn scope message context))
    (scope : Scope) (missing : List String) :
    Program.Only (I := fragmentInterface κ) Q (warnOfMissing scope missing).run := by
  induction missing with
  | nil => trivial
  | cons key rest ih =>
    exact Program.only_bindExcept ⟨hwarn _ _ _, fun _ => trivial⟩ fun _ => ih

theorem only_capabilitiesFragment (hlook : Q .look)
    (hwarn : ∀ scope message context, Q (.outside fun w => w.warn scope message context))
    (hassign : ∀ m, Q (.assign (.capabilityMap m))) :
    Program.Only (I := fragmentInterface κ) Q (capabilitiesFragment v).run := by
  refine Program.only_bindExcept ⟨hlook, fun _ => trivial⟩ fun d => ?_
  refine Program.only_bindExcept (only_warnOfMissing hwarn _ _) fun _ => ?_
  exact ⟨hassign _, fun _ => trivial⟩

theorem only_planFragment (hlook : Q .look) (hassign : ∀ p, Q (.assign (.plan p))) :
    Program.Only (I := fragmentInterface κ) Q (planFragment v).run := by
  refine Program.only_bindExcept ⟨hlook, fun _ => trivial⟩ fun d => ?_
  rcases d.layout with _ | l
  · trivial
  · exact ⟨hassign _, fun _ => trivial⟩

/-- What planning does once it has seen the draft. -/
def planFrom (v : FragmentView) (d : Draft) : FragmentProgram κ Unit :=
  match d.layout with
  | none => throw (.rejected v.key "layout must be assigned before planning artifacts")
  | some l => FragmentProgram.assign (.plan (plan l d.resources.keys))

/-- The plan is made for the directories that the draft has. -/
theorem planFragment_keeps (entry : FragmentEntry) :
    FragmentKeeps (κ := κ) o (Planned o) (entry, planFragment) := by
  intro d w d' stop w' hd hrun
  let v : FragmentView := ⟨o, entry.key, Scope.child o.scope entry.key⟩
  have hbind := Program.run_bindExcept (I := fragmentInterface κ)
    (FragmentState.serve ⟨entry.key, entry.mode⟩) FragmentProgram.look (planFrom v) ⟨w, d, none⟩
  have hplan : Program.run (I := fragmentInterface κ)
      (FragmentState.serve ⟨entry.key, entry.mode⟩) (planFrom v d).run ⟨w, d, none⟩ =
        (.ok (), ⟨w', d', stop⟩) := hbind.symm.trans (fragmentEnds_iff.1 hrun)
  rw [planFrom] at hplan
  rcases hl : d.layout with _ | l
  · rw [hl] at hplan
    cases hplan
  · obtain rfl := hd.layout l hl
    rw [hl] at hplan
    replace hplan : FragmentState.serve ⟨entry.key, entry.mode⟩
        (.assign (.plan (plan (Core.layout o.settings.output) d.resources.keys))) ⟨w, d, none⟩ =
          (.ok (), ⟨w', d', stop⟩) := hplan
    have hwrite : Writes o (.plan (plan (Core.layout o.settings.output) d.resources.keys)) :=
      Exists.intro _ rfl
    simp only [FragmentState.serve, Draft.put] at hplan
    split at hplan
    · next hassign =>
      cases hplan
      exact hd.assign hwrite hassign
    · cases hplan

/-- Every core fragment keeps a draft as planned. -/
theorem fragments_keep (o : RunOptions) :
    ∀ e ∈ fragments (κ := κ), FragmentKeeps o (Planned o) e := by
  have hassign : ∀ {w : Writer} {write d d'}, Writes o write → Planned o d →
      d.assign w write = .ok d' → Planned o d' := fun hwrite hd => hd.assign hwrite
  simp only [fragments, List.forall_mem_cons, List.not_mem_nil, false_imp_iff, implies_true,
    and_true]
  refine ⟨?_, ?_, ?_, ?_, planFragment_keeps _⟩
  · exact keeps_of_writesOnly hassign (only_identityFragment fun _ => trivial)
  · exact keeps_of_writesOnly hassign (only_layoutFragment rfl)
  · exact keeps_of_writesOnly hassign (only_giveResources (fun _ => trivial) _)
  · exact keeps_of_writesOnly hassign
      (only_capabilitiesFragment trivial (fun _ _ _ => trivial) fun _ => trivial)

/-- The core fragments leave alone what is not said to the user. -/
theorem fragments_spare {β : Type} {view : World κ → β}
    (hsay : ∀ w d, view (World.say w d) = view w) :
    ∀ e ∈ fragments (κ := κ), ∀ v,
      Program.Only (I := fragmentInterface κ) (FragmentRequest.Spares view) (e.2 v).run := by
  simp only [fragments, List.forall_mem_cons, List.not_mem_nil, false_imp_iff, implies_true,
    and_true]
  refine ⟨fun v => ?_, fun v => ?_, fun v => ?_, fun v => ?_, fun v => ?_⟩
  · exact only_identityFragment fun _ => trivial
  · exact only_layoutFragment trivial
  · exact only_giveResources (fun _ => trivial) _
  · exact only_capabilitiesFragment trivial (fun _ _ _ w => hsay w _) fun _ => trivial
  · exact only_planFragment trivial fun _ => trivial

end Fragments

theorem queueSources_spares {β : Type} (view : World κ → β) (d : Data) (builder : String)
    (es : List PlannedArtifact) : Program.Only (I := builderInterface κ)
      (BuilderRequest.Spares view) (queueSources d builder es).run := by
  induction es with
  | nil => trivial
  | cons e es ih =>
    refine Program.only_bindExcept (Program.only_ofExcept _) fun source => ?_
    rcases source with _ | source
    · exact ih
    · exact Program.only_bindExcept ⟨trivial, fun _ => trivial⟩ fun _ => ih

/-- The core builders leave alone what is not said to the user. -/
theorem builders_spare {β : Type} {view : World κ → β}
    (hsay : ∀ w d, view (World.say w d) = view w) :
    ∀ e ∈ builders (κ := κ), ∀ v,
      Program.Only (I := builderInterface κ) (BuilderRequest.Spares view) (e.2 v).run := by
  simp only [builders, List.forall_mem_cons, List.not_mem_nil, false_imp_iff, implies_true,
    and_true]
  refine ⟨fun v => queueSources_spares view _ _ _, fun v => queueSources_spares view _ _ _,
    fun v => ?_⟩
  refine Program.only_bindExcept (Program.only_ofExcept _) fun files => ?_
  change Program.Only (I := builderInterface κ) _ (ExceptT.run
    (if (v.options.previous.stale files.keys).isEmpty = true then _ else _))
  split
  · split
    · trivial
    · exact ⟨trivial, fun _ => trivial⟩
  · refine Program.only_bindExcept ⟨fun w => hsay w _, fun _ => trivial⟩ fun _ => ?_
    split
    · trivial
    · exact ⟨trivial, fun _ => trivial⟩

theorem helpersSpare {β : Type} {view : World κ → β}
    (hsay : ∀ w d, view (World.say w d) = view w) {p : Pipeline κ} (hp : p.registry = registry) :
    p.HelpersSpare view := by
  refine ⟨hsay, ?_, ?_⟩ <;> rw [hp]
  · exact fragments_spare hsay
  · exact builders_spare hsay

/-- The artifact of the core fragments has a plan for the directories of the settings. -/
theorem exists_plan_of_runFragments {families : List String} {a : Artifact} {s t : Session κ}
    (h : runFragments (registry (κ := κ)) families o s = (.ok a, t)) :
    ∃ names, a.data.plan = plan (layout o.settings.output) names := by
  obtain ⟨d, hd, hfinal⟩ := exists_draft_of_runFragments planned_empty (fragments_keep o) h
  unfold Draft.finalize at hfinal
  split at hfinal <;> cases hfinal
  next hplan => exact hd.plan _ hplan

/-- Whatever extensions do that keep the plan, the artifact of a run of the core helpers has a plan
for the directories of the settings. -/
theorem exists_plan_of_prepares {p : Pipeline κ} (hp : p.registry = registry)
    (hkeep : ∀ e ∈ p.extensions, e.KeepsPlan) {w : World κ} {queue : List QueuedWrite}
    {u : Session κ} (h : p.Prepares o w b l queue u) :
    ∃ names, b.data.plan = plan (layout o.settings.output) names := by
  obtain ⟨hooks, a, s, t, begins, hooked, -⟩ := h
  obtain ⟨s₀, hcollect, hdraft⟩ := Pipeline.begins_iff.1 begins
  rw [hp] at hdraft
  obtain ⟨names, hplan⟩ := exists_plan_of_runFragments hdraft
  have hhooks := keepsPlan_of_collectHooksFrom hkeep hcollect
  have hsame := plan_of_hooked (fun hook hmem => hhooks _ (List.fst_mem_of_mem_zipIdx hmem)) hooked
  exact ⟨names, hsame.trans hplan⟩

/-! ## The places of planned files -/

/-- How the path of a file of this kind ends. -/
def ending : ArtifactKind → List Char
  | .phpController => ['.', 'p', 'h', 'p']
  | .tsClient => ['.', 't', 's']
  | .manifest => ['.', 'j', 's', 'o', 'n']

/-- A file has one kind of ending only. -/
theorem ending_unique {kind kind' : ArtifactKind} {cs : List Char} (h : ending kind <:+ cs)
    (h' : ending kind' <:+ cs) : kind = kind' := by
  have hlast : ∀ {xs : List Char}, xs <:+ cs → xs ≠ [] → cs.getLast? = xs.getLast? := by
    rintro xs ⟨ys, rfl⟩ hne
    exact List.getLast?_append_of_ne_nil _ hne
  have hends := (hlast h (by cases kind <;> simp [ending])).symm.trans
    (hlast h' (by cases kind' <;> simp [ending]))
  cases kind <;> cases kind' <;> first | rfl | simp [ending] at hends

variable {l : Layout} {names : List String} {e e' : PlannedArtifact}

theorem mem_plan : e ∈ (plan l names).entries ↔
    (∃ name ∈ names, plannedController l name = e) ∨ (∃ name ∈ names, plannedClient l name = e) ∨
      e = plannedManifest l := by
  simp [plan]

theorem suffix_of_append {cs : List Char} {s t : String} (h : cs <:+ t.toList) :
    cs <:+ (s ++ t).toList := by
  rw [String.toList_append]
  exact h.trans (List.suffix_append _ _)

/-- The path of a planned file ends as its kind demands. -/
theorem ending_of_mem_plan (h : e ∈ (plan l names).entries) : ending e.kind <:+ e.path.toList := by
  rcases mem_plan.1 h with ⟨name, -, rfl⟩ | ⟨name, -, rfl⟩ | rfl
  · exact suffix_of_append (suffix_of_append ⟨"Controller".toList, rfl⟩)
  · exact suffix_of_append (suffix_of_append ⟨[], rfl⟩)
  · exact suffix_of_append ⟨"manifest".toList, rfl⟩

/-- Planned files that go to the same place are of the same kind. -/
theorem kind_eq_of_path_eq (h : e ∈ (plan l names).entries) (h' : e' ∈ (plan l names).entries)
    (hpath : e.path = e'.path) : e.kind = e'.kind :=
  ending_unique (ending_of_mem_plan h) (hpath ▸ ending_of_mem_plan h')

theorem kind_plannedController (l : Layout) (name : String) :
    (plannedController l name).kind = .phpController := rfl

theorem kind_plannedClient (l : Layout) (name : String) :
    (plannedClient l name).kind = .tsClient := rfl

/-- Files that are planned in the same way are of one kind. -/
theorem filter_kind {f : String → PlannedArtifact} {kind : ArtifactKind}
    (h : ∀ n, (f n).kind = kind) (names : List String) (kind' : ArtifactKind) :
    (names.map f).filter (·.kind = kind') = if kind = kind' then names.map f else [] := by
  rw [List.filter_map]
  split
  · next heq => rw [List.filter_eq_self.mpr fun n _ => by simp [h, heq]]
  · next hne => rw [List.filter_eq_nil_iff.mpr fun n _ => by simp [h, hne], List.map_nil]

theorem ofKind_plan (l : Layout) (names : List String) (kind : ArtifactKind) :
    (plan l names).ofKind kind =
      (if .phpController = kind then names.map (plannedController l) else []) ++
        (if .tsClient = kind then names.map (plannedClient l) else []) ++
        (if .manifest = kind then [plannedManifest l] else []) := by
  have hmanifest : [plannedManifest l].filter (·.kind = kind) =
      if .manifest = kind then [plannedManifest l] else [] := filter_kind (fun _ => rfl) [""] kind
  rw [ArtifactPlan.ofKind, plan, List.filter_append, List.filter_append,
    filter_kind (kind_plannedController l), filter_kind (kind_plannedClient l), hmanifest]

theorem ofKind_phpController (l : Layout) (names : List String) :
    (plan l names).ofKind .phpController = names.map (plannedController l) := by
  rw [ofKind_plan]
  simp

theorem ofKind_tsClient (l : Layout) (names : List String) :
    (plan l names).ofKind .tsClient = names.map (plannedClient l) := by
  rw [ofKind_plan]
  simp

/-- There is one list of what was generated. -/
theorem ofKind_manifest (l : Layout) (names : List String) :
    (plan l names).ofKind .manifest = [plannedManifest l] := by
  rw [ofKind_plan]
  rfl

end Core

end StagedCodegen
