import StagedCodegen.Proofs.Core.Success
import StagedCodegen.Proofs.Run.Agreement

/-!
# The order of the resources

Resources are given to the draft one after another, and their order is forgotten there: a draft
keeps them by name, and it keeps their owners by field (`Core.given_perm`). So if no two of them
have the same name, they can be given in any order, and whoever comes later finds the same draft.
That the fragment is not refused takes that nobody else owns any of these fields, which all
fragments leave so (`Core.fragments_leave_free`).

Main statement: `Core.run_perm`.
-/

namespace StagedCodegen

open StagedCodegen.Representation

variable {κ : Type} {o : RunOptions}

/-- The same options, but for settings with these resources. -/
def RunOptions.withResources (o : RunOptions) (rs : List Resource) : RunOptions :=
  { o with settings := { o.settings with project := { o.settings.project with resources := rs } } }

namespace Representation.Draft

variable {d d' : Draft} {w w' : Writer} {write : DraftWrite} {f : Field}

/-- Writes of the same writer to different resources can be made in any order. -/
theorem written_comm {r r' : Resource} (hne : r.name ≠ r'.name) (d : Draft) (w : Writer) :
    (d.written w (.resource r)).written w (.resource r') =
      (d.written w (.resource r')).written w (.resource r) := by
  have hfields : (DraftWrite.resource r).field ≠ (DraftWrite.resource r').field := by
    rw [DraftWrite.field_eq, DraftWrite.field_eq]
    exact fun htext => hne (Field.resource.inj (Field.text_injective htext))
  have hresources := SortedMap.insert_comm hne d.resources r r'
  have howners := SortedMap.insert_comm hfields d.owners w.key w.key
  simp only [written, store, hresources, howners]

theorem FreeFor.assigned (h : d.FreeFor w f) (hassign : d.assign w' write = .ok d')
    (hwrite : write.target = f → w'.key = w.key) : d'.FreeFor w f := by
  rw [assign_of_ok hassign]
  intro owner howner
  rw [owner?_written] at howner
  split at howner
  · next htext =>
    exact (Option.some.inj howner).symm.trans (hwrite (Field.text_injective htext).symm)
  · exact h owner howner

end Representation.Draft

namespace Core

variable {w : Writer} {d : Draft} {rs rs' : List Resource}

/-! ## Giving resources in any order -/

/-- The order in which resources of different names are given does not matter. -/
theorem given_perm (w : Writer) (d : Draft) (hperm : rs'.Perm rs)
    (hnodup : (rs.map (·.name)).Nodup) :
    given w rs' d = given w rs d := by
  refine hperm.foldl_eq' (fun r hr r' hr' d => ?_) d
  by_cases hname : r.name = r'.name
  · rw [List.inj_on_of_nodup_map hnodup (hperm.mem_iff.mp hr) (hperm.mem_iff.mp hr') hname]
  · exact Draft.written_comm hname d w

/-- What the fragment of the resources leaves, whatever else the options are. -/
theorem runFragment_resources (o : RunOptions) (entry : FragmentEntry)
    (hfree : ∀ name, d.FreeFor ⟨entry.key, entry.mode⟩ (.resource name)) (v : World κ) :
    runFragment o entry resourcesFragment d v =
      (.ok (given ⟨entry.key, entry.mode⟩ o.settings.project.resources d, none), v) := by
  have hends : FragmentEnds o (entry, resourcesFragment) (v, d) (.ok ())
      ⟨v, given ⟨entry.key, entry.mode⟩ o.settings.project.resources d, none⟩ :=
    fragmentEnds_iff.2 (run_giveResources hfree v)
  exact runFragment_eq_ok_iff.2 hends

/-! ## Who owns the resources -/

/-- Nobody but the fragment of the resources has given any. -/
def Ungiven (d : Draft) : Prop := ∀ name, d.FreeFor ⟨resourcesKey, .extend⟩ (.resource name)

theorem ungiven_empty : Ungiven .empty := fun _ => Draft.freeFor_of_none rfl

/-- The write is not to a resource. -/
def Elsewhere : DraftWrite → Prop
  | .resource _ => False
  | _ => True

theorem Elsewhere.target_ne {write : DraftWrite} (h : Elsewhere write) (name : String) :
    write.target ≠ .resource name := by
  intro htarget
  cases write <;> cases htarget
  exact h

-- the namespace must not be computed
attribute [local irreducible] identity

/-- Every core fragment leaves the resources to the one that gives them. -/
theorem fragments_leave_free (o : RunOptions) :
    ∀ e ∈ fragments (κ := κ), FragmentKeeps o Ungiven e := by
  have helsewhere : ∀ {w : Writer} {write d d'}, Elsewhere write → Ungiven d →
      d.assign w write = .ok d' → Ungiven d' := fun hwrite hd hassign name =>
    (hd name).assigned hassign fun htarget => absurd htarget (hwrite.target_ne name)
  simp only [fragments, List.forall_mem_cons, List.not_mem_nil, false_imp_iff, implies_true,
    and_true]
  refine ⟨?_, ?_, ?_, ?_, ?_⟩
  · exact keeps_of_writesOnly helsewhere (only_identityFragment fun _ => trivial)
  · exact keeps_of_writesOnly helsewhere (only_layoutFragment trivial)
  · exact keeps_of_writesOnly (Q := fun _ => True)
      (fun _ hd hassign name => (hd name).assigned hassign fun _ => rfl)
      (only_giveResources (fun _ => trivial) _)
  · exact keeps_of_writesOnly helsewhere
      (only_capabilitiesFragment trivial (fun _ _ _ => trivial) fun _ => trivial)
  · exact keeps_of_writesOnly helsewhere (only_planFragment trivial fun _ => trivial)

/-! ## Runs with reordered resources -/

theorem identity_withResources (o : RunOptions) (rs : List Resource) (key : String) :
    identity (o.withResources rs) key = identity o key := by
  unfold identity
  rfl

/-- Reordered resources make no difference to any core fragment. -/
theorem fragments_agree (hperm : rs.Perm o.settings.project.resources)
    (hnodup : (o.settings.project.resources.map (·.name)).Nodup) :
    ∀ e ∈ fragments (κ := κ), FragmentAgrees o (o.withResources rs) Ungiven e := by
  simp only [fragments, List.forall_mem_cons, List.not_mem_nil, false_imp_iff, implies_true,
    and_true]
  refine ⟨fun d _ => ?_, fun d _ => rfl, fun d hd => ?_, fun d _ => rfl, fun d _ => rfl⟩
  · unfold runFragment
    simp only [identityFragment, identity_withResources]
    rfl
  · have hgiven : ∀ (o : RunOptions) v, runFragment (κ := κ) o _ resourcesFragment d v = _ :=
      fun o => runFragment_resources o ⟨resourcesKey, [], .extend, some origin⟩ hd
    funext v
    rw [hgiven, hgiven]
    exact congrArg (fun given => (Except.ok (given, none), v)) (given_perm _ d hperm hnodup)

/-- Reordered resources make no difference to any core builder, given the artifact. -/
theorem builders_agree (o : RunOptions) (rs : List Resource) :
    ∀ e ∈ builders (κ := κ), BuilderAgrees o (o.withResources rs) e := by
  simp only [builders, List.forall_mem_cons, List.not_mem_nil, false_imp_iff, implies_true,
    and_true]
  exact ⟨fun _ => rfl, fun _ => rfl, fun _ => rfl⟩

/-- **The order of the resources does not matter.** If no two resources have the same name, then a
run of the core helpers alone is the same for whatever reordering of them the settings have: it
succeeds or fails in the same way, with the same artifact and so the same fingerprint, the same
queue, the same diagnostics and steps in the same order, and it leaves the same world. -/
theorem run_perm {p q : Pipeline κ} {w : World κ} (hempty : p.registry = .empty)
    (halone : p.extensions = []) (hcore : registerAll p = (.ok (), q))
    (hnodup : (o.settings.project.resources.map (·.name)).Nodup)
    (hperm : rs.Perm o.settings.project.resources) :
    q.run (o.withResources rs) w = q.run o w := by
  obtain rfl := eq_of_registerAll hempty hcore
  exact Pipeline.run_congr o (o.withResources rs) (p := { p with registry := registry }) halone rfl
    ungiven_empty (fragments_agree hperm hnodup) (fragments_leave_free o) (builders_agree o rs) w

/-- Three resources, two of which name capabilities for which nothing is configured. -/
def guarding : RunOptions := { sharing with
  settings := { sharing.settings with
    project := ⟨"demo", "0.1.0", [⟨"books", "/books", some "edit"⟩,
      ⟨"films", "/films", some "watch"⟩,
      ⟨"songs", "/songs", none⟩], .empty⟩ } }

/-- The same resources in another order. -/
def shuffled : List Resource :=
  [⟨"songs", "/songs", none⟩, ⟨"films", "/films", some "watch"⟩, ⟨"books", "/books", some "edit"⟩]

theorem run_perm_shuffled : ∃ (r : RunResult) (s : Session Unit),
    (.new : Pipeline Unit).registry = .empty ∧ (.new : Pipeline Unit).extensions = [] ∧
      registerAll (.new : Pipeline Unit) = (.ok (), alone) ∧
      (guarding.settings.project.resources.map (·.name)).Nodup ∧
      shuffled.Perm guarding.settings.project.resources ∧
      alone.run guarding ⟨⟨[], []⟩, [], [], ()⟩ = (.ok r, s) ∧
      alone.run (guarding.withResources shuffled) ⟨⟨[], []⟩, [], [], ()⟩ = (.ok r, s) := by
  have hspeakable : Speakable guarding := by decide +kernel
  have hcore : registerAll (.new : Pipeline Unit) = (.ok (), alone) := registerAll_eq rfl
  have hnodup : (guarding.settings.project.resources.map (·.name)).Nodup := by decide
  have hperm : shuffled.Perm guarding.settings.project.resources := by decide
  obtain ⟨r, s, hrun⟩ : ∃ r s, alone.run guarding ⟨⟨[], []⟩, [], [], ()⟩ = (.ok r, s) :=
    exists_run_of_speakable hspeakable usualFamilies _
  exact ⟨r, s, rfl, rfl, hcore, hnodup, hperm, hrun,
    (run_perm rfl rfl hcore hnodup hperm).trans hrun⟩

end Core

end StagedCodegen
