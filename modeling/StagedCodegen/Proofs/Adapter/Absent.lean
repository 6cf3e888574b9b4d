import StagedCodegen.Proofs.Core.Manifest
import StagedCodegen.Proofs.Disk.Confinement
import StagedCodegen.Proofs.Run.Adapters

/-!
# Runs without adapters

If nobody makes adapters, their hook succeeds and leaves everything as it is
(`Adapters.exists_hook_of_nil`). So a run builds the artifact that was drafted
(`Pipeline.built_of_prepares`), and it succeeds if the fragments and the builders do
(`Pipeline.exists_run_of_nil`).
-/

namespace StagedCodegen

open StagedCodegen.Representation (Artifact)

variable {κ : Type} {as : Adapters κ} {o : RunOptions} {w w' : World κ}

/-- Nothing is queued in a new sandbox. -/
theorem Sandbox.commit_of_new {d : Disk} {dir : Path} {hasScratch : Bool} {s : Sandbox}
    (h : Sandbox.new d dir hasScratch = .ok s) (writer : FileWriter (World κ)) :
    (s.transaction writer).commit = pure () := by
  rw [eq_of_new h]
  rfl

/-- Any directory can be that of a sandbox. -/
theorem Sandbox.exists_new (d : Disk) (dir : Path) (hasScratch : Bool) :
    ∃ sb, Sandbox.new d dir hasScratch = .ok sb := by
  obtain ⟨A, B, F, n, -, -, -, -, -, hreach⟩ := d.exists_reach_eq dir
  rw [Sandbox.new, Disk.canonicalBoundary, Disk.resolveExisting_eq, hreach]
  exact ⟨_, rfl⟩

-- a sandbox is made by resolving a path, which must not be computed
attribute [local irreducible] Sandbox.new

/-- Without adapters, their hook succeeds. It leaves the artifact as it is, and what it has begun is
made final by doing nothing. -/
theorem Adapters.exists_hook_of_nil (has : as.factories = []) (v : HookView) (a : Artifact)
    (w : World κ) : ∃ (changed : Option Artifact) (t : Transaction κ),
      as.hook v a w = (.ok ⟨changed, some t⟩, w) ∧ (∀ b, changed = some b → b = a) ∧
        t.commit = pure () := by
  obtain ⟨sb, hnew⟩ := Sandbox.exists_new w.disk (as.options v).outputDir false
  have hrun :
      runAdapters (as.options v) as.factories a v.options.settings w = (.ok (a, sb), w) := by
    rw [has, runAdapters]
    simp only [collectAdapters, collectAdaptersFrom, Attempt.pure_apply, List.isEmpty_nil,
      Bool.not_true, hnew]
    rfl
  refine ⟨_, _, Attempt.bind_eq_ok.mpr ⟨_, _, hrun, rfl⟩, fun b hb => ?_,
    Sandbox.commit_of_new hnew as.writer⟩
  split at hb
  · cases hb
  · exact (Option.some.inj hb).symm

theorem Adapters.hook_of_nil (has : as.factories = []) {v : HookView} {a : Artifact}
    {outcome : HookOutcome κ} (h : as.hook v a w = (.ok outcome, w')) :
    (∀ b, outcome.artifact = some b → b = a) ∧
      ∃ t, outcome.transaction = some t ∧ t.commit = pure () := by
  obtain ⟨changed, t, hhook, hchanged, hcommit⟩ := exists_hook_of_nil has v a w
  obtain ⟨houtcome, -⟩ := Prod.mk.inj (hhook.symm.trans h)
  obtain rfl := Except.ok.inj houtcome
  exact ⟨hchanged, t, rfl, hcommit⟩

theorem Adapters.keepsPlan_of_nil (has : as.factories = []) : as.extension.KeepsPlan := by
  intro o w h v hregister
  cases hregister
  intro v a w outcome x b hhook hb
  rw [(hook_of_nil has hhook).1 b hb]

section Pipeline

variable {p : Pipeline κ} {b : Artifact} {l : Ledger κ} {queue : List QueuedWrite} {u : Session κ}
  (hextensions : p.extensions = [as.extension]) (has : as.factories = [])

include hextensions has

/-- Without adapters, a run builds the artifact that was drafted, and one transaction is begun, with
nothing to do. -/
theorem Pipeline.built_of_prepares (h : p.Prepares o w b l queue u) :
    (∃ s s', runFragments p.registry p.requiredFamilies o s = (.ok b, s')) ∧
      (∃ t, InTurn (BuilderSucceeds o b p.registry.builders)
        (Schedule.builders p.registry.builderEntries) ([], t) (queue, u)) ∧
      ∃ rollback, l = [(Adapters.key, ⟨pure (), rollback⟩)] := by
  obtain ⟨hooks, a, s, t, begins, hooked, hbuilt⟩ := h
  obtain ⟨s₀, hcollect, hdraft⟩ := begins_iff.1 begins
  have hdrafted : ∃ s s', runFragments p.registry p.requiredFamilies o s = (.ok a, s') :=
    ⟨s₀, s, hdraft⟩
  rw [hextensions] at hcollect
  cases hcollect
  rcases hooked with _ | ⟨⟨outcome, x, hcall, hleft⟩, hnone⟩
  cases hnone
  have hhook : as.hook (Adapters.hookView o) a s.world = (.ok outcome, _) :=
    Session.world_of_call hcall
  obtain ⟨hsame, ⟨commit, rollback⟩, htransaction, hcommit⟩ := Adapters.hook_of_nil has hhook
  obtain rfl : commit = pure () := hcommit
  cases hleft
  refine ⟨?_, ⟨_, hbuilt⟩, rollback, by rw [htransaction]; rfl⟩
  rcases houtcome : outcome.artifact with _ | b
  · exact hdrafted
  · exact hsame b houtcome ▸ hdrafted

/-- A run without adapters leaves alone what the helpers do. -/
theorem Pipeline.view_of_run {β : Type} {view : World κ → β} (hp : p.HelpersSpare view)
    {r : RunResult} {s : Session κ} (h : p.run o w = (.ok r, s)) : view s.world = view w := by
  have hspares : p.Spares view := by
    refine ⟨hp, ?_⟩
    rw [hextensions]
    refine List.forall_mem_singleton.mpr (Adapters.spares_extension hp.say ?_)
    rw [has]
    exact fun f hf => absurd hf List.not_mem_nil
  have hkept := hspares.prepare (o := o) (c := view w) (.start w) rfl
  rcases hprepare : p.prepare o (.start w) with ⟨f | ⟨b, l, queue⟩, u⟩
  · cases h.symm.trans (run_of_prepare_error hprepare)
  · rw [hprepare] at hkept
    obtain ⟨-, -, rollback, rfl⟩ :=
      built_of_prepares hextensions has (prepare_eq_ok_iff.mp hprepare)
    rw [run_of_prepare hprepare] at h
    cases h
    exact hkept

/-- Without adapters, a run succeeds if the fragments and the builders do. -/
theorem Pipeline.exists_run_of_nil
    (hdraft : ∀ s, ∃ t, runFragments p.registry p.requiredFamilies o s = (.ok b, t))
    (hbuilt : ∀ s, ∃ queue t, InTurn (BuilderSucceeds o b p.registry.builders)
      (Schedule.builders p.registry.builderEntries) ([], s) (queue, t)) (w : World κ) :
    ∃ r t, p.run o w = (.ok r, t) := by
  obtain ⟨s, hcollect⟩ : ∃ s,
      collectHooks o p.extensions (.start w) = (.ok [(Adapters.key, as.hook)], s) := by
    rw [hextensions]
    exact ⟨_, rfl⟩
  obtain ⟨t, hdraft⟩ := hdraft s
  obtain ⟨changed, x, hhook, hchanged, -⟩ :=
    Adapters.exists_hook_of_nil has (Adapters.hookView o) b t.world
  have hcall : callHook o ((Adapters.key, as.hook), 0) b t = (.ok ⟨changed, some x⟩, _) :=
    Session.call_of_eq hhook
  have hsame : changed.getD b = b := by
    rcases changed with _ | a
    · rfl
    · exact hchanged a rfl
  obtain ⟨t', hooked⟩ : ∃ t', InTurn (HookSucceeds o) [((Adapters.key, as.hook), 0)]
      ((b, []), t) ((b, [(Adapters.key, x)]), t') :=
    ⟨_, .cons (y := ((b, [(Adapters.key, x)]), _))
      ⟨_, _, hcall, Prod.ext (Prod.ext hsame.symm rfl) rfl⟩ .nil⟩
  obtain ⟨queue, u, hbuilt⟩ := hbuilt t'
  have hprepares : p.Prepares o w b _ queue u :=
    ⟨_, b, t, t', begins_iff.2 ⟨s, hcollect, hdraft⟩, hooked, hbuilt⟩
  obtain ⟨-, -, rollback, hledger⟩ := built_of_prepares hextensions has hprepares
  rw [run_of_prepare (prepare_eq_ok_iff.mpr hprepares), hledger]
  exact ⟨_, _, rfl⟩

omit has in
/-- Without adapters, a run fails if the fragments do. -/
theorem Pipeline.exists_run_of_undrafted {f : Failure}
    (hdraft : ∀ s, ∃ t, runFragments p.registry p.requiredFamilies o s = (.error f, t))
    (w : World κ) : ∃ t, p.run o w = (.error f, t) := by
  obtain ⟨s, hcollect⟩ : ∃ s,
      collectHooks o p.extensions (.start w) = (.ok [(Adapters.key, as.hook)], s) := by
    rw [hextensions]
    exact ⟨_, rfl⟩
  obtain ⟨t, hdraft⟩ := hdraft s
  obtain ⟨ran, hphase⟩ := runFragments_eq_iff.1 hdraft
  exact ⟨_, (Course.undrafted hcollect hphase).run_eq⟩

end Pipeline

end StagedCodegen
