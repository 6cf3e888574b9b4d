import StagedCodegen.Proofs.Run.Course

/-!
# What comes before anything is made final

A run is prepared when all extensions have registered, there is an artifact, and all hooks and all
builders have succeeded (`Pipeline.Prepares`). Only then is anything made final
(`Pipeline.run_of_prepare`). Until then a run touches nothing that its clients leave alone when they
register, run and are undone (`Pipeline.Spares.prepare`).
-/

namespace StagedCodegen

open Session (call)

open StagedCodegen.Representation (Artifact Draft)

variable {κ : Type}

/-! ## Preparing a run -/

namespace Pipeline

variable {p : Pipeline κ} {o : RunOptions} {w : World κ} {b : Artifact} {l : Ledger κ}
  {queue : List QueuedWrite} {f : Failure} {u v : Session κ}

/-- Let the builders run. If one of them fails, what the hooks have begun is undone. -/
def build (p : Pipeline κ) (o : RunOptions) (b : Artifact) (l : Ledger κ) :
    Act (Session κ) (Artifact × Ledger κ × List QueuedWrite) := fun s =>
  match runBuilders p.registry o b s with
  | (.error f, s) => (.error f, l.undone s)
  | (.ok queue, s) => (.ok (b, l, queue), s)

/-- All stages of a run before anything is made final. The result is the artifact, what the hooks
have begun, and the queued writes. -/
def prepare (p : Pipeline κ) (o : RunOptions) :
    Act (Session κ) (Artifact × Ledger κ × List QueuedWrite) := do
  let hooks ← collectHooks o p.extensions
  let a ← runFragments p.registry p.requiredFamilies o
  let (b, l) ← runHooks o hooks a
  p.build o b l

/-- Every hook and every builder of a run succeeds. They leave what the hooks have begun. -/
def Prepares (p : Pipeline κ) (o : RunOptions) (w : World κ) (b : Artifact) (l : Ledger κ)
    (queue : List QueuedWrite) (u : Session κ) : Prop :=
  ∃ hooks a s t, p.Begins o w hooks a s ∧
    InTurn (HookSucceeds o) hooks.zipIdx ((a, []), s) ((b, l), t) ∧
    InTurn (BuilderSucceeds o b p.registry.builders) (Schedule.builders p.registry.builderEntries)
      ([], t) (queue, u)

theorem stages_of_prepare (p : Pipeline κ) (o : RunOptions) (s : Session κ) : p.stages o s =
    match p.prepare o s with
    | (.error f, u) => (.error f, u)
    | (.ok (b, l, queue), u) =>
      match l.commitAll u with
      | (.error f, v) => (.error f, v)
      | (.ok (), v) => (.ok ⟨b, v.world.diagnostics, v.steps, queue⟩, v) := by
  simp only [stages, prepare, Attempt.bind_apply, finish, build]
  rcases collectHooks o p.extensions s with ⟨f | hooks, s⟩
  · rfl
  simp only
  rcases runFragments p.registry p.requiredFamilies o s with ⟨f | a, s⟩
  · rfl
  simp only
  rcases runHooks o hooks a s with ⟨f | ⟨b, l⟩, s⟩
  · rfl
  simp only
  rcases runBuilders p.registry o b s with ⟨f | queue, s⟩
  · exact congrArg (Prod.mk _) rollbackAll_eq
  simp only
  rcases l.commitAll s with ⟨f | ⟨⟩, s⟩ <;> rfl

/-- A run that cannot be prepared fails, and makes nothing final. -/
theorem run_of_prepare_error (h : p.prepare o (.start w) = (.error f, u)) :
    p.run o w = (.error f, u.told o f) :=
  run_of_error (by rw [stages_of_prepare, h])

/-- A run that is prepared makes everything final that the hooks have begun. -/
theorem run_of_prepare (h : p.prepare o (.start w) = (.ok (b, l, queue), u)) : p.run o w =
    match l.commitAll u with
    | (.error f, v) => (.error f, v.told o f)
    | (.ok (), v) => (.ok ⟨b, v.world.diagnostics, v.steps, queue⟩, v) := by
  rw [run, stages_of_prepare, h]
  simp only
  rcases l.commitAll u with ⟨f | ⟨⟩, v⟩ <;> rfl

/-- Hooks that do not fail have succeeded in turn. -/
theorem hooked_of_runHooks {hooks : List (String × Hook κ)} {a : Artifact}
    (h : runHooks o hooks a u = (.ok (b, l), v)) :
    InTurn (HookSucceeds o) hooks.zipIdx ((a, []), u) ((b, l), v) := by
  rcases InTurn.all_or_first_zipIdx (HookSucceeds o) hooks ((a, []), u) with
    ⟨⟨⟨c, m⟩, t⟩, hooked⟩ | ⟨before, hook, after, ⟨⟨c, m⟩, t⟩, rfl, hooked, hfails⟩
  · cases h.symm.trans (runHooks_ok hooked)
    exact hooked
  · obtain ⟨f, x, fails⟩ := exists_hook_error hfails
    cases h.symm.trans (runHooks_error hooked fails)

/-- Builders that do not fail have succeeded in turn. -/
theorem built_of_runBuilders (h : runBuilders p.registry o b u = (.ok queue, v)) :
    InTurn (BuilderSucceeds o b p.registry.builders) (Schedule.builders p.registry.builderEntries)
      ([], u) (queue, v) := by
  rcases InTurn.all_or_first (BuilderSucceeds o b p.registry.builders)
    (Schedule.builders p.registry.builderEntries) ([], u) with
    ⟨⟨queue, t⟩, built⟩ | ⟨before, i, after, ⟨queue, t⟩, order, built, hfails⟩
  · cases h.symm.trans (runBuilders_ok built)
    exact built
  · obtain ⟨e, entry⟩ := exists_scheduled_builder (i := i) (by rw [order]; simp)
    obtain ⟨f, x, left, fails⟩ := exists_builder_error entry hfails
    rw [runBuilders, order, buildInOrder_append built, buildInOrder_error entry fails] at h
    cases h

theorem prepare_eq_ok_iff :
    p.prepare o (.start w) = (.ok (b, l, queue), u) ↔ p.Prepares o w b l queue u := by
  constructor
  · intro h
    obtain ⟨hooks, s₀, hcollect, h⟩ := Attempt.bind_eq_ok.mp h
    obtain ⟨a, s, hdraft, h⟩ := Attempt.bind_eq_ok.mp h
    obtain ⟨⟨c, m⟩, t, hhooks, h⟩ := Attempt.bind_eq_ok.mp h
    have h : p.build o c m t = (.ok (b, l, queue), u) := h
    rw [build] at h
    rcases hbuild : runBuilders p.registry o c t with ⟨f | queue', x⟩
    · rw [hbuild] at h
      cases h
    · rw [hbuild] at h
      cases h
      exact ⟨hooks, a, s, t, begins_iff.2 ⟨s₀, hcollect, hdraft⟩, hooked_of_runHooks hhooks,
        built_of_runBuilders hbuild⟩
  · rintro ⟨hooks, a, s, t, begins, hooked, built⟩
    obtain ⟨s₀, hcollect, hdraft⟩ := begins_iff.1 begins
    simp [prepare, build, Attempt.bind_apply, hcollect, hdraft, runHooks_ok hooked,
      runBuilders_ok built]

end Pipeline

/-! ## Ledgers -/

/-- Hooks never see the ledger: what they have begun comes after what was begun before, and if one
of them fails, all of it is undone. -/
theorem exists_runHooksFrom (o : RunOptions) (i : Nat) (hooks : List (String × Hook κ))
    (a : Artifact) (s : Session κ) :
    (∃ f m t, ∀ l, runHooksFrom o i hooks a l s = (.error f, Ledger.undone (l ++ m) t)) ∨
      ∃ b m t, ∀ l, runHooksFrom o i hooks a l s = (.ok (b, l ++ m), t) := by
  induction hooks generalizing i a s with
  | nil => exact .inr ⟨a, [], s, fun l => by rw [List.append_nil]; rfl⟩
  | cons hook hooks ih =>
    obtain ⟨key, hook⟩ := hook
    rcases hcall : callHook o ((key, hook), i) a s with ⟨f | outcome, t⟩
    · refine .inl ⟨f, [], t, fun l => ?_⟩
      rw [runHooksFrom_error hcall, rollbackAll_eq, List.append_nil]
    · rcases ih (i + 1) (outcome.artifact.getD a) (t.completed .extension key) with
        ⟨f, m, u, hm⟩ | ⟨b, m, u, hm⟩
      · refine .inl ⟨f, (outcome.transaction.map (key, ·)).toList ++ m, u, fun l => ?_⟩
        rw [runHooksFrom_ok hcall, hm, List.append_assoc]
      · refine .inr ⟨b, (outcome.transaction.map (key, ·)).toList ++ m, u, fun l => ?_⟩
        rw [runHooksFrom_ok hcall, hm, List.append_assoc]

/-- For undoing, nothing of a transaction counts but how it is undone. -/
theorem undone_congr {l l' : Ledger κ} {key : String} {t t' : Transaction κ}
    (h : t.rollback = t'.rollback) (s : Session κ) :
    Ledger.undone (l ++ (key, t) :: l') s = Ledger.undone (l ++ (key, t') :: l') s := by
  simp [Ledger.undone, List.zipIdx_append, List.zipIdx_cons, h]

/-! ## What is left alone -/

section Spares

variable {β : Type} {view : World κ → β} {c : β}

/-- The action leaves alone what is seen of the world. -/
def Attempt.Spares {ε α : Type} (view : World κ → β) (x : Attempt ε (World κ) α) : Prop :=
  ∀ w, view (x w).2 = view w

/-- The hook leaves it alone, and so does undoing what the hook has begun. -/
def Hook.Spares (view : World κ → β) (h : Hook κ) : Prop :=
  ∀ v a, Attempt.Spares view (h v a) ∧ ∀ w outcome t x, h v a w = (.ok outcome, x) →
    outcome.transaction = some t → t.rollback.Spares view

/-- The extension leaves it alone, and so does its hook. -/
structure Extension.Spares (view : World κ → β) (e : Extension κ) : Prop where
  register : ∀ o, (e.register o).Spares view
  hook : ∀ o w h v, e.register o w = (.ok (some h), v) → h.Spares view

/-- The request of a fragment leaves it alone. -/
def FragmentRequest.Spares (view : World κ → β) : FragmentRequest κ → Prop
  | .outside change => ∀ w, view (change w) = view w
  | _ => True

/-- The request of a builder leaves it alone. -/
def BuilderRequest.Spares (view : World κ → β) : BuilderRequest κ → Prop
  | .outside change => ∀ w, view (change w) = view w
  | _ => True

/-- All helpers of a pipeline leave it alone, and what is said to the user is no part of it. -/
structure Pipeline.HelpersSpare (view : World κ → β) (p : Pipeline κ) : Prop where
  say : ∀ w d, view (World.say w d) = view w
  fragments : ∀ e ∈ p.registry.fragments, ∀ v,
    Program.Only (I := fragmentInterface κ) (FragmentRequest.Spares view) (e.2 v).run
  builders : ∀ e ∈ p.registry.builders, ∀ v,
    Program.Only (I := builderInterface κ) (BuilderRequest.Spares view) (e.2 v).run

/-- All clients of a pipeline leave it alone. -/
structure Pipeline.Spares (view : World κ → β) (p : Pipeline κ) : Prop
    extends p.HelpersSpare view where
  extensions : ∀ e ∈ p.extensions, e.Spares view

namespace Attempt

variable {ε σ α γ : Type} {P : σ → Prop} {Q : α → Prop} {R : γ → Prop}

/-- The action keeps a property of the state, and what it results in has another property. -/
def Ensures (P : σ → Prop) (Q : α → Prop) (x : Attempt ε σ α) : Prop :=
  ∀ s, P s → P (x s).2 ∧ ∀ a t, x s = (.ok a, t) → Q a

theorem Ensures.pure {a : α} (ha : Q a) : Ensures P Q (pure a : Attempt ε σ α) := by
  refine fun s hs => ⟨hs, fun b t h => ?_⟩
  cases h
  exact ha

theorem Ensures.bind {x : Attempt ε σ α} {k : α → Attempt ε σ γ} (hx : Ensures P Q x)
    (hk : ∀ a, Q a → Ensures P R (k a)) : Ensures P R (x >>= k) := by
  intro s hs
  obtain ⟨hkept, hresult⟩ := hx s hs
  rw [bind_apply]
  rcases h : x s with ⟨e | a, t⟩
  · rw [h] at hkept
    exact ⟨hkept, fun _ _ h => nomatch h⟩
  · rw [h] at hkept
    exact hk a (hresult a t h) t hkept

theorem Ensures.keeps {x : Attempt ε σ α} (h : Ensures P Q x) : Keeps P x := fun s hs => (h s hs).1

theorem Keeps.ensures {x : Attempt ε σ α} (h : Keeps P x) : Ensures P (fun _ => True) x :=
  fun s hs => ⟨h s hs, fun _ _ _ => trivial⟩

end Attempt

/-- What is seen of the world is this. -/
def Session.Shows (view : World κ → β) (c : β) (s : Session κ) : Prop := view s.world = c

open Attempt (Keeps Ensures)

open Session (Shows)

theorem Attempt.Spares.call {α : Type} {x : Act (World κ) α} (h : x.Spares view) (d : Call) :
    Keeps (Shows view c) (Session.call d x) := fun s hs => (h s.world).trans hs

theorem ensures_collectHooksFrom {es : List (Extension κ)} (hes : ∀ e ∈ es, e.Spares view)
    (o : RunOptions) (i : Nat) :
    Ensures (Shows view c) (fun hooks => ∀ h ∈ hooks, h.2.Spares view)
      (collectHooksFrom o i es) := by
  induction es generalizing i with
  | nil => exact .pure fun _ h => absurd h List.not_mem_nil
  | cons e es ih =>
    have he := hes e List.mem_cons_self
    have hcall : Ensures (Shows view c) (fun hook => ∀ h, hook = some h → h.Spares view)
        (call (.register i) (e.register o)) := by
      refine fun s hs => ⟨(he.register o).call _ s hs, fun hook t hhook h hsome => ?_⟩
      exact he.hook o s.world h t.world (hsome ▸ Session.world_of_call hhook)
    refine hcall.bind fun hook hhook => ?_
    refine (ih (fun e h => hes e (List.mem_cons_of_mem _ h)) (i + 1)).bind fun hooks hhooks => ?_
    rcases hook with _ | h
    · exact .pure hhooks
    · refine .pure fun x hx => ?_
      rcases List.mem_cons.mp hx with rfl | hx
      · exact hhook h rfl
      · exact hhooks x hx

theorem shows_of_undone {l : Ledger κ} (hl : ∀ e ∈ l, e.2.rollback.Spares view) {s : Session κ}
    (hs : s.Shows view c) : (l.undone s).Shows view c := by
  have hfold : ∀ (es : List ((String × Transaction κ) × Nat)) (s : Session κ),
      (∀ e ∈ es, e.1.2.rollback.Spares view) → s.Shows view c →
      (es.foldl (fun s e => (call (.rollback e.2) e.1.2.rollback s).2) s).Shows view c := by
    intro es
    induction es with
    | nil => exact fun s _ hs => hs
    | cons e es ih =>
      intro s hes hs
      exact ih _ (fun e h => hes e (List.mem_cons_of_mem _ h))
        ((hes e List.mem_cons_self).call _ s hs)
  refine hfold _ s (fun e he => ?_) hs
  exact hl e.1 (List.fst_mem_of_mem_zipIdx (List.mem_reverse.mp he))

theorem ensures_runHooksFrom {hooks : List (String × Hook κ)} {l : Ledger κ}
    (hhooks : ∀ h ∈ hooks, h.2.Spares view) (hl : ∀ e ∈ l, e.2.rollback.Spares view)
    (o : RunOptions) (i : Nat) (a : Artifact) :
    Ensures (Shows view c) (fun r => ∀ e ∈ r.2, e.2.rollback.Spares view)
      (runHooksFrom o i hooks a l) := by
  induction hooks generalizing i a l with
  | nil => exact .pure hl
  | cons hook hooks ih =>
    obtain ⟨key, hook⟩ := hook
    intro s hs
    obtain ⟨hspares, hbegun⟩ :=
      hhooks (key, hook) List.mem_cons_self ⟨o, key, Scope.child o.scope key⟩ a
    have hkept := hspares.call (c := c) (.hook i) s hs
    rcases hcall : callHook o ((key, hook), i) a s with ⟨f | outcome, t⟩
    · have ht : t.Shows view c := by
        rw [callHook] at hcall
        rwa [hcall] at hkept
      rw [runHooksFrom_error hcall, rollbackAll_eq]
      exact ⟨shows_of_undone hl ht, fun _ _ h => nomatch h⟩
    · have hoc := hcall
      rw [callHook] at hcall
      rw [hcall] at hkept
      rw [runHooksFrom_ok hoc]
      refine ih (fun h hh => hhooks h (List.mem_cons_of_mem _ hh)) (fun e he => ?_) _ _
        (t.completed .extension key) hkept
      rcases List.mem_append.mp he with he | he
      · exact hl e he
      · rcases htransaction : outcome.transaction with _ | x
        · rw [htransaction] at he
          exact absurd he List.not_mem_nil
        · rw [htransaction] at he
          obtain rfl := List.mem_singleton.mp he
          exact hbegun s.world outcome x _ (Session.world_of_call hcall) htransaction

theorem spares_runFragment {behaviour : FragmentBehaviour κ}
    (h : ∀ v, Program.Only (I := fragmentInterface κ) (FragmentRequest.Spares view)
      (behaviour v).run) (o : RunOptions) (e : FragmentEntry) (d : Draft) :
    (runFragment o e behaviour d).Spares view := by
  intro w
  have hstep : ∀ r (s : FragmentState κ), r.Spares view → view s.world = view w →
      view (FragmentState.serve ⟨e.key, e.mode⟩ r s).2.world = view w := by
    intro r s hr hs
    cases r with
    | outside change => exact (hr s.world).trans hs
    | look | stop | assign => exact hs
  have hrun := Program.run_only (I := fragmentInterface κ)
    (P := fun s : FragmentState κ => view s.world = view w) hstep
    (h ⟨o, e.key, Scope.child o.scope e.key⟩) (s := ⟨w, d, none⟩) rfl
  unfold runFragment
  extract_lets
  split <;> next hresult => rwa [hresult] at hrun

theorem spares_runBuilder {behaviour : BuilderBehaviour κ}
    (h : ∀ v, Program.Only (I := builderInterface κ) (BuilderRequest.Spares view)
      (behaviour v).run) (o : RunOptions) (a : Artifact) (e : BuilderEntry)
    (queue : List QueuedWrite) : (runBuilder o a e behaviour queue).Spares view := by
  intro w
  have hstep : ∀ r (s : World κ × List QueuedWrite), r.Spares view → view s.1 = view w →
      view (serveBuilder e.key r s).2.1 = view w := by
    intro r s hr hs
    cases r with
    | outside change => exact (hr s.1).trans hs
    | queue path contents => exact hs
  have hrun := Program.run_only (I := builderInterface κ)
    (P := fun s : World κ × List QueuedWrite => view s.1 = view w) hstep
    (h ⟨o, a, e.key, Scope.child o.scope e.key⟩) (s := (w, queue)) rfl
  unfold runBuilder
  extract_lets
  split <;> next hresult => rwa [hresult] at hrun

namespace Pipeline

variable {p : Pipeline κ} {o : RunOptions}

theorem Spares.warn (h : p.Spares view) (w : World κ) (scope : Scope) (message : String)
    (context : Json) : view (w.warn scope message context) = view w := h.say w _

theorem Spares.runInOrder (h : p.Spares view) (order : List Nat) (d : Draft) :
    Keeps (Shows view c) (runInOrder o p.registry.fragments order d) := by
  induction order generalizing d with
  | nil => exact .pure _
  | cons i order ih =>
    rw [StagedCodegen.runInOrder]
    rcases hentry : p.registry.fragments[i]? with _ | ⟨e, behaviour⟩
    · exact ih d
    · have he := spares_runFragment (h.fragments _ (List.mem_of_getElem? hentry)) o e d
      refine (he.call _).bind ?_
      rintro ⟨d, stopped⟩
      refine Keeps.bind (.modify fun _ hs => hs) fun _ => ?_
      rcases stopped with _ | reason
      · exact (ih d).bind fun _ => .pure _
      · exact Keeps.bind (.modify fun s hs => (h.warn s.world _ _ _).trans hs) fun _ => .pure _

theorem Spares.warnOfSuperseded (h : p.Spares view) (es : List FragmentEntry) (indices : List Nat)
    (w : World κ) : view (warnOfSuperseded o es indices w) = view w := by
  unfold StagedCodegen.warnOfSuperseded
  induction indices.filterMap (es[·]?) generalizing w with
  | nil => rfl
  | cons e es ih => rw [List.foldl_cons, ih, h.warn]

theorem Spares.runFragments (h : p.Spares view) :
    Keeps (Shows view c) (runFragments p.registry p.requiredFamilies o) := by
  refine Keeps.bind (.ofExcept _) fun schedule => ?_
  refine Keeps.bind (.modify fun s hs => (h.warnOfSuperseded _ _ s.world).trans hs) fun _ => ?_
  refine (h.runInOrder _ _).bind ?_
  rintro ⟨d, ran⟩
  rcases hidle : idleFamily? (p.registry.fragmentEntries.map (·.key)) ran p.requiredFamilies with
    _ | f
  · simp only [hidle]
    exact .ofExcept _
  · simp only [hidle]
    exact .fail f

theorem Spares.buildInOrder (h : p.Spares view) (b : Artifact) (order : List Nat)
    (queue : List QueuedWrite) :
    Keeps (Shows view c) (buildInOrder o b p.registry.builders order queue) := by
  induction order generalizing queue with
  | nil => exact .pure _
  | cons i order ih =>
    rw [StagedCodegen.buildInOrder]
    rcases hentry : p.registry.builders[i]? with _ | ⟨e, behaviour⟩
    · exact ih queue
    · have he := spares_runBuilder (h.builders _ (List.mem_of_getElem? hentry)) o b e queue
      refine (he.call _).bind fun queue => ?_
      exact Keeps.bind (.modify fun _ hs => hs) fun _ => ih queue

theorem Spares.build (h : p.Spares view) {l : Ledger κ} (hl : ∀ e ∈ l, e.2.rollback.Spares view)
    (b : Artifact) : Keeps (Shows view c) (p.build o b l) := by
  intro s hs
  have hkept := h.buildInOrder (o := o) b (Schedule.builders p.registry.builderEntries) [] s hs
  rw [Pipeline.build, runBuilders]
  rcases hbuild : StagedCodegen.buildInOrder o b p.registry.builders
    (Schedule.builders p.registry.builderEntries) [] s with ⟨f | queue, t⟩
  · rw [hbuild] at hkept
    exact shows_of_undone hl hkept
  · rwa [hbuild] at hkept

/-- Preparing a run, and undoing what cannot be finished, leaves alone what the clients do. -/
theorem Spares.prepare (h : p.Spares view) : Keeps (Shows view c) (p.prepare o) := by
  refine ((ensures_collectHooksFrom h.extensions o 0).bind (R := fun _ => True)
    fun hooks hhooks => ?_).keeps
  refine h.runFragments.ensures.bind fun a _ => ?_
  refine (ensures_runHooksFrom hhooks (fun _ h => absurd h List.not_mem_nil) o 0 a).bind ?_
  exact fun r hr => (h.build hr r.1).ensures

end Pipeline

end Spares

end StagedCodegen
