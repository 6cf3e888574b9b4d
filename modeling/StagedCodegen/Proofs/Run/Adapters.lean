import StagedCodegen.Adapter.Hook
import StagedCodegen.Proofs.Adapter.Commit
import StagedCodegen.Proofs.Run.Preparation

/-!
# When the files of adapters are written

Adapters take part in a run through one hook, which may stand anywhere among the others. What they
queue is handed to their writer when the transaction of that hook is made final, so after every hook
and every builder has succeeded, and then each file once, in the order of the queue, up to the first
that is refused or fails. Before that the run is the same with every writer.

Main statement: `Pipeline.adapters_write_last`.
-/

namespace StagedCodegen

open Session (call)

open StagedCodegen.Representation (Artifact)

variable {κ : Type}

/-! ## Running one adapter -/

section RunAdapter

-- staging resolves paths, which must not be computed
attribute [local irreducible] Sandbox.stage

/-- What its changes of the world and its files keep, an adapter keeps. -/
theorem runAdapter_induction {P : World κ → Sandbox → Prop} {Q : AdapterRequest κ → Prop}
    {x : Adapter κ}
    (hchange : ∀ change w sb, Q (.outside change) → P w sb → P (change w) sb)
    (hqueue : ∀ path contents w sb, P w sb → P w (sb.stage w.disk x.name path contents).2)
    (hx : ∀ v, Program.Only (I := adapterInterface κ) Q (x.behaviour v).run)
    (o : AdapterOptions) (a : Artifact) {sb : Sandbox} {w : World κ} (h : P w sb) :
    P (runAdapter o x a sb w).2.2 (runAdapter o x a sb w).2.1 := by
  have hstep : ∀ r (t : AdapterState κ), Q r → P t.world t.sandbox →
      P (AdapterState.serve x.name r t).2.world (AdapterState.serve x.name r t).2.sandbox := by
    intro r t hr ht
    cases r with
    | outside change => exact hchange change t.world t.sandbox hr ht
    | look | edit => exact ht
    | submit next =>
      rw [AdapterState.serve]
      split <;> exact ht
    | queue path contents =>
      have hstage := hqueue path contents t.world t.sandbox ht
      rw [AdapterState.serve]
      rcases hresult : t.sandbox.stage t.world.disk x.name path contents with ⟨result, u⟩
      rwa [hresult] at hstage
  unfold runAdapter
  extract_lets v program
  have hrun := Program.run_only (I := adapterInterface κ)
    (P := fun t : AdapterState κ => P t.world t.sandbox) hstep (hx v)
    (s := ⟨w, a.snapshot, none, sb⟩) h
  split <;> next hresult =>
    rw [hresult] at hrun
    -- nothing but the artifact depends on what was submitted
    first | exact hrun | split <;> exact hrun

end RunAdapter

/-! ## The sandbox that adapters leave -/

/-- The sandbox takes files, and those that it has are numbered in order. -/
structure Sandbox.Numbered (s : Sandbox) : Prop where
  pending : s.state = .pending
  numbers : s.queue.map (·.stagedAt) = List.range s.accepted

namespace Sandbox.Numbered

variable {s : Sandbox}

theorem of_new {d : Disk} {dir : Path} {hasScratch : Bool}
    (h : Sandbox.new d dir hasScratch = .ok s) : s.Numbered := by
  rw [eq_of_new h]
  exact ⟨rfl, rfl⟩

theorem stage (h : s.Numbered) (d : Disk) (adapter : String) (p : Path) (contents : ByteArray) :
    (stage d adapter p contents s).2.Numbered := by
  rcases stage_cases d adapter p contents s with hsame | ⟨target, hpending, -, hstage⟩
  · rwa [hsame]
  · rw [hstage]
    refine ⟨hpending, ?_⟩
    simp only [List.map_append, List.map_singleton, h.numbers, List.range_succ]

theorem runAdapter (h : s.Numbered) (o : AdapterOptions) (adapter : Adapter κ) (a : Artifact)
    (w : World κ) : (runAdapter o adapter a s w).2.1.Numbered :=
  runAdapter_induction (P := fun _ t => t.Numbered) (Q := fun _ => True) (fun _ _ _ _ ht => ht)
    (fun path contents w _ ht => ht.stage w.disk adapter.name path contents)
    (fun _ => Program.only_of_forall (fun _ => trivial) _) o a h

/-- If all adapters succeed, they leave a sandbox that takes files. -/
theorem runInSandbox (h : s.Numbered) {o : AdapterOptions} {adapters : List (Adapter κ)}
    {a b : Artifact} {t : Sandbox} {w v : World κ}
    (hrun : runInSandbox o adapters a s w = (.ok b, t, v)) : t.Numbered := by
  induction adapters generalizing a s w with
  | nil =>
    cases hrun
    exact h
  | cons adapter rest ih =>
    have hadapter := h.runAdapter o adapter a w
    rw [StagedCodegen.runInSandbox] at hrun
    rcases hresult : StagedCodegen.runAdapter o adapter a s w with ⟨f | c, u, x⟩
    · rw [hresult] at hrun
      cases hrun
    · rw [hresult] at hrun hadapter
      exact ih hadapter hrun

theorem runAdapters {o : AdapterOptions} {factories : List (AdapterFactory κ)} {a b : Artifact}
    {settings : Settings} {t : Sandbox} {w v : World κ}
    (h : runAdapters o factories a settings w = (.ok (b, t), v)) : t.Numbered := by
  unfold StagedCodegen.runAdapters at h
  split at h
  · cases h
  · split at h
    · cases h
    · next sandbox hnew =>
      split at h
      · cases h
      · next hrun =>
        cases h
        exact (of_new hnew).runInSandbox hrun

end Sandbox.Numbered

/-! ## Adapters with another writer -/

namespace Adapters

variable {as : Adapters κ}

/-- The adapters with another writer. -/
def withWriter (as : Adapters κ) (writer : FileWriter (World κ)) : Adapters κ :=
  { as with writer := writer }

/-- What the adapters are run with by their hook. -/
def options (as : Adapters κ) (v : HookView) : AdapterOptions where
  outputDir := v.options.workspace.join ⟨v.options.settings.output.dir⟩
  configDirectory := configDirectory v.options
  formatters := as.formatters
  scope := v.scope

/-- What their hook knows. -/
def hookView (o : RunOptions) : HookView := ⟨o, key, Scope.child o.scope key⟩

/-- In some run the adapters leave this sandbox, which takes files and has them in order. -/
structure Leave (as : Adapters κ) (o : RunOptions) (sb : Sandbox) : Prop where
  left : ∃ a next x y,
    runAdapters (as.options (hookView o)) as.factories a o.settings x = (.ok (next, sb), y)
  numbered : sb.Numbered

/-- The hook fails, or it leaves what can be made final with the writer. Until then the writer does
not count. -/
theorem hook_cases (as : Adapters κ) (o : RunOptions) (a : Artifact) (w : World κ) :
    (∃ f x, ∀ writer, (as.withWriter writer).hook (hookView o) a w = (.error f, x)) ∨
      ∃ changed sb x, as.Leave o sb ∧ ∀ writer, (as.withWriter writer).hook (hookView o) a w =
        (.ok ⟨changed, some (sb.transaction writer)⟩, x) := by
  have hhook : ∀ writer, (as.withWriter writer).hook (hookView o) a =
      runAdapters (as.options (hookView o)) as.factories a o.settings >>= fun r =>
        pure ⟨if r.1.sameData a then none else some r.1, some (r.2.transaction writer)⟩ :=
    fun _ => rfl
  rcases hrun : runAdapters (as.options (hookView o)) as.factories a o.settings w with
    ⟨f | ⟨next, sb⟩, x⟩
  · exact .inl ⟨f, x, fun writer => by rw [hhook, Attempt.bind_apply, hrun]⟩
  · refine .inr ⟨if next.sameData a then none else some next, sb, x,
      ⟨⟨a, next, w, x, hrun⟩, .runAdapters hrun⟩, fun writer => ?_⟩
    rw [hhook, Attempt.bind_apply, hrun]
    rfl

end Adapters

/-! ## Before anything is made final -/

section Between

variable (as : Adapters κ) (o : RunOptions)

/-- The pipeline with an extension somewhere among others, in place of its own. -/
def Pipeline.between (p : Pipeline κ) (before after : List (Extension κ)) (e : Extension κ) :
    Pipeline κ :=
  { p with extensions := before ++ e :: after }

theorem collectHooksFrom_error {i : Nat} {e : Extension κ} {es : List (Extension κ)} {f : Failure}
    {s t : Session κ} (h : call (.register i) (e.register o) s = (.error f, t)) :
    collectHooksFrom o i (e :: es) s = (.error f, t) := by
  rw [collectHooksFrom, Attempt.bind_apply, h]

theorem collectHooksFrom_ok {i : Nat} {e : Extension κ} {hook : Option (Hook κ)} {s t : Session κ}
    (h : call (.register i) (e.register o) s = (.ok hook, t)) (es : List (Extension κ)) :
    collectHooksFrom o i (e :: es) s =
      ((collectHooksFrom o (i + 1) es t).1.map ((hook.map (e.key, ·)).toList ++ ·),
        (collectHooksFrom o (i + 1) es t).2) := by
  rw [collectHooksFrom, Attempt.bind_apply, h]
  simp only [Attempt.bind_apply]
  rcases collectHooksFrom o (i + 1) es t with ⟨f | hooks, u⟩
  · rfl
  · rcases hook with _ | h <;> rfl

/-- Either some extension does not register, or the hook of the adapters stands among those of the
others, with every writer. -/
theorem collectHooks_between (i : Nat) (before after : List (Extension κ)) (s : Session κ) :
    (∃ f t, ∀ writer,
      collectHooksFrom o i (before ++ (as.withWriter writer).extension :: after) s =
        (.error f, t)) ∨
      ∃ hs hs' t, ∀ writer,
        collectHooksFrom o i (before ++ (as.withWriter writer).extension :: after) s =
          (.ok (hs ++ (Adapters.key, (as.withWriter writer).hook) :: hs'), t) := by
  induction before generalizing i s with
  | nil =>
    have hcall : ∀ writer, call (.register i) ((as.withWriter writer).extension.register o) s =
        (.ok (some (as.withWriter writer).hook), { s with calls := s.calls ++ [.register i] }) :=
      fun _ => rfl
    rcases hafter : collectHooksFrom o (i + 1) after { s with calls := s.calls ++ [.register i] }
      with ⟨f | hs', t⟩
    · exact .inl ⟨f, t, fun writer => by
        rw [List.nil_append, collectHooksFrom_ok o (hcall writer), hafter, Except.map]⟩
    · exact .inr ⟨[], hs', t, fun writer => by
        rw [List.nil_append, collectHooksFrom_ok o (hcall writer), hafter]
        rfl⟩
  | cons e before ih =>
    rcases hcall : call (.register i) (e.register o) s with ⟨f | hook, t⟩
    · exact .inl ⟨f, t, fun writer => collectHooksFrom_error o hcall⟩
    · rcases ih (i + 1) t with ⟨f, u, hall⟩ | ⟨hs, hs', u, hall⟩
      · exact .inl ⟨f, u, fun writer => by
          rw [List.cons_append, collectHooksFrom_ok o hcall, hall, Except.map]⟩
      · exact .inr ⟨(hook.map (e.key, ·)).toList ++ hs, hs', u, fun writer => by
          rw [List.cons_append, collectHooksFrom_ok o hcall, hall, Except.map, List.append_assoc]⟩

/-- Either some hook fails, before, in or after that of the adapters, or what the adapters have
begun stands among what the others have begun, with every writer. -/
theorem runHooks_between (hs hs' : List (String × Hook κ)) (a : Artifact) (s : Session κ) :
    (∃ f t, ∀ writer,
      runHooks o (hs ++ (Adapters.key, (as.withWriter writer).hook) :: hs') a s = (.error f, t)) ∨
      ∃ b done sb rest t, as.Leave o sb ∧ ∀ writer,
        runHooks o (hs ++ (Adapters.key, (as.withWriter writer).hook) :: hs') a s =
          (.ok (b, done ++ (Adapters.key, sb.transaction writer) :: rest), t) := by
  rcases InTurn.all_or_first_zipIdx (HookSucceeds o) hs ((a, []), s) with
    ⟨⟨⟨b, done⟩, t⟩, hooked⟩ | ⟨before, hook, after, ⟨⟨b, l⟩, t⟩, rfl, hooked, hfails⟩
  · have hup : ∀ writer, runHooks o (hs ++ (Adapters.key, (as.withWriter writer).hook) :: hs') a s =
        runHooksFrom o hs.length ((Adapters.key, (as.withWriter writer).hook) :: hs') b done t := by
      intro writer
      have happend :=
        runHooksFrom_append hooked ((Adapters.key, (as.withWriter writer).hook) :: hs')
      rwa [Nat.zero_add] at happend
    rcases as.hook_cases o b t.world with ⟨f, x, hhook⟩ | ⟨changed, sb, x, hleave, hhook⟩
    · refine .inl ⟨f, done.undone (t.called (.hook hs.length) x),
        fun writer => ?_⟩
      rw [hup, runHooksFrom_error (Session.call_of_eq (hhook writer)), rollbackAll_eq]
    · rcases exists_runHooksFrom o (hs.length + 1) hs' (changed.getD b)
        ((t.called (.hook hs.length) x).completed .extension Adapters.key) with
      ⟨f, m, v, hall⟩ | ⟨c, m, v, hall⟩
      · refine .inl ⟨f, Ledger.undone (done ++ (Adapters.key, .idle) :: m) v, fun writer => ?_⟩
        have hundone : Ledger.undone (done ++ (Adapters.key, sb.transaction writer) :: m) v =
            Ledger.undone (done ++ (Adapters.key, .idle) :: m) v := undone_congr (by rfl) v
        rw [hup, runHooksFrom_ok (Session.call_of_eq (hhook writer)), hall, List.append_assoc,
          ← hundone]
        rfl
      · refine .inr ⟨c, done, sb, m, v, hleave, fun writer => ?_⟩
        rw [hup, runHooksFrom_ok (Session.call_of_eq (hhook writer)), hall, List.append_assoc]
        rfl
  · obtain ⟨f, u, fails⟩ := exists_hook_error hfails
    refine .inl ⟨f, l.undone u, fun writer => ?_⟩
    rw [List.append_assoc, List.cons_append]
    exact runHooks_error hooked fails

theorem prepare_between (p : Pipeline κ) (before after : List (Extension κ)) (s : Session κ) :
    (∃ f u, ∀ writer,
      (p.between before after (as.withWriter writer).extension).prepare o s = (.error f, u)) ∨
      ∃ b done sb rest queue u, as.Leave o sb ∧ ∀ writer,
        (p.between before after (as.withWriter writer).extension).prepare o s =
          (.ok (b, done ++ (Adapters.key, sb.transaction writer) :: rest, queue), u) := by
  rcases collectHooks_between as o 0 before after s with ⟨f, t, hcollect⟩ | ⟨hs, hs', t, hcollect⟩
  · exact .inl ⟨f, t, fun writer => by
      rw [Pipeline.prepare, Attempt.bind_apply, collectHooks, Pipeline.between, hcollect]⟩
  rcases hdraft : runFragments p.registry p.requiredFamilies o t with ⟨f | a, u⟩
  · exact .inl ⟨f, u, fun writer => by
      rw [Pipeline.prepare, Attempt.bind_apply, collectHooks, Pipeline.between, hcollect]
      simp only [Attempt.bind_apply, hdraft]⟩
  have hup : ∀ writer, (p.between before after (as.withWriter writer).extension).prepare o s =
      (runHooks o (hs ++ (Adapters.key, (as.withWriter writer).hook) :: hs') a >>=
        fun r => p.build o r.1 r.2) u := by
    intro writer
    rw [Pipeline.prepare, Attempt.bind_apply, collectHooks, Pipeline.between, hcollect]
    simp only [Attempt.bind_apply, hdraft]
    rfl
  rcases runHooks_between as o hs hs' a u with
    ⟨f, v, hhooks⟩ | ⟨b, done, sb, rest, v, hleave, hhooks⟩
  · exact .inl ⟨f, v, fun writer => by rw [hup, Attempt.bind_apply, hhooks]⟩
  rcases hbuild : runBuilders p.registry o b v with ⟨f | queue, x⟩
  · refine .inl ⟨f, Ledger.undone (done ++ (Adapters.key, .idle) :: rest) x, fun writer => ?_⟩
    rw [hup, Attempt.bind_apply, hhooks]
    have hundone : Ledger.undone (done ++ (Adapters.key, sb.transaction writer) :: rest) x =
        Ledger.undone (done ++ (Adapters.key, .idle) :: rest) x := undone_congr (by rfl) x
    simp only [Pipeline.build, hbuild, hundone]
  · refine .inr ⟨b, done, sb, rest, queue, x, hleave, fun writer => ?_⟩
    rw [hup, Attempt.bind_apply, hhooks]
    simp only [Pipeline.build, hbuild]

end Between

/-! ## What adapters leave alone -/

section Spares

variable {β : Type} {view : World κ → β}

/-- The request of an adapter leaves alone what is seen of the world. -/
def AdapterRequest.Spares (view : World κ → β) : AdapterRequest κ → Prop
  | .outside change => ∀ w, view (change w) = view w
  | _ => True

/-- The adapter leaves it alone. -/
def Adapter.Spares (view : World κ → β) (x : Adapter κ) : Prop :=
  ∀ v, Program.Only (I := adapterInterface κ) (AdapterRequest.Spares view) (x.behaviour v).run

/-- The factory leaves it alone, and so do the adapters that it makes. -/
structure AdapterFactory.Spares (view : World κ → β) (f : AdapterFactory κ) : Prop where
  make : ∀ a s, Attempt.Spares view (f a s)
  made : ∀ a s w xs v, f a s w = (.ok xs, v) → ∀ x ∈ xs, x.Spares view

variable {adapters : List (Adapter κ)} {factories : List (AdapterFactory κ)}

theorem spares_runAdapter {x : Adapter κ} (h : x.Spares view) (o : AdapterOptions) (a : Artifact)
    (sb : Sandbox) (w : World κ) : view (runAdapter o x a sb w).2.2 = view w :=
  runAdapter_induction (P := fun v _ => view v = view w) (Q := AdapterRequest.Spares view)
    (fun _ v _ hchange hv => (hchange v).trans hv) (fun _ _ _ _ hv => hv) h o a rfl

theorem spares_runInSandbox (hsay : ∀ w d, view (World.say w d) = view w)
    (h : ∀ x ∈ adapters, x.Spares view) (o : AdapterOptions) (a : Artifact) (sb : Sandbox)
    (w : World κ) : view (runInSandbox o adapters a sb w).2.2 = view w := by
  induction adapters generalizing a sb w with
  | nil => rfl
  | cons x rest ih =>
    have hx := spares_runAdapter (h x List.mem_cons_self) o a sb w
    rw [runInSandbox]
    rcases hresult : runAdapter o x a sb w with ⟨f | b, u, v⟩
    · rw [hresult] at hx
      exact (hsay v _).trans hx
    · rw [hresult] at hx
      exact (ih (fun y hy => h y (List.mem_cons_of_mem _ hy)) b u v).trans hx

theorem spares_of_acceptAdapters {i : Nat} {seen : List String} {produced : List (Adapter κ)}
    (h : ∀ x ∈ produced, x.Spares view) (haccept : acceptAdapters i seen produced = .ok adapters) :
    ∀ x ∈ adapters, x.Spares view := by
  induction produced generalizing seen adapters with
  | nil =>
    cases haccept
    exact fun _ hx => absurd hx List.not_mem_nil
  | cons x rest ih =>
    have hx : x.Spares view := h x List.mem_cons_self
    rw [acceptAdapters] at haccept
    split at haccept
    · cases haccept
    split at haccept
    · cases haccept
    split at haccept
    · cases haccept
    · next accepted hrest =>
      cases haccept
      intro y hy
      rcases List.mem_cons.mp hy with rfl | hy
      · exact hx
      · exact ih (fun z hz => h z (List.mem_cons_of_mem _ hz)) hrest y hy

theorem ensures_collectAdaptersFrom {made : List (Adapter κ)} {c : β}
    (h : ∀ f ∈ factories, AdapterFactory.Spares view f) (hmade : ∀ x ∈ made, x.Spares view)
    (a : Artifact) (settings : Settings) (i : Nat) :
    Attempt.Ensures (fun w => view w = c) (fun xs => ∀ x ∈ xs, x.Spares view)
      (collectAdaptersFrom a settings i made factories) := by
  induction factories generalizing i made with
  | nil => exact .pure hmade
  | cons f rest ih =>
    intro w hw
    have hf := h f List.mem_cons_self
    have hkept := (hf.make a settings w).trans hw
    rcases hresult : f a settings w with ⟨r | produced, v⟩
    · rw [hresult] at hkept
      simp only [collectAdaptersFrom, hresult]
      exact ⟨hkept, nofun⟩
    · rw [hresult] at hkept
      rcases haccept : acceptAdapters i (made.map (·.name)) produced with r | accepted
      · simp only [collectAdaptersFrom, hresult, haccept]
        exact ⟨hkept, nofun⟩
      · simp only [collectAdaptersFrom, hresult, haccept]
        refine ih (fun g hg => h g (List.mem_cons_of_mem _ hg)) (fun x hx => ?_) (i + 1) v hkept
        rcases List.mem_append.mp hx with hx | hx
        · exact hmade x hx
        · exact spares_of_acceptAdapters (hf.made a settings w produced v hresult) haccept x hx

-- a sandbox is made by resolving a path, which must not be computed
attribute [local irreducible] Sandbox.new

theorem spares_runAdapters (hsay : ∀ w d, view (World.say w d) = view w)
    (h : ∀ f ∈ factories, AdapterFactory.Spares view f) (o : AdapterOptions) (a : Artifact)
    (settings : Settings) : (runAdapters o factories a settings).Spares view := by
  intro w
  obtain ⟨hkept, hmade⟩ := ensures_collectAdaptersFrom h
    (fun _ hx => absurd hx List.not_mem_nil) a settings 0 w rfl
  rw [← collectAdapters] at hkept hmade
  rcases hcollect : collectAdapters a settings factories w with ⟨f | adapters, v⟩
  · rw [hcollect] at hkept
    simp only [runAdapters, hcollect]
    exact (hsay v _).trans hkept
  · rw [hcollect] at hkept
    rcases hnew : Sandbox.new v.disk o.outputDir (!adapters.isEmpty) with f | sb
    · simp only [runAdapters, hcollect, hnew]
      exact hkept
    · have hrun := spares_runInSandbox hsay (hmade _ _ hcollect) o a sb v
      rcases hresult : runInSandbox o adapters a sb v with ⟨f | b, t, x⟩ <;>
        rw [hresult] at hrun <;>
        simp only [runAdapters, hcollect, hnew, hresult] <;>
        exact hrun.trans hkept

/-- Their hook leaves alone what the adapters do, and to undo what it has begun is nothing. -/
theorem Adapters.spares_extension {as : Adapters κ} (hsay : ∀ w d, view (World.say w d) = view w)
    (h : ∀ f ∈ as.factories, AdapterFactory.Spares view f) : as.extension.Spares view := by
  refine ⟨fun o w => rfl, fun o w hook v hregister => ?_⟩
  cases hregister
  refine fun v a => ⟨fun w => ?_, fun w outcome t x hhook ht => ?_⟩
  · have hrun := spares_runAdapters hsay h (as.options v) a v.options.settings w
    rw [Adapters.hook, Attempt.bind_apply]
    split <;> next hresult =>
      rw [options, hresult] at hrun
      exact hrun
  · obtain ⟨⟨next, sb⟩, y, -, houtcome⟩ := Attempt.bind_eq_ok.mp hhook
    cases houtcome
    cases ht
    exact fun w => rfl

end Spares

/-! ## Making final -/

section Commit

variable {done rest : Ledger κ} {key : String} {t t' : Transaction κ} {s u v : Session κ}
  {f : Failure}

theorem commitFrom_congr (h : t.commit s.world = t'.commit s.world) (i : Nat) (rest : Ledger κ) :
    Ledger.commitFrom i ((key, t) :: rest) s = Ledger.commitFrom i ((key, t') :: rest) s := by
  simp only [Ledger.commitFrom, Attempt.bind_apply, Session.call_apply, h]

theorem commitAll_congr (h : InTurn CommitSucceeds done.zipIdx u v)
    (hsame : t.commit v.world = t'.commit v.world) :
    Ledger.commitAll (done ++ (key, t) :: rest) u =
      Ledger.commitAll (done ++ (key, t') :: rest) u := by
  rw [Ledger.commitAll, Ledger.commitAll, commitFrom_append h, commitFrom_append h,
    commitFrom_congr hsame]

/-- Nothing is made final after something that was begun before it and cannot be made final. -/
theorem commitAll_of_not (h : ∀ v, ¬InTurn CommitSucceeds done.zipIdx u v) :
    Ledger.commitAll (done ++ (key, t) :: rest) u =
      Ledger.commitAll (done ++ (key, t') :: rest) u := by
  rcases InTurn.all_or_first_zipIdx CommitSucceeds done u with
    ⟨v, hv⟩ | ⟨before, entry, after, v, rfl, committed, hfails⟩
  · exact absurd hv (h v)
  · obtain ⟨f, x, fails⟩ := exists_commit_error hfails
    simp only [List.append_assoc, List.cons_append, commitAll_error committed fails]

theorem commitAll_eq_error {x : World κ} (h : InTurn CommitSucceeds done.zipIdx u v)
    (hcommit : t.commit v.world = (.error f, x)) :
    Ledger.commitAll (done ++ (key, t) :: rest) u =
      (.error f, v.called (.commit done.length) x) :=
  commitAll_error h (Session.call_of_eq hcommit)

end Commit

namespace Pipeline

variable (p : Pipeline κ) (before after : List (Extension κ)) (as : Adapters κ) (o : RunOptions)
  (w : World κ)

theorem Spares.between {β : Type} {view : World κ → β} {p : Pipeline κ}
    {before after : List (Extension κ)} {as : Adapters κ} (hp : p.HelpersSpare view)
    (hothers : ∀ e ∈ before ++ after, e.Spares view)
    (has : ∀ f ∈ as.factories, AdapterFactory.Spares view f) :
    (p.between before after as.extension).Spares view := by
  refine ⟨⟨hp.say, hp.fragments, hp.builders⟩, fun e he => ?_⟩
  rcases List.mem_append.mp he with he | he
  · exact hothers e (List.mem_append_left after he)
  · rcases List.mem_cons.mp he with rfl | he
    · exact Adapters.spares_extension hp.say has
    · exact hothers e (List.mem_append_right before he)

/-- A run that cannot be prepared fails, with every writer of the adapters in the same way. -/
theorem run_of_not_prepares
    (h : ∀ b l queue u, ¬(p.between before after as.extension).Prepares o w b l queue u) :
    ∃ f u, (p.between before after as.extension).prepare o (.start w) = (.error f, u) ∧
      ∀ writer, (p.between before after (as.withWriter writer).extension).run o w =
        (.error f, u.told o f) := by
  rcases prepare_between as o p before after (.start w) with
    ⟨f, u, hall⟩ | ⟨b, done, sb, rest, queue, u, -, hall⟩
  · exact ⟨f, u, hall as.writer, fun writer => run_of_prepare_error (hall writer)⟩
  · exact absurd (prepare_eq_ok_iff.mp (hall as.writer)) (h b _ queue u)

/-- Among what the hooks of a prepared run have begun, there is what the adapters have. With another
writer, the run would make final something else in its place. -/
theorem exists_of_prepares {b : Artifact} {l : Ledger κ} {queue : List QueuedWrite} {u : Session κ}
    (h : (p.between before after as.extension).Prepares o w b l queue u) :
    ∃ done sb rest, l = done ++ (Adapters.key, sb.transaction as.writer) :: rest ∧ as.Leave o sb ∧
      ∀ writer, (p.between before after (as.withWriter writer).extension).prepare o (.start w) =
        (.ok (b, done ++ (Adapters.key, sb.transaction writer) :: rest, queue), u) := by
  have hprepare := prepare_eq_ok_iff.mpr h
  rcases prepare_between as o p before after (.start w) with
    ⟨f, u, hall⟩ | ⟨b, done, sb, rest, queue, u, hleave, hall⟩
  · cases hprepare.symm.trans (hall as.writer)
  · cases hprepare.symm.trans (hall as.writer)
    exact ⟨done, sb, rest, rfl, hleave, hall⟩

/-- Runs that are prepared alike are the same if they make the same of it. -/
theorem run_eq_of_commitAll_eq {b : Artifact} {l l' : Ledger κ} {queue : List QueuedWrite}
    {u : Session κ} {p q : Pipeline κ} (hp : p.prepare o (.start w) = (.ok (b, l, queue), u))
    (hq : q.prepare o (.start w) = (.ok (b, l', queue), u)) (h : l.commitAll u = l'.commitAll u) :
    p.run o w = q.run o w := by
  rw [run_of_prepare hp, run_of_prepare hq, h]

/-- Once what was begun before is final, nothing of the writer counts but what it does with the
files that are handed to it, and if that fails, so does the run. -/
theorem run_of_hands {b : Artifact} {done rest : Ledger κ} {sb : Sandbox}
    {queue : List QueuedWrite} {u v : Session κ} {hs : List (Handing κ)}
    {result : Except Failure Unit} {x : World κ}
    (hprepare : ∀ writer,
      (p.between before after (as.withWriter writer).extension).prepare o (.start w) =
        (.ok (b, done ++ (Adapters.key, sb.transaction writer) :: rest, queue), u))
    (hdone : InTurn CommitSucceeds done.zipIdx u v) (hpending : sb.state = .pending)
    (hhands : Sandbox.Hands as.writer sb.outputDir sb.queue v.world hs result x) :
    let run := fun writer => (p.between before after (as.withWriter writer).extension).run o w
    (∀ f, result = .error f →
      (run as.writer).1 = .error f ∧ (run as.writer).2.world = x.report o.scope f) ∧
      ∀ writer, (∀ y ∈ hs, writer.write y.target y.file.contents y.world =
        as.writer.write y.target y.file.contents y.world) → run writer = run as.writer := by
  intro run
  refine ⟨fun f hf => ?_, fun writer hsame => ?_⟩
  · have hcommit : (sb.transaction as.writer).commit v.world = (.error f, x) := by
      obtain ⟨hresult, hworld⟩ := hhands.commit_eq fun h => absurd hpending h
      rw [Sandbox.transaction, ← hf, ← hresult, ← hworld]
    have hrun : run as.writer = _ := run_of_prepare (hprepare as.writer)
    rw [commitAll_eq_error hdone hcommit] at hrun
    rw [hrun]
    exact ⟨rfl, rfl⟩
  · refine run_eq_of_commitAll_eq o w (hprepare writer) (hprepare as.writer)
      (commitAll_congr hdone ?_)
    simp only [Sandbox.transaction, hhands.commit_congr hsame]

/-- Unless every hook and every builder has succeeded, a run fails and is the same with every writer
of the adapters, and what its clients leave alone is left. If they have succeeded, the writer is
handed files from the front of the queue that the adapters have left, all of them unless it fails,
once what was begun before is final. Nothing else of the writer counts for the run, and if it fails,
so does the run. -/
theorem adapters_write_last :
    let run := fun writer => (p.between before after (as.withWriter writer).extension).run o w
    let Prepares := (p.between before after as.extension).Prepares o w
    ((∀ b l queue u, ¬Prepares b l queue u) →
      (∃ f, (run as.writer).1 = .error f) ∧ (∀ writer, run writer = run as.writer) ∧
      ∀ (β : Type) (view : World κ → β), p.HelpersSpare view →
        (∀ e ∈ before ++ after, e.Spares view) →
        (∀ f ∈ as.factories, AdapterFactory.Spares view f) →
        view (run as.writer).2.world = view w) ∧
    ∀ b l queue u, Prepares b l queue u →
      ∃ done sb rest, l = done ++ (Adapters.key, sb.transaction as.writer) :: rest ∧
        as.Leave o sb ∧ (run as.writer).2.calls.count (.commit done.length) ≤ 1 ∧
        ((∀ v, ¬InTurn CommitSucceeds done.zipIdx u v) → ∀ writer, run writer = run as.writer) ∧
        ∀ v, InTurn CommitSucceeds done.zipIdx u v →
          ∃ hs result x, Sandbox.Hands as.writer sb.outputDir sb.queue v.world hs result x ∧
            hs.map (·.file) <+: sb.queue ∧ (result = .ok () → hs.map (·.file) = sb.queue) ∧
            (∀ f, result = .error f →
              (run as.writer).1 = .error f ∧ (run as.writer).2.world = x.report o.scope f) ∧
            ∀ writer, (∀ y ∈ hs, writer.write y.target y.file.contents y.world =
              as.writer.write y.target y.file.contents y.world) → run writer = run as.writer := by
  intro run Prepares
  refine ⟨fun hnot => ?_, fun b l queue u hprepares => ?_⟩
  · obtain ⟨f, u, hprepare, hall⟩ := run_of_not_prepares p before after as o w hnot
    refine ⟨⟨f, congrArg Prod.fst (hall as.writer)⟩,
      fun writer => (hall writer).trans (hall as.writer).symm,
      fun β view hp hothers has => ?_⟩
    have hspares := Spares.between hp hothers has
    have hkept := hspares.prepare (o := o) (c := view w) (.start w) rfl
    rw [hprepare] at hkept
    have hworld : (run as.writer).2.world = u.world.report o.scope f :=
      congrArg (fun r => r.2.world) (hall as.writer)
    rw [hworld]
    exact (hp.say u.world _).trans hkept
  · obtain ⟨done, sb, rest, rfl, hleave, hall⟩ := exists_of_prepares p before after as o w hprepares
    refine ⟨done, sb, rest, rfl, hleave, ?_, fun hnot writer => ?_, fun v hv => ?_⟩
    · obtain ⟨c, r, s, hcourse⟩ := exists_course (p.between before after as.extension) o w
      have hcount := hcourse.count_settling done.length
      have hrun : run as.writer = (r, s) := hcourse.run_eq
      rw [hrun]
      exact Nat.le_trans (Nat.le_add_right _ _) hcount
    · exact run_eq_of_commitAll_eq o w (hall writer) (hall as.writer) (commitAll_of_not hnot)
    · obtain ⟨hs, result, x, hhands⟩ :=
        Sandbox.exists_hands as.writer sb.outputDir sb.queue v.world
      have hpending := hleave.numbered.pending
      exact ⟨hs, result, x, hhands, hhands.files_isPrefix, hhands.files_eq,
        run_of_hands p before after as o w hall hv hpending hhands⟩

end Pipeline

end StagedCodegen
