import StagedCodegen.Pipeline
import StagedCodegen.Proofs.Run.Exchanges

/-!
# The stages of a run, call by call

What one hook, one builder and one transaction do to the state of a run when they succeed, and what
a stage makes of them: as long as they succeed, the stage goes on with the next one from the state
that they leave (`runHooksFrom_append`, `buildInOrder_append`, `commitFrom_append`). What is undone
is undone to the end, whatever fails (`rollbackAll_eq`).

A builder fails or succeeds as its program does (`BuilderEnds`).
-/

namespace StagedCodegen

/-! ## What an action keeps -/

namespace Attempt

variable {ε σ α β : Type} {P : σ → Prop}

/-- The action keeps a property of the state, whether it succeeds or not. -/
def Keeps (P : σ → Prop) (x : Attempt ε σ α) : Prop := ∀ s, P s → P (x s).2

theorem Keeps.pure (a : α) : Keeps P (pure a : Attempt ε σ α) := fun _ hs => hs

theorem Keeps.fail (e : ε) : Keeps P (fail e : Attempt ε σ α) := fun _ hs => hs

theorem Keeps.ofExcept (r : Except ε α) : Keeps P (ofExcept r) := fun _ hs => hs

theorem Keeps.modify {f : σ → σ} (hf : ∀ s, P s → P (f s)) :
    Keeps P (modify f : Attempt ε σ Unit) := hf

theorem Keeps.bind {x : Attempt ε σ α} {k : α → Attempt ε σ β} (hx : Keeps P x)
    (hk : ∀ a, Keeps P (k a)) : Keeps P (x >>= k) := by
  intro s hs
  have hs' := hx s hs
  rw [bind_apply]
  rcases h : x s with ⟨e | a, t⟩
  · rwa [h] at hs'
  · rw [h] at hs'
    exact hk a t hs'

end Attempt

/-! ## Calls -/

variable {κ α : Type}

namespace Session

/-- The session in which one more step is completed. -/
def completed (s : Session κ) (phase : Phase) (key : String) : Session κ :=
  { s with steps := s.steps ++ [⟨phase, key⟩] }

theorem complete_apply (phase : Phase) (key : String) (s : Session κ) :
    complete phase key s = (.ok (), s.completed phase key) := rfl

/-- The session in which one more call was made, which has left this world. -/
def called (s : Session κ) (c : Call) (w : World κ) : Session κ :=
  { s with world := w, calls := s.calls ++ [c] }

@[simp] theorem called_world (s : Session κ) (c : Call) (w : World κ) :
    (s.called c w).world = w := rfl

@[simp] theorem called_calls (s : Session κ) (c : Call) (w : World κ) :
    (s.called c w).calls = s.calls ++ [c] := rfl

@[simp] theorem called_steps (s : Session κ) (c : Call) (w : World κ) :
    (s.called c w).steps = s.steps := rfl

theorem call_apply (c : Call) (x : Act (World κ) α) (s : Session κ) :
    call c x s = ((x s.world).1, s.called c (x s.world).2) := rfl

theorem call_of_eq {c : Call} {x : Act (World κ) α} {s : Session κ} {r : Except Failure α}
    {w : World κ} (h : x s.world = (r, w)) : call c x s = (r, s.called c w) := by
  rw [call_apply, h]

/-- A call does to the world what is called. -/
theorem world_of_call {c : Call} {x : Act (World κ) α} {s s' : Session κ} {r : Except Failure α}
    (h : call c x s = (r, s')) : x s.world = (r, s'.world) := by
  rw [call_apply] at h
  cases h
  rfl

/-- A call completes no step. -/
theorem steps_of_call {c : Call} {x : Act (World κ) α} {s s' : Session κ} {r : Except Failure α}
    (h : call c x s = (r, s')) : s'.steps = s.steps := by
  rw [call_apply] at h
  exact congrArg (fun p => p.2.steps) h.symm

/-- A call is noted, whether it succeeds or not. -/
theorem calls_of_call {c : Call} {x : Act (World κ) α} {s s' : Session κ} {r : Except Failure α}
    (h : call c x s = (r, s')) : s'.calls = s.calls ++ [c] := by
  rw [call_apply] at h
  exact congrArg (fun p => p.2.calls) h.symm

end Session

/-- The first hooks, up to but without the one with this index. -/
def hooksBelow (n : Nat) : List Call := (List.range n).map .hook

/-- The first transactions are made final, up to but without the one with this index. -/
def commitsBelow (n : Nat) : List Call := (List.range n).map .commit

/-- The transactions up to but without the one with this index are undone, the last one first. -/
def rollbacksBelow (n : Nat) : List Call := (List.range n).reverse.map .rollback

theorem hooksBelow_succ (n : Nat) : hooksBelow (n + 1) = hooksBelow n ++ [.hook n] := by
  simp [hooksBelow, List.range_succ]

theorem commitsBelow_succ (n : Nat) : commitsBelow (n + 1) = commitsBelow n ++ [.commit n] := by
  simp [commitsBelow, List.range_succ]

open Session (call)

open StagedCodegen.Representation (Artifact)

variable {o : RunOptions} {f : Failure} {s s' : Session κ} {a : Artifact} {l l' : Ledger κ}

/-! ## Undoing -/

/-- The session after every entry was undone once, the last first, whatever came of it. -/
def Ledger.undone (l : Ledger κ) (s : Session κ) : Session κ :=
  l.zipIdx.reverse.foldl (fun s entry => (call (.rollback entry.2) entry.1.2.rollback s).2) s

theorem undo_eq (entry : (String × Transaction κ) × Nat) (n : Nat) :
    (Ledger.undo entry s n).2 = (call (.rollback entry.2) entry.1.2.rollback s).2 := by
  unfold Ledger.undo
  split <;> next h => rw [h]

theorem undoAll_eq (es : List ((String × Transaction κ) × Nat)) (n : Nat) :
    (Ledger.undoAll es s n).2 =
      es.foldl (fun s entry => (call (.rollback entry.2) entry.1.2.rollback s).2) s := by
  induction es generalizing s n with
  | nil => rfl
  | cons e es ih => rw [Ledger.undoAll, ih, undo_eq, List.foldl_cons]

/-- A failure on the way back keeps nothing from being undone. -/
theorem rollbackAll_eq : (l.rollbackAll s).2 = l.undone s := undoAll_eq _ _

theorem calls_of_undone (l : Ledger κ) (s : Session κ) : (l.undone s).calls =
    s.calls ++ rollbacksBelow l.length := by
  have hfold : ∀ (es : List ((String × Transaction κ) × Nat)) (s : Session κ),
      (es.foldl (fun s entry => (call (.rollback entry.2) entry.1.2.rollback s).2) s).calls =
        s.calls ++ es.map fun entry => .rollback entry.2 := by
    intro es
    induction es with
    | nil => simp
    | cons e es ih =>
      intro s
      rw [List.foldl_cons, ih]
      simp [Session.call_apply]
  rw [Ledger.undone, hfold, rollbacksBelow, List.range_eq_range', ← List.zipIdx_map_snd,
    List.map_reverse, List.map_reverse, List.map_map]
  rfl

/-! ## Hooks -/

/-- Call a hook. -/
def callHook (o : RunOptions) (hook : (String × Hook κ) × Nat) (a : Artifact) :
    Act (Session κ) (HookOutcome κ) :=
  call (.hook hook.2) (hook.1.2 ⟨o, hook.1.1, Scope.child o.scope hook.1.1⟩ a)

/-- The hook succeeds: it may leave another artifact, and the transaction that it may return comes
last in the ledger. -/
def HookSucceeds (o : RunOptions) (hook : (String × Hook κ) × Nat)
    (x y : (Artifact × Ledger κ) × Session κ) : Prop :=
  ∃ outcome s, callHook o hook x.1.1 x.2 = (.ok outcome, s) ∧
    y = ((outcome.artifact.getD x.1.1, x.1.2 ++ (outcome.transaction.map (hook.1.1, ·)).toList),
      s.completed .extension hook.1.1)

theorem exists_hook_error {hook : (String × Hook κ) × Nat}
    (h : ∀ y, ¬HookSucceeds o hook ((a, l), s) y) :
    ∃ f s', callHook o hook a s = (.error f, s') := by
  rcases hcall : callHook o hook a s with ⟨f | outcome, s'⟩
  · exact ⟨f, s', rfl⟩
  · exact absurd ⟨outcome, s', hcall, rfl⟩ (h _)

theorem runHooksFrom_ok {i : Nat} {key : String} {hook : Hook κ} {rest : List (String × Hook κ)}
    {outcome : HookOutcome κ} (h : callHook o ((key, hook), i) a s = (.ok outcome, s')) :
    runHooksFrom o i ((key, hook) :: rest) a l s =
      runHooksFrom o (i + 1) rest (outcome.artifact.getD a)
        (l ++ (outcome.transaction.map (key, ·)).toList) (s'.completed .extension key) := by
  have hcall : call (.hook i) (hook ⟨o, key, Scope.child o.scope key⟩ a) s = (.ok outcome, s') := h
  simp only [runHooksFrom, hcall]
  cases ht : outcome.transaction with
  | none => simp [Attempt.bind_apply, Session.complete_apply]
  | some t => simp [Attempt.bind_apply, Session.complete_apply, Ledger.record]

theorem runHooksFrom_error {i : Nat} {key : String} {hook : Hook κ}
    {rest : List (String × Hook κ)} (h : callHook o ((key, hook), i) a s = (.error f, s')) :
    runHooksFrom o i ((key, hook) :: rest) a l s = (.error f, (l.rollbackAll s').2) := by
  have hcall : call (.hook i) (hook ⟨o, key, Scope.child o.scope key⟩ a) s = (.error f, s') := h
  simp only [runHooksFrom, hcall]

/-- After hooks that succeed in turn, the stage goes on from where they lead. -/
theorem runHooksFrom_append {before : List (String × Hook κ)} {i : Nat}
    {x y : (Artifact × Ledger κ) × Session κ}
    (h : InTurn (HookSucceeds o) (before.zipIdx i) x y) (after : List (String × Hook κ)) :
    runHooksFrom o i (before ++ after) x.1.1 x.1.2 x.2 =
      runHooksFrom o (i + before.length) after y.1.1 y.1.2 y.2 := by
  induction before generalizing i x with
  | nil => cases h; rfl
  | cons hook rest ih =>
    cases h with
    | cons first others =>
      obtain ⟨outcome, s, hcall, rfl⟩ := first
      rw [List.cons_append, runHooksFrom_ok hcall, ih others, List.length_cons,
        Nat.add_right_comm, Nat.add_assoc]

theorem runHooks_ok {hooks : List (String × Hook κ)} {b : Artifact}
    (h : InTurn (HookSucceeds o) hooks.zipIdx ((a, []), s) ((b, l), s')) :
    runHooks o hooks a s = (.ok (b, l), s') := by
  have happend := runHooksFrom_append h []
  rwa [List.append_nil] at happend

/-- When a hook fails, what those before it have begun is undone. -/
theorem runHooks_error {before after : List (String × Hook κ)} {hook : String × Hook κ}
    {b : Artifact} {s'' : Session κ}
    (h : InTurn (HookSucceeds o) before.zipIdx ((a, []), s) ((b, l), s'))
    (hf : callHook o (hook, before.length) b s' = (.error f, s'')) :
    runHooks o (before ++ hook :: after) a s = (.error f, l.undone s'') := by
  have happend := runHooksFrom_append h (hook :: after)
  rw [runHooks, happend, Nat.zero_add, runHooksFrom_error hf, rollbackAll_eq]

/-- Every hook that succeeds in turn was called once. -/
theorem calls_of_hooks {hooks : List (String × Hook κ)} {b : Artifact}
    (h : InTurn (HookSucceeds o) hooks.zipIdx ((a, l), s) ((b, l'), s')) :
    s'.calls = s.calls ++ hooksBelow hooks.length := by
  have hstep : ∀ hook (x y : (Artifact × Ledger κ) × Session κ), HookSucceeds o hook x y →
      y.2.calls = x.2.calls ++ [.hook hook.2] := by
    rintro hook x _ ⟨outcome, s, hcall, rfl⟩
    exact (Session.calls_of_call hcall : s.calls = _)
  have hlog := h.log_eq (fun x => x.2.calls) hstep
  rw [hlog, hooksBelow, List.range_eq_range', ← List.zipIdx_map_snd, List.map_map]
  rfl

/-! ## Builders -/

/-- The program of a builder, begun in a world with a queue, ends with a result and leaves another
world and queue. -/
def BuilderEnds (o : RunOptions) (a : Artifact) (b : BuilderEntry × BuilderBehaviour κ)
    (x : World κ × List QueuedWrite) (r : Except Failure Unit) (y : World κ × List QueuedWrite) :
    Prop :=
  Program.Ends (I := builderInterface κ)
    (b.2 ⟨o, a, b.1.key, Scope.child o.scope b.1.key⟩).run (serveBuilder b.1.key) x r y

/-- The builder with this index succeeds and leaves a queue. -/
def BuilderSucceeds (o : RunOptions) (a : Artifact) (bs : List (BuilderEntry × BuilderBehaviour κ))
    (i : Nat) (x y : List QueuedWrite × Session κ) : Prop :=
  ∃ b w queue, bs[i]? = some b ∧ BuilderEnds o a b (x.2.world, x.1) (.ok ()) (w, queue) ∧
    y = (queue, (x.2.called (.builder i) w).completed .builder b.1.key)

variable {bs : List (BuilderEntry × BuilderBehaviour κ)} {b : BuilderEntry × BuilderBehaviour κ}
  {i : Nat} {rest : List Nat} {queue queue' : List QueuedWrite} {w w' : World κ}

theorem builderEnds_iff {x y : World κ × List QueuedWrite} {r : Except Failure Unit} :
    BuilderEnds o a b x r y ↔ Program.run (I := builderInterface κ) (serveBuilder b.1.key)
      (b.2 ⟨o, a, b.1.key, Scope.child o.scope b.1.key⟩).run x = (r, y) :=
  Program.run_eq_iff.symm

/-- A builder succeeds just if its program does, and leaves what that leaves. -/
theorem runBuilder_eq_ok_iff : runBuilder o a b.1 b.2 queue w = (.ok queue', w') ↔
    BuilderEnds o a b (w, queue) (.ok ()) (w', queue') := by
  rw [builderEnds_iff]
  unfold runBuilder
  extract_lets view program
  rcases Program.run (I := builderInterface κ) (serveBuilder b.1.key) program (w, queue)
    with ⟨f | ⟨⟩, w'', queue''⟩
  · simp
  · simp [and_comm]

/-- A builder fails just if its program does, and the queue is lost. -/
theorem runBuilder_eq_error_iff : runBuilder o a b.1 b.2 queue w = (.error f, w') ↔
    ∃ queue', BuilderEnds o a b (w, queue) (.error f) (w', queue') := by
  simp only [builderEnds_iff]
  unfold runBuilder
  extract_lets view program
  rcases Program.run (I := builderInterface κ) (serveBuilder b.1.key) program (w, queue)
    with ⟨f | ⟨⟩, w'', queue''⟩
  · simp [eq_comm]
  · simp

theorem exists_builderEnds (o : RunOptions) (a : Artifact) (b : BuilderEntry × BuilderBehaviour κ)
    (x : World κ × List QueuedWrite) : ∃ r y, BuilderEnds o a b x r y :=
  ⟨_, _, builderEnds_iff.2 rfl⟩

theorem exists_builder_error (hb : bs[i]? = some b)
    (h : ∀ y, ¬BuilderSucceeds o a bs i (queue, s) y) :
    ∃ f w queue', BuilderEnds o a b (s.world, queue) (.error f) (w, queue') := by
  obtain ⟨f | ⟨⟩, ⟨w, queue'⟩, hends⟩ := exists_builderEnds o a b (s.world, queue)
  · exact ⟨f, w, queue', hends⟩
  · exact absurd ⟨b, w, queue', hb, hends, rfl⟩ (h _)

/-- Every builder of the schedule has been registered. -/
theorem exists_scheduled_builder {φ : Type} {r : Registry φ (BuilderBehaviour κ)}
    (h : i ∈ Schedule.builders r.builderEntries) : ∃ b, r.builders[i]? = some b := by
  obtain ⟨⟨e, j⟩, he, rfl⟩ := List.mem_map.mp h
  have hentry := List.mem_zipIdx_iff_getElem?.mp (List.mem_mergeSort.mp he)
  rw [Registry.builderEntries, List.getElem?_map, Option.map_eq_some_iff] at hentry
  obtain ⟨b, hb, -⟩ := hentry
  exact ⟨b, hb⟩

theorem buildInOrder_ok (hb : bs[i]? = some b)
    (h : BuilderEnds o a b (s.world, queue) (.ok ()) (w, queue')) :
    buildInOrder o a bs (i :: rest) queue s =
      buildInOrder o a bs rest queue' ((s.called (.builder i) w).completed .builder b.1.key) := by
  have hcall := Session.call_of_eq (c := .builder i) (runBuilder_eq_ok_iff.2 h)
  rw [buildInOrder, hb]
  simp [Attempt.bind_apply, hcall, Session.complete_apply]

theorem buildInOrder_error (hb : bs[i]? = some b)
    (h : BuilderEnds o a b (s.world, queue) (.error f) (w, queue')) :
    buildInOrder o a bs (i :: rest) queue s = (.error f, s.called (.builder i) w) := by
  have hcall := Session.call_of_eq (c := .builder i) (runBuilder_eq_error_iff.2 ⟨queue', h⟩)
  rw [buildInOrder, hb]
  simp [Attempt.bind_apply, hcall]

/-- After builders that succeed in turn, the stage goes on from where they lead. -/
theorem buildInOrder_append {before : List Nat} {x y : List QueuedWrite × Session κ}
    (h : InTurn (BuilderSucceeds o a bs) before x y) (after : List Nat) :
    buildInOrder o a bs (before ++ after) x.1 x.2 = buildInOrder o a bs after y.1 y.2 := by
  induction h with
  | nil => rfl
  | cons first others ih =>
    obtain ⟨b, w, queue, hb, hends, rfl⟩ := first
    rw [List.cons_append, buildInOrder_ok hb hends, ih]

theorem runBuilders_ok {φ : Type} {r : Registry φ (BuilderBehaviour κ)}
    (h : InTurn (BuilderSucceeds o a r.builders) (Schedule.builders r.builderEntries)
      ([], s) (queue, s')) : runBuilders r o a s = (.ok queue, s') := by
  have happend := buildInOrder_append h []
  rwa [List.append_nil] at happend

/-- Every builder that succeeds in turn was called once. -/
theorem calls_of_builders {is : List Nat}
    (h : InTurn (BuilderSucceeds o a bs) is (queue, s) (queue', s')) :
    s'.calls = s.calls ++ is.map .builder := by
  refine h.log_eq (fun x => x.2.calls) ?_
  rintro i x _ ⟨b, w, queue, -, -, rfl⟩
  rfl

/-! ## Making final -/

/-- The transaction is made final. -/
def CommitSucceeds (entry : (String × Transaction κ) × Nat) (s s' : Session κ) : Prop :=
  ∃ t, call (.commit entry.2) entry.1.2.commit s = (.ok (), t) ∧ s' = t.completed .commit entry.1.1

theorem exists_commit_error {entry : (String × Transaction κ) × Nat}
    (h : ∀ s', ¬CommitSucceeds entry s s') :
    ∃ f s', call (.commit entry.2) entry.1.2.commit s = (.error f, s') := by
  rcases hcall : call (.commit entry.2) entry.1.2.commit s with ⟨f | ⟨⟩, s'⟩
  · exact ⟨f, s', rfl⟩
  · exact absurd ⟨s', hcall, rfl⟩ (h _)

theorem commitFrom_ok {i : Nat} {key : String} {t : Transaction κ} {rest : Ledger κ}
    (h : call (.commit i) t.commit s = (.ok (), s')) :
    Ledger.commitFrom i ((key, t) :: rest) s =
      Ledger.commitFrom (i + 1) rest (s'.completed .commit key) := by
  rw [Ledger.commitFrom]
  simp [Attempt.bind_apply, h, Session.complete_apply]

theorem commitFrom_error {i : Nat} {key : String} {t : Transaction κ} {rest : Ledger κ}
    (h : call (.commit i) t.commit s = (.error f, s')) :
    Ledger.commitFrom i ((key, t) :: rest) s = (.error f, s') := by
  rw [Ledger.commitFrom]
  simp [Attempt.bind_apply, h]

/-- After transactions that are made final in turn, it goes on with the others. -/
theorem commitFrom_append {before : Ledger κ} {i : Nat}
    (h : InTurn CommitSucceeds (before.zipIdx i) s s') (after : Ledger κ) :
    Ledger.commitFrom i (before ++ after) s =
      Ledger.commitFrom (i + before.length) after s' := by
  induction before generalizing i s with
  | nil => cases h; rfl
  | cons entry rest ih =>
    cases h with
    | cons first others =>
      obtain ⟨t, hcall, rfl⟩ := first
      rw [List.cons_append, commitFrom_ok hcall, ih others, List.length_cons,
        Nat.add_right_comm, Nat.add_assoc]

theorem commitAll_ok (h : InTurn CommitSucceeds l.zipIdx s s') : l.commitAll s = (.ok (), s') := by
  have happend := commitFrom_append h []
  rwa [List.append_nil] at happend

theorem commitAll_error {before after : Ledger κ} {entry : String × Transaction κ}
    {s'' : Session κ} (h : InTurn CommitSucceeds before.zipIdx s s')
    (hf : call (.commit before.length) entry.2.commit s' = (.error f, s'')) :
    Ledger.commitAll (before ++ entry :: after) s = (.error f, s'') := by
  rw [Ledger.commitAll, commitFrom_append h, Nat.zero_add]
  exact commitFrom_error hf

theorem calls_of_commits (h : InTurn CommitSucceeds l.zipIdx s s') :
    s'.calls = s.calls ++ commitsBelow l.length := by
  have hstep : ∀ entry (s s' : Session κ), CommitSucceeds entry s s' →
      s'.calls = s.calls ++ [.commit entry.2] := by
    rintro entry s _ ⟨t, hcall, rfl⟩
    exact (Session.calls_of_call hcall : t.calls = _)
  rw [h.log_eq Session.calls hstep, commitsBelow, List.range_eq_range', ← List.zipIdx_map_snd,
    List.map_map]
  rfl

end StagedCodegen
