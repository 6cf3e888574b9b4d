import Mathlib.Data.List.Nodup
import StagedCodegen.Proofs.Run.FragmentPhase

/-!
# The course of a run

Where a run can fail, and what becomes of what its hooks have begun. There are six courses: an
extension does not register, there is no artifact, a hook fails, a builder fails, a transaction is
not made final, or nothing fails. The fragments take one of the courses of their phase
(`FragmentPhase`), and a builder fails as its program does (`BuilderEnds`).

Main statements: every run takes one of the courses and no course is taken by any other run, and
with it the calls of the run are known: no transaction is settled twice (`Pipeline.run_settles`).
-/

namespace StagedCodegen

open Session (call)

open StagedCodegen.Representation (Artifact Draft)

variable {κ : Type}

/-! ## Before the hooks -/

/-- A call that belongs to what comes before the hooks. -/
def Call.early : Call → Bool
  | .register _ | .fragment _ => true
  | _ => false

/-- A call that settles a transaction. -/
def Call.settles : Call → Bool
  | .commit _ | .rollback _ => true
  | _ => false

/-- Nothing but what comes before the hooks has been called. -/
def Session.Early (s : Session κ) : Prop := ∀ c ∈ s.calls, c.early = true

theorem Session.Early.of_call {α : Type} {c : Call} (hc : c.early = true) (x : Act (World κ) α) :
    Attempt.Keeps Session.Early (call c x) := by
  intro s hs d hd
  rcases List.mem_append.mp hd with hd | hd
  · exact hs d hd
  · rw [List.mem_singleton.mp hd]
    exact hc

theorem early_of_collectHooksFrom (o : RunOptions) (i : Nat) (es : List (Extension κ)) :
    Attempt.Keeps Session.Early (collectHooksFrom o i es) := by
  induction es generalizing i with
  | nil => exact .pure []
  | cons e es ih =>
    refine (Session.Early.of_call rfl _).bind fun hook => (ih (i + 1)).bind fun hooks => ?_
    rcases hook with _ | h <;> exact .pure _

theorem early_of_runInOrder (o : RunOptions) (fs : List (FragmentEntry × FragmentBehaviour κ))
    (order : List Nat) (d : Draft) : Attempt.Keeps Session.Early (runInOrder o fs order d) := by
  induction order generalizing d with
  | nil => exact .pure _
  | cons i order ih =>
    rw [runInOrder]
    split
    · exact ih d
    · refine (Session.Early.of_call rfl _).bind ?_
      rintro ⟨d, stopped⟩
      refine Attempt.Keeps.bind (.modify fun _ hs => hs) fun _ => ?_
      split
      · exact Attempt.Keeps.bind (.modify fun _ hs => hs) fun _ => .pure _
      · exact (ih d).bind fun _ => .pure _

theorem early_of_runFragments {β : Type} (r : Registry (FragmentBehaviour κ) β)
    (families : List String) (o : RunOptions) :
    Attempt.Keeps Session.Early (runFragments r families o) := by
  refine Attempt.Keeps.bind (.ofExcept _) fun schedule => ?_
  refine Attempt.Keeps.bind (.modify fun _ hs => hs) fun _ => ?_
  refine (early_of_runInOrder o _ _ _).bind ?_
  rintro ⟨d, ran⟩
  rcases hidle : idleFamily? (r.fragmentEntries.map (·.key)) ran families with _ | f
  · simp only [hidle]
    exact .ofExcept _
  · simp only [hidle]
    exact .fail f

/-- The hooks that are to run, the artifact that they get first and the session in which they
begin. -/
def Pipeline.Begins (p : Pipeline κ) (o : RunOptions) (w : World κ)
    (hooks : List (String × Hook κ)) (a : Artifact) (s : Session κ) : Prop :=
  ∃ t ran, collectHooks o p.extensions (.start w) = (.ok hooks, t) ∧
    FragmentPhase p.registry p.requiredFamilies o t ran (.ok a) s

/-! ## The courses -/

/-- The calls of a run. -/
structure Account where
  /-- Those before the hooks. -/
  early : List Call
  /-- The hooks. -/
  hooks : List Call
  /-- The builders. -/
  builders : List Call
  /-- What became of the transactions. -/
  settled : List Call

/-- All calls, in order. -/
def Account.all (c : Account) : List Call := c.early ++ c.hooks ++ c.builders ++ c.settled

/-- The session once the user was told of a failure. -/
def Session.told (s : Session κ) (o : RunOptions) (f : Failure) : Session κ :=
  { s with world := s.world.report o.scope f }

/-- The courses of a run, each with its calls, its result and the session that it leaves. -/
inductive Pipeline.Course (p : Pipeline κ) (o : RunOptions) (w : World κ) :
    Account → Except Failure RunResult → Session κ → Prop where
  /-- An extension does not register. -/
  | unregistered {f : Failure} {s : Session κ}
      (fails : collectHooks o p.extensions (.start w) = (.error f, s)) :
      Course p o w ⟨s.calls, [], [], []⟩ (.error f) (s.told o f)
  /-- The fragments cannot be ordered, or do not make an artifact. -/
  | undrafted {hooks : List (String × Hook κ)} {ran : List Nat} {f : Failure} {s t : Session κ}
      (registered : collectHooks o p.extensions (.start w) = (.ok hooks, s))
      (fails : FragmentPhase p.registry p.requiredFamilies o s ran (.error f) t) :
      Course p o w ⟨t.calls, [], [], []⟩ (.error f) (t.told o f)
  /-- A hook fails. What those before it have begun is undone. -/
  | unhooked {before after : List (String × Hook κ)} {hook : String × Hook κ} {a b : Artifact}
      {l : Ledger κ} {f : Failure} {s t u : Session κ}
      (begins : p.Begins o w (before ++ hook :: after) a s)
      (hooked : InTurn (HookSucceeds o) before.zipIdx ((a, []), s) ((b, l), t))
      (fails : callHook o (hook, before.length) b t = (.error f, u)) :
      Course p o w ⟨s.calls, hooksBelow (before.length + 1), [], rollbacksBelow l.length⟩
        (.error f) ((l.undone u).told o f)
  /-- A builder fails. What the hooks have begun is undone. -/
  | unbuilt {hooks : List (String × Hook κ)} {a b : Artifact} {l : Ledger κ}
      {before after : List Nat} {i : Nat} {e : BuilderEntry × BuilderBehaviour κ}
      {queue left : List QueuedWrite} {f : Failure} {s t u : Session κ} {v : World κ}
      (begins : p.Begins o w hooks a s)
      (hooked : InTurn (HookSucceeds o) hooks.zipIdx ((a, []), s) ((b, l), t))
      (order : Schedule.builders p.registry.builderEntries = before ++ i :: after)
      (built : InTurn (BuilderSucceeds o b p.registry.builders) before ([], t) (queue, u))
      (entry : p.registry.builders[i]? = some e)
      (fails : BuilderEnds o b e (u.world, queue) (.error f) (v, left)) :
      Course p o w ⟨s.calls, hooksBelow hooks.length, (before ++ [i]).map .builder,
        rollbacksBelow l.length⟩ (.error f) ((l.undone (u.called (.builder i) v)).told o f)
  /-- A transaction is not made final. Those before it stay final, those after it stay begun. -/
  | uncommitted {hooks : List (String × Hook κ)} {a b : Artifact} {done rest : Ledger κ}
      {entry : String × Transaction κ} {queue : List QueuedWrite} {f : Failure}
      {s t u v x : Session κ}
      (begins : p.Begins o w hooks a s)
      (hooked : InTurn (HookSucceeds o) hooks.zipIdx ((a, []), s) ((b, done ++ entry :: rest), t))
      (built : InTurn (BuilderSucceeds o b p.registry.builders)
        (Schedule.builders p.registry.builderEntries) ([], t) (queue, u))
      (committed : InTurn CommitSucceeds done.zipIdx u v)
      (fails : call (.commit done.length) entry.2.commit v = (.error f, x)) :
      Course p o w ⟨s.calls, hooksBelow hooks.length,
        (Schedule.builders p.registry.builderEntries).map .builder,
        commitsBelow (done.length + 1)⟩ (.error f) (x.told o f)
  /-- Nothing fails. -/
  | completed {hooks : List (String × Hook κ)} {a b : Artifact} {l : Ledger κ}
      {queue : List QueuedWrite} {s t u v : Session κ}
      (begins : p.Begins o w hooks a s)
      (hooked : InTurn (HookSucceeds o) hooks.zipIdx ((a, []), s) ((b, l), t))
      (built : InTurn (BuilderSucceeds o b p.registry.builders)
        (Schedule.builders p.registry.builderEntries) ([], t) (queue, u))
      (committed : InTurn CommitSucceeds l.zipIdx u v) :
      Course p o w ⟨s.calls, hooksBelow hooks.length,
        (Schedule.builders p.registry.builderEntries).map .builder, commitsBelow l.length⟩
        (.ok ⟨b, v.world.diagnostics, v.steps, queue⟩) v

namespace Pipeline

variable {p : Pipeline κ} {o : RunOptions} {w : World κ} {hooks : List (String × Hook κ)}
  {a b : Artifact} {l : Ledger κ} {f : Failure} {s t u : Session κ}

/-- The hooks begin once all have registered and the fragments have made an artifact. -/
theorem begins_iff : p.Begins o w hooks a s ↔
    ∃ t, collectHooks o p.extensions (.start w) = (.ok hooks, t) ∧
      runFragments p.registry p.requiredFamilies o t = (.ok a, s) := by
  simp only [Begins, runFragments_eq_iff, exists_and_left]

theorem run_of_error (h : p.stages o (.start w) = (.error f, s)) :
    p.run o w = (.error f, s.told o f) := by
  simp only [run, h, Session.told]

theorem stages_of_hook_error (begins : p.Begins o w hooks a s)
    (hooked : runHooks o hooks a s = (.error f, t)) : p.stages o (.start w) = (.error f, t) := by
  obtain ⟨t₀, hcollect, hdraft⟩ := begins_iff.1 begins
  simp [stages, Attempt.bind_apply, hcollect, hdraft, hooked]

theorem stages_of_finish_error (begins : p.Begins o w hooks a s)
    (hooked : runHooks o hooks a s = (.ok (b, l), t))
    (finished : p.finish o b l t = (.error f, u)) : p.stages o (.start w) = (.error f, u) := by
  obtain ⟨t₀, hcollect, hdraft⟩ := begins_iff.1 begins
  simp [stages, Attempt.bind_apply, hcollect, hdraft, hooked, finished]

theorem stages_of_finish_ok {queue : List QueuedWrite} (begins : p.Begins o w hooks a s)
    (hooked : runHooks o hooks a s = (.ok (b, l), t))
    (finished : p.finish o b l t = (.ok queue, u)) :
    p.stages o (.start w) = (.ok ⟨b, u.world.diagnostics, u.steps, queue⟩, u) := by
  obtain ⟨t₀, hcollect, hdraft⟩ := begins_iff.1 begins
  simp [stages, Attempt.bind_apply, hcollect, hdraft, hooked, finished]

theorem finish_ok {queue : List QueuedWrite}
    (built : InTurn (BuilderSucceeds o b p.registry.builders)
      (Schedule.builders p.registry.builderEntries) ([], s) (queue, t))
    (committed : InTurn CommitSucceeds l.zipIdx t u) : p.finish o b l s = (.ok queue, u) := by
  simp [finish, runBuilders_ok built, Attempt.bind_apply, commitAll_ok committed]

/-- A course is taken by the run that it describes and by no other. -/
theorem Course.run_eq {c : Account} {r : Except Failure RunResult} (h : p.Course o w c r s) :
    p.run o w = (r, s) := by
  -- the stages before the one that fails are gone through by what is known of each
  cases h with
  | unregistered fails =>
    refine run_of_error ?_
    simp [stages, Attempt.bind_apply, fails]
  | undrafted registered fails =>
    refine run_of_error ?_
    simp [stages, Attempt.bind_apply, registered, fails.runFragments_eq]
  | unhooked begins hooked fails =>
    exact run_of_error (stages_of_hook_error begins (runHooks_error hooked fails))
  | unbuilt begins hooked order built entry fails =>
    refine run_of_error (stages_of_finish_error begins (runHooks_ok hooked) ?_)
    simp only [finish, runBuilders, order, buildInOrder_append built,
      buildInOrder_error entry fails, rollbackAll_eq]
  | uncommitted begins hooked built committed fails =>
    refine run_of_error (stages_of_finish_error begins (runHooks_ok hooked) ?_)
    simp [finish, runBuilders_ok built, Attempt.bind_apply, commitAll_error committed fails]
  | completed begins hooked built committed =>
    have hstages := stages_of_finish_ok begins (runHooks_ok hooked) (finish_ok built committed)
    simp only [run, hstages]

theorem early_of_collected {r : Except Failure (List (String × Hook κ))}
    (h : collectHooks o p.extensions (.start w) = (r, s)) : s.Early := by
  have hstart : (Session.start w).Early := fun c hc => absurd hc List.not_mem_nil
  have hs := early_of_collectHooksFrom o 0 p.extensions (.start w) hstart
  rwa [← collectHooks, h] at hs

theorem early_of_begins (h : p.Begins o w hooks a s) : s.Early := by
  obtain ⟨t, hcollect, hdraft⟩ := begins_iff.1 h
  have ht := early_of_collected hcollect
  have hs := early_of_runFragments p.registry p.requiredFamilies o t ht
  rwa [hdraft] at hs

/-- The calls of a run are those of its course. -/
theorem Course.calls_eq {c : Account} {r : Except Failure RunResult} (h : p.Course o w c r s) :
    s.calls = c.all := by
  cases h with
  | unregistered fails => simp [Account.all, Session.told]
  | undrafted registered fails => simp [Account.all, Session.told]
  | unhooked begins hooked fails =>
    have hfails := Session.calls_of_call fails
    simp [Account.all, Session.told, calls_of_undone, hfails, calls_of_hooks hooked,
      hooksBelow_succ]
  | unbuilt begins hooked order built entry fails =>
    simp [Account.all, Session.told, calls_of_undone, calls_of_builders built,
      calls_of_hooks hooked]
  | uncommitted begins hooked built committed fails =>
    have hfails := Session.calls_of_call fails
    simp [Account.all, Session.told, hfails, calls_of_commits committed, calls_of_builders built,
      calls_of_hooks hooked, commitsBelow_succ]
  | completed begins hooked built committed =>
    simp [Account.all, calls_of_commits committed, calls_of_builders built, calls_of_hooks hooked]

/-- What is called before the hooks are extensions and fragments. -/
theorem Course.early {c : Account} {r : Except Failure RunResult} (h : p.Course o w c r s) :
    ∀ d ∈ c.early, d.early = true := by
  cases h with
  | unregistered fails => exact early_of_collected fails
  | undrafted registered fails =>
    have ht := early_of_runFragments p.registry p.requiredFamilies o _
      (early_of_collected registered)
    rwa [fails.runFragments_eq] at ht
  | unhooked begins hooked fails => exact early_of_begins begins
  | unbuilt begins hooked order built entry fails => exact early_of_begins begins
  | uncommitted begins hooked built committed fails => exact early_of_begins begins
  | completed begins hooked built committed => exact early_of_begins begins

/-- Some run begins, or fails before it does. -/
theorem begins_or_fails (p : Pipeline κ) (o : RunOptions) (w : World κ) :
    (∃ c r s, p.Course o w c r s) ∨ ∃ hooks a s, p.Begins o w hooks a s := by
  rcases hcollect : collectHooks o p.extensions (.start w) with ⟨f | hooks, t⟩
  · exact .inl ⟨_, _, _, .unregistered hcollect⟩
  · rcases exists_fragmentPhase p.registry p.requiredFamilies o t with ⟨ran, f | a, s, hphase⟩
    · exact .inl ⟨_, _, _, .undrafted hcollect hphase⟩
    · exact .inr ⟨hooks, a, s, t, ran, hcollect, hphase⟩

/-- Every run takes a course. -/
theorem exists_course (p : Pipeline κ) (o : RunOptions) (w : World κ) :
    ∃ c r s, p.Course o w c r s := by
  rcases begins_or_fails p o w with h | ⟨hooks, a, s, begins⟩
  · exact h
  -- in each stage all succeed or there is a first that fails, which ends the run
  rcases InTurn.all_or_first_zipIdx (HookSucceeds o) hooks ((a, []), s) with
    ⟨⟨⟨b, l⟩, t⟩, hooked⟩ | ⟨before, hook, after, ⟨⟨b, l⟩, t⟩, rfl, hooked, hfails⟩
  · rcases InTurn.all_or_first (BuilderSucceeds o b p.registry.builders)
      (Schedule.builders p.registry.builderEntries) ([], t) with
      ⟨⟨queue, u⟩, built⟩ | ⟨before, i, after, ⟨queue, u⟩, order, built, hfails⟩
    · rcases InTurn.all_or_first_zipIdx CommitSucceeds l u with
        ⟨v, committed⟩ | ⟨done, entry, rest, v, rfl, committed, hfails⟩
      · exact ⟨_, _, _, .completed begins hooked built committed⟩
      · obtain ⟨f, x, fails⟩ := exists_commit_error hfails
        exact ⟨_, _, _, .uncommitted begins hooked built committed fails⟩
    · obtain ⟨e, entry⟩ := exists_scheduled_builder (i := i) (by rw [order]; simp)
      obtain ⟨f, v, left, fails⟩ := exists_builder_error entry hfails
      exact ⟨_, _, _, .unbuilt begins hooked order built entry fails⟩
  · obtain ⟨f, u, fails⟩ := exists_hook_error hfails
    exact ⟨_, _, _, .unhooked begins hooked fails⟩

/-! ## Settling -/

/-- The first hooks are called, then builders, and then the first transactions are made final or
all of them are undone. -/
theorem Course.shape {c : Account} {r : Except Failure RunResult} (h : p.Course o w c r s) :
    ∃ (n : Nat) (is : List Nat) (m : Nat), c.hooks = hooksBelow n ∧ c.builders = is.map .builder ∧
      (c.settled = commitsBelow m ∨ c.settled = rollbacksBelow m) := by
  cases h with
  | unregistered | undrafted => exact ⟨0, [], 0, rfl, rfl, .inl rfl⟩
  | unhooked => exact ⟨_, [], _, rfl, rfl, .inr rfl⟩
  | unbuilt => exact ⟨_, _, _, rfl, rfl, .inr rfl⟩
  | uncommitted | completed => exact ⟨_, _, _, rfl, rfl, .inl rfl⟩

/-- What settles a transaction comes last in a course. -/
theorem Course.filter_settles {c : Account} {r : Except Failure RunResult}
    (h : p.Course o w c r s) : s.calls.filter Call.settles = c.settled := by
  obtain ⟨n, is, m, hhooks, hbuilders, hsettled⟩ := h.shape
  have hearly : c.early.filter Call.settles = [] := by
    refine List.filter_eq_nil_iff.mpr fun d hd => ?_
    have hd' := h.early d hd
    cases d <;> simp [Call.early, Call.settles] at hd' ⊢
  rw [h.calls_eq, Account.all, hhooks, hbuilders]
  rcases hsettled with hsettled | hsettled <;> rw [hsettled] <;>
    simp [hearly, hooksBelow, commitsBelow, rollbacksBelow, List.filter_map, Function.comp_def,
      Call.settles, List.filter_false, List.filter_true]

/-- No transaction is settled twice. -/
theorem Course.count_settling {c : Account} {r : Except Failure RunResult}
    (h : p.Course o w c r s) (i : Nat) :
    s.calls.count (.commit i) + s.calls.count (.rollback i) ≤ 1 := by
  have hcommit := List.count_filter (l := s.calls) (p := Call.settles) (a := .commit i) rfl
  have hrollback := List.count_filter (l := s.calls) (p := Call.settles) (a := .rollback i) rfl
  rw [h.filter_settles] at hcommit hrollback
  rw [← hcommit, ← hrollback]
  -- the calls that settle are all of one kind, with one for each index below some `m`
  obtain ⟨-, -, m, -, -, hsettled | hsettled⟩ := h.shape
  · have hnodup : (commitsBelow m).Nodup := List.nodup_range.map fun i j hij => by simpa using hij
    have hnone : Call.rollback i ∉ commitsBelow m := by simp [commitsBelow]
    rw [hsettled, List.count_eq_zero_of_not_mem hnone]
    exact List.nodup_iff_count_le_one.mp hnodup _
  · have hnodup : (rollbacksBelow m).Nodup :=
      (List.nodup_reverse.mpr List.nodup_range).map fun i j hij => by simpa using hij
    have hnone : Call.commit i ∉ rollbacksBelow m := by simp [rollbacksBelow]
    rw [hsettled, List.count_eq_zero_of_not_mem hnone, Nat.zero_add]
    exact List.nodup_iff_count_le_one.mp hnodup _

/-- Every run takes a course, which only it takes, and calls what the course says. No transaction
is made final or undone twice, or both. -/
theorem run_settles (p : Pipeline κ) (o : RunOptions) (w : World κ) :
    (∀ r s, p.run o w = (r, s) ↔ ∃ c, p.Course o w c r s) ∧
    (∀ c r s, p.Course o w c r s → s.calls = c.all ∧ ∀ d ∈ c.early, d.early = true) ∧
    ∀ i, (p.run o w).2.calls.count (.commit i) + (p.run o w).2.calls.count (.rollback i) ≤ 1 := by
  obtain ⟨c, r, s, hcourse⟩ := exists_course p o w
  refine ⟨fun r' s' => ⟨fun h => ⟨c, ?_⟩, fun ⟨c', h⟩ => h.run_eq⟩,
    fun c' r' s' h => ⟨h.calls_eq, h.early⟩, fun i => ?_⟩
  · rw [hcourse.run_eq, Prod.mk.injEq] at h
    rwa [← h.1, ← h.2]
  · rw [hcourse.run_eq]
    exact hcourse.count_settling i

end Pipeline

end StagedCodegen
